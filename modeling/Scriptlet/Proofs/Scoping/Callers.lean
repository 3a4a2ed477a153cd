import Scriptlet.Proofs.Conduct.Sessions
import Scriptlet.Proofs.Scoping.Calls
/-!
# Names belong to callers

A function carries a context with it, and each time it is read, passed on or computed anew it gets another one.  When it is
called this is always the context of the call: the value of a node that can be called belongs to the context in which the
node was evaluated.  So the scope of a call stands on the scope of its caller, wherever the function was made, and a free
name is read as what the innermost call under way binds it to: `scoping_by_caller`.
-/
namespace Scriptlet

/-- What a name is bound to in one scope alone. -/
def Scopes.ownAt? {α : Type} (s : Scopes α) (scope : Nat) (name : String) : Option α :=
  s.all[scope]?.bind (·.own? name)

namespace Context

/-- Each scope of the chain stands on the next one, down to the scope of the program's own names and the prelude. -/
def Mirrors (s : Scopes Datum) : Context → Prop
  | .root _ scope => scope = Session.globalScope ∧ s.parents[scope]? = some (some Session.preludeScope) ∧
      s.parents[Session.preludeScope]? = some none
  | .call _ _ scope caller => s.parents[scope]? = some (some caller.scope) ∧ caller.scope < scope ∧ caller.Mirrors s

/-- What a name is bound to in the innermost call that binds it, or else by the program or the prelude. -/
def resolve (s : Scopes Datum) (name : String) : Context → Option Datum
  | .root _ scope => (s.ownAt? scope name).or (s.ownAt? Session.preludeScope name)
  | .call _ _ scope caller => (s.ownAt? scope name).or (caller.resolve s name)

end Context

/-! ## Looking names up -/

theorem Scopes.find?_succ {α : Type} {s : Scopes α} {scope : Nat} {parent : Option Nat}
    (h : s.parents[scope]? = some parent) (name : String) (fuel : Nat) : s.find? name (fuel + 1) scope =
      (s.ownAt? scope name).or (parent.bind (s.find? name fuel)) := by
  obtain ⟨t, ht, rfl⟩ : ∃ t, s.all[scope]? = some t ∧ t.parent = parent := by
    rw [Scopes.parents, List.getElem?_map, Array.getElem?_toList] at h
    exact Option.map_eq_some_iff.1 h
  simp only [Scopes.find?, Scopes.ownAt?, ht, Option.bind_some]
  cases t.own? name with
  | some v => rfl
  | none => cases t.parent <;> rfl

theorem Context.Mirrors.find? {s : Scopes Datum} {c : Context} (h : c.Mirrors s) (name : String) {fuel : Nat}
    (hfuel : c.scope < fuel) : s.find? name fuel c.scope = c.resolve s name := by
  induction c generalizing fuel with
  | root _ scope =>
    obtain ⟨rfl, hglobal, hprelude⟩ := h
    obtain ⟨fuel, rfl⟩ : ∃ m, fuel = m + 2 := ⟨fuel - 2, by simp only [scope, Session.globalScope] at hfuel; omega⟩
    have hend := Scopes.find?_succ hprelude name fuel
    rw [Context.scope, Scopes.find?_succ hglobal, Option.bind_some, hend, Option.bind_none, Option.or_none]
    rfl
  | call _ _ scope caller ih =>
    obtain ⟨hparent, hlt, hcaller⟩ := h
    obtain ⟨fuel, rfl⟩ : ∃ m, fuel = m + 1 := ⟨fuel - 1, by omega⟩
    rw [Context.scope, Scopes.find?_succ hparent, Option.bind_some, ih hcaller (by simp only [Context.scope] at hfuel; omega)]
    rfl

/-- **A name is looked up in the calls under way**, innermost first. -/
theorem Context.Mirrors.get? {s : Scopes Datum} {c : Context} (h : c.Mirrors s) (name : String) :
    s.get? c.scope name = c.resolve s name :=
  h.find? name (Nat.lt_succ_self _)

theorem Ground.Over.mirrors {strict : Prop} {name : String} {s : Scopes Datum} {c : Context}
    (h : (Session.ground strict name).Over s.parents c) : c.Mirrors s := by
  induction h with
  | root hshape _ =>
    have hparent : ∀ i, ∀ hi : i < 2, s.parents[i]? = some [none, some Session.preludeScope][i] :=
      fun i hi => List.prefix_iff_getElem?.1 hshape i hi
    exact ⟨rfl, hparent 1 (by decide), hparent 0 (by decide)⟩
  | call _ hparent hlt ih => exact ⟨hparent, hlt, ih⟩

/-! ## Calls from a context -/

namespace Eval

theorem apply_eq (limits : Limits) (sub : Evaluator) {v : Value} (hv : v.datum.isCallable = true)
    {caller : Context} (hcaller : v.site.context = some caller) (arguments : List Value) :
    apply limits sub v arguments = (do
      let scope ← Effect.newScope caller.scope
      callBody limits sub v arguments (.call v.datum.callName v.site.start scope caller)) := by
  funext w
  exact apply_entered limits sub hv arguments w hcaller

/-- A call whose callee can be called and belongs to the context of the call. -/
theorem step_call (limits : Limits) (sub : Evaluator) (callee : Node) (arguments : List Node) {c : Context} {u u₁ : World}
    {v : Value} (hrun : (sub callee c).run u = (.ok v, u₁)) (hv : v.datum.isCallable = true)
    (hcontext : v.site.context = some c) : (step limits sub (.call callee arguments) c).run u = (do
      let values ← evalAll sub c arguments
      let scope ← Effect.newScope c.scope
      let result ← callBody limits sub ⟨v.datum, some (Node.call callee arguments).span, some c⟩ values
        (.call v.datum.callName (some (Node.call callee arguments).span.start) scope c)
      return .placed (← Effect.lift result.datum.copy) (Node.call callee arguments).span c : Effect Value).run u₁ := by
  obtain ⟨d, span, context⟩ := v
  cases hcontext
  have happly : ∀ values, apply limits sub ⟨d, some (Node.call callee arguments).span, some c⟩ values = (do
      let scope ← Effect.newScope c.scope
      callBody limits sub ⟨d, some (Node.call callee arguments).span, some c⟩ values
        (.call d.callName (some (Node.call callee arguments).span.start) scope c)) :=
    fun values => apply_eq limits sub (v := ⟨d, some (Node.call callee arguments).span, some c⟩) hv rfl values
  have hstep : (step limits sub (.call callee arguments) c).run u = (do
      let values ← evalAll sub c arguments
      let result ← apply limits sub ⟨d, some (Node.call callee arguments).span, some c⟩ values
      return .placed (← Effect.lift result.datum.copy) (Node.call callee arguments).span c : Effect Value).run u₁ := by
    unfold step
    rw [Effect.run_bind, hrun]
    cases d with
    | function f => rfl
    | builtin name => rfl
    | _ => cases hv
  rw [hstep]
  simp only [happly, bind_assoc]

/-- What comes of a name in a context: a copy of what it is bound to, or an error at the name. -/
def readName (x : Name) (c : Context) : Option Datum → Effect Value
  | none => Effect.fail ⟨.undefined x.text, some x.span.start, some x.span.stop, some c⟩
  | some d => return .placed (← Effect.lift d.copy) x.span c

theorem eval_access (limits : Limits) (d : Nat) (x : Name) (c : Context) (u : World) :
    (eval limits (d + 1) (.access x) c).run u = (readName x c (u.scopes.get? c.scope x.text)).run u := by
  have hlookup : (Effect.lookup c x.text).run u = (.ok (u.scopes.get? c.scope x.text), u) := rfl
  unfold eval step
  rw [Effect.run_bind, hlookup]
  cases u.scopes.get? c.scope x.text <;> rfl

/-- **Scoping is by caller.**  At every evaluation that the run of a tree comes to, in any state that can be reached: the
context is that of the calls under way; the scopes stand on one another like the contexts, down to the program's own names;
a name is read as what the innermost call under way binds it to, or else the program or the prelude, and is an error if
none does; and a call of a function goes on in a context on top of the present one, with a scope on top of the present one,
wherever the function comes from. -/
theorem scoping_by_caller {s : Session} (hs : s.Reachable) (name : String) (tree : Node) {calls : List Node} {d : Nat}
    {n : Node} {c : Context} {u : World}
    (h : Underway s.limits (fun sub => sub tree (Session.rootContext name)) s.limits.evaluation s.world calls d n c u) :
    (Session.rootContext name).Carries calls c ∧ c.Mirrors u.scopes ∧
    (∀ x, u.scopes.get? c.scope x = c.resolve u.scopes x) ∧
    (∀ x m, n = .access x → d = m + 1 →
      (eval s.limits d n c).run u = (readName x c (c.resolve u.scopes x.text)).run u) ∧
    ∀ callee arguments m v u₁, n = .call callee arguments → d = m + 1 → (eval s.limits m callee c).run u = (.ok v, u₁) →
      v.datum.isCallable = true → (eval s.limits d n c).run u = (do
        let values ← evalAll (eval s.limits m) c arguments
        let scope ← Effect.newScope c.scope
        let result ← callBody s.limits (eval s.limits m) ⟨v.datum, some n.span, some c⟩ values
          (.call v.datum.callName (some n.span.start) scope c)
        return .placed (← Effect.lift result.datum.copy) n.span c : Effect Value).run u₁ := by
  have hshape := hs.inOrder.shape
  have hfirst : ∀ n c u, Asks (fun sub => sub tree (Session.rootContext name)) (eval s.limits s.limits.evaluation)
      s.world n c u → c = (Session.ground False name).root ∧
        ∃ ps k, (Session.ground False name).Over ps c ∧ Standing (Session.ground False name) ps k u := by
    intro n c u hasks
    obtain ⟨rfl, rfl⟩ := hasks.of_determined (I := fun n c u => c = Session.rootContext name ∧ u = s.world)
      fun sub' hsub' => hsub' tree _ _ ⟨rfl, rfl⟩
    exact ⟨rfl, _, _, Session.over_root False name hshape, Session.standing False name hs.inOrder⟩
  obtain ⟨hcarries, ps, k, hc, hu⟩ := h.standing (fun h => h) hfirst
  obtain rfl := hu.parents
  refine ⟨hcarries, hc.mirrors, hc.mirrors.get?, ?_, ?_⟩
  · rintro x m rfl rfl
    rw [eval_access, hc.mirrors.get?]
  · rintro callee arguments m v u₁ rfl rfl hrun hv
    refine step_call s.limits (eval s.limits m) callee arguments hrun hv ?_
    have hleaves := (eval_ensures s.limits m hc (n := callee) (fun h => h.elim) u hu).2
    rw [hrun] at hleaves
    obtain ⟨k', -, -, hown⟩ := hleaves
    exact hown.context hv

/-- A function that is made where `x` means nothing, and called from within a function that binds it:
`(fn (f, x) -> f())(fn () -> x, 1)`.  It reads the `x` of its caller. -/
theorem scoping_by_caller_body :
    let span : Span := ⟨.origin ⟨"", ""⟩, .origin ⟨"", ""⟩⟩
    let x : Name := ⟨"x", span⟩
    let inside : Node := .call (.access ⟨"f", span⟩) []
    let callee : Node := .function none [⟨"f", span⟩, x] (.inline inside)
    let arguments : List Node := [.function none [] (.inline (.access x)), .number (.whole 1) span]
    let tree : Node := .call callee arguments
    let s : Session := .start Builtin.all "" ⟨9, 4, 9, 9⟩
    let root : Context := Session.rootContext ""
    let outer : Context := .call anonymous (some tree.span.start) 2 root
    let inner : Context := .call anonymous (some inside.span.start) 3 outer
    let f : Function := ⟨anonymous, [], .inline (.access x)⟩
    let g : Value := .placed (.function ⟨anonymous, ["f", "x"], .inline inside⟩) callee.span root
    let u₁ : World := { s.world with scopes :=
      ((s.world.scopes.push (some 1)).set 2 "f" (some (.function f))).set 2 "x" (some (.number (.int 1))) }
    let u : World := { u₁ with scopes := u₁.scopes.push (some 2) }
    s.Reachable ∧
      Underway s.limits (fun sub => sub tree root) s.limits.evaluation s.world [inside, tree] 2 (.access x) inner u ∧
      root.Carries [inside, tree] inner ∧ inner.Mirrors u.scopes ∧
      u.scopes.get? inner.scope "x" = inner.resolve u.scopes "x" ∧
      u.scopes.ownAt? 3 "x" = none ∧ u.scopes.ownAt? 2 "x" = some (.number (.int 1)) ∧ u.scopes.ownAt? 1 "x" = none ∧
      (eval s.limits 2 (.access x) inner).run u = (.ok (.placed (.number (.int 1)) span inner), u) ∧
      (eval s.limits 3 callee root).run s.world = (.ok g, s.world) ∧ g.datum.isCallable = true ∧
      (eval s.limits 4 tree root).run s.world = (do
        let values ← evalAll (eval s.limits 3) root arguments
        let scope ← Effect.newScope root.scope
        let result ← callBody s.limits (eval s.limits 3) ⟨g.datum, some tree.span, some root⟩ values
          (.call anonymous (some tree.span.start) scope root)
        return .placed (← Effect.lift result.datum.copy) tree.span root : Effect Value).run s.world := by
  intro span x inside callee arguments tree s root outer inner f g u₁ u
  let values : List Value := [.placed (.function f) (Node.function none [] (.inline (.access x))).span root,
    .placed (.number (.int 1)) span root]
  have hs : s.Reachable := .start _ _
  have hroot : Underway s.limits (fun sub => sub tree root) s.limits.evaluation s.world [] 4 tree root s.world :=
    .asked (asks_self _ _ _ _)
  have houter : Underway s.limits (fun sub => sub tree root) s.limits.evaluation s.world [tree] 3 inside outer u₁ := by
    refine .body hroot (asks_of_stops fun fault => ?_) (Context.call_ne_caller _ _ _ _)
    let sub : Evaluator := diverted (eval s.limits 3) inside outer u₁ (.error (.fault fault), u₁)
    have hother (n : Node) : (sub n root).run s.world = (eval s.limits 3 n root).run s.world :=
      if_neg fun h => Context.call_ne_caller _ _ _ _ h.2.1.symm
    have hinside : (sub inside outer).run u₁ = (.error (.fault fault), u₁) := if_pos ⟨rfl, rfl, rfl⟩
    have hg : (sub callee root).run s.world = (.ok g, s.world) := hother callee
    have hvalues : (evalAll sub root arguments).run s.world = (.ok values, s.world) := by
      have hf : (sub (.function none [] (.inline (.access x))) root).run s.world =
          (.ok (.placed (.function f) (Node.function none [] (.inline (.access x))).span root), s.world) := hother _
      have hone : (sub (.number (.whole 1) span) root).run s.world = (.ok (.placed (.number (.int 1)) span root), s.world) :=
        hother _
      simp only [arguments, evalAll, Effect.run_bind, hf, hone]
      rfl
    have hcall : (step s.limits sub tree root).run s.world = ((sub inside outer >>= fun result => do
        Effect.leaveScope
        return result) >>= fun result => do
        return Value.placed (← Effect.lift result.datum.copy) tree.span root).run u₁ := by
      rw [step_call s.limits sub callee _ hg rfl rfl, Effect.run_bind, hvalues]
      rfl
    show (step s.limits sub tree root).run s.world = _
    rw [hcall, Effect.run_bind, Effect.run_bind, hinside]
  have hinner :
      Underway s.limits (fun sub => sub tree root) s.limits.evaluation s.world [inside, tree] 2 (.access x) inner u := by
    refine .body houter (asks_of_stops fun fault => ?_) (Context.call_ne_caller _ _ _ _)
    let sub : Evaluator := diverted (eval s.limits 2) (.access x) inner u (.error (.fault fault), u)
    have hcallee : (sub (.access ⟨"f", span⟩) outer).run u₁ = (.ok (.placed (.function f) span outer), u₁) :=
      if_neg fun h => Context.call_ne_caller _ _ _ _ h.2.1.symm
    have hbody : (sub (.access x) inner).run u = (.error (.fault fault), u) := if_pos ⟨rfl, rfl, rfl⟩
    have hcall : (step s.limits sub inside outer).run u₁ = ((sub (.access x) inner >>= fun result => do
        Effect.leaveScope
        return result) >>= fun result => do
        return Value.placed (← Effect.lift result.datum.copy) inside.span outer).run u := by
      rw [step_call s.limits sub _ [] hcallee rfl rfl]
      rfl
    show (step s.limits sub inside outer).run u₁ = _
    rw [hcall, Effect.run_bind, Effect.run_bind, hbody]
  obtain ⟨hcarries, hmirrors, hget, hread, -⟩ := scoping_by_caller hs "" tree hinner
  obtain ⟨-, -, -, -, hcall⟩ := scoping_by_caller hs "" tree hroot
  exact ⟨hs, hinner, hcarries, hmirrors, hget "x", rfl, rfl, rfl, hread x 1 rfl rfl, rfl, rfl,
    hcall callee arguments 3 g s.world rfl rfl rfl rfl⟩

end Eval

end Scriptlet
