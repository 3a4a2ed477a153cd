import Scriptlet.Proofs.Scoping.Underway
/-!
# A call does not touch its callers' names

A call first makes a scope and a context (`apply_entered`); the rest of it, `callBody`, runs in them.  All that is evaluated
during the call is evaluated in a context whose scope is at least as new, so the scopes that were there before stay as they
are, whatever happens in the call and however it ends: `call_keeps_bindings`.
-/
namespace Scriptlet

/-- The name under which a function is called. -/
def Datum.callName : Datum → String
  | .function f => f.name
  | .builtin name => name
  | _ => ""

namespace Eval

/-- What a function does in the context made for a call. -/
def callBody (limits : Limits) (sub : Evaluator) (v : Value) (arguments : List Value) (inner : Context) : Effect Value := do
  match v.datum with
  | .function f =>
    receive v.site inner f.parameters arguments
    let result ← runBody sub f.body inner
    Effect.leaveScope
    return result
  | .builtin name =>
    match Builtin.ofName? name with
    | none => Effect.fault .unknownBuiltin
    | some b =>
      receive v.site inner b.parameters arguments
      let result ← runBuiltin limits v.site inner b arguments
      Effect.leaveScope
      return result
  | _ => Effect.fault .mismatch

section Entering

variable (limits : Limits) (sub : Evaluator) {v : Value} (hv : v.datum.isCallable = true) (arguments : List Value) (w : World)

include hv

/-- **A call makes a scope on that of the caller and a context on the caller's**, and goes on in them. -/
theorem apply_entered {caller : Context} (hcaller : v.site.context = some caller) :
    (apply limits sub v arguments).run w =
      (callBody limits sub v arguments (.call v.datum.callName v.site.start w.scopes.size caller)).run
        { w with scopes := w.scopes.push (some caller.scope) } := by
  obtain ⟨d, site⟩ := v
  obtain ⟨span, context⟩ := site
  cases hcaller
  cases d with
  | function f => rfl
  | builtin name => rfl
  | _ => cases hv

/-- A function that belongs to no context cannot be called. -/
theorem apply_not_entered (hnone : v.site.context = none) :
    (apply limits sub v arguments).run w = (.error (.fault .noContext), w) := by
  obtain ⟨d, site⟩ := v
  obtain ⟨span, context⟩ := site
  cases hnone
  cases d with
  | function f => rfl
  | builtin name => rfl
  | _ => cases hv

end Entering

theorem callBody_ensures {Γ : Ground} (hΓ : ¬Γ.strict) {ps : List (Option Nat)} {p : Option Nat} {inner : Context}
    (hinner : Γ.Over (ps ++ [p]) inner) (hshape : Γ.shape <+: ps) (hlen : Γ.base.length ≤ ps.length) (limits : Limits)
    {sub sub' : Evaluator} (hsub : PartsAt Γ (ps ++ [p]) inner sub sub') (v : Value) (arguments : List Value) (k : Nat) :
    Ensures Γ (ps ++ [p]) ps k (fun k v => Γ.Fit k v.datum) (callBody limits sub v arguments inner)
      (callBody limits sub' v arguments inner) := by
  have hfit : ∀ a ∈ arguments, Γ.Fit k a.datum := fun _ _ h => (hΓ h).elim
  unfold callBody
  split
  · next f _ =>
    refine called_ensures hinner hshape hlen _ _ hfit fun k₁ => ?_
    exact (runBody_ensures hsub fun h => (hΓ h).elim).imp fun _ _ _ hr => hr.fit
  · split
    · exact .fault fun h => (hΓ h).elim
    · next b _ => exact called_ensures hinner hshape hlen _ _ hfit fun k₁ => runBuiltin_ensures limits _ _ b arguments
  · exact .fault fun h => (hΓ h).elim

/-! ## The scopes that were there before -/

/-- The ground of a call: all scopes that there are stay as they are. -/
def callGround (w : World) (name : String) (entry : Option Position) (caller : Context) : Ground where
  strict := False
  base := w.scopes.all.toList
  shape := []
  root := .call name entry w.scopes.size caller
  base_le := Nat.le_of_eq (Array.length_toList)

section Ground

variable (w : World) (name : String) (entry : Option Position) (caller : Context)

theorem callGround_over :
    (callGround w name entry caller).Over (w.scopes.parents ++ [some caller.scope])
      (.call name entry w.scopes.size caller) := by
  refine .root List.nil_prefix ?_
  rw [List.length_append, Scopes.length_parents]
  exact Nat.lt_succ_self _

theorem callGround_standing :
    Standing (callGround w name entry caller) (w.scopes.parents ++ [some caller.scope]) w.lists.size
      { w with scopes := w.scopes.push (some caller.scope) } := by
  have hw : Standing (callGround w name entry caller) w.scopes.parents w.lists.size w :=
    ⟨rfl, List.nil_prefix, List.prefix_refl _, rfl, fun h => h.elim⟩
  exact hw.push _

/-- What the body of a call ensures for the scopes that were there before. -/
theorem callGround_ensures (limits : Limits) (depth : Nat) {sub' : Evaluator}
    (hsub' : PartsAt (callGround w name entry caller) (w.scopes.parents ++ [some caller.scope])
      (.call name entry w.scopes.size caller) (eval limits depth) sub') (v : Value) (arguments : List Value) :
    Ensures (callGround w name entry caller) (w.scopes.parents ++ [some caller.scope]) w.scopes.parents w.lists.size
      (fun k v => (callGround w name entry caller).Fit k v.datum)
      (callBody limits (eval limits depth) v arguments (.call name entry w.scopes.size caller))
      (callBody limits sub' v arguments (.call name entry w.scopes.size caller)) := by
  refine callBody_ensures (fun h => h) (callGround_over w name entry caller) List.nil_prefix ?_ limits hsub' v arguments _
  rw [Scopes.length_parents]
  exact Nat.le_of_eq Array.length_toList

/-- The body of the function is evaluated in the context made for the call. -/
theorem callGround_asks {limits : Limits} {depth : Nat} {v : Value} (hv : v.datum.isCallable = true)
    (hcaller : v.site.context = some caller) {arguments : List Value} {n : Node} {c : Context} {u : World}
    (h : Asks (fun sub => apply limits sub v arguments) (eval limits depth) w n c u) :
    c = .call v.datum.callName v.site.start w.scopes.size caller ∧ ∃ k,
      Standing (callGround w v.datum.callName v.site.start caller) (w.scopes.parents ++ [some caller.scope]) k u := by
  refine h.of_determined (I := fun _ c u => c = .call v.datum.callName v.site.start w.scopes.size caller ∧ ∃ k,
    Standing (callGround w v.datum.callName v.site.start caller) (w.scopes.parents ++ [some caller.scope]) k u)
    fun sub' hsub' => ?_
  rw [apply_entered limits _ hv arguments w hcaller, apply_entered limits _ hv arguments w hcaller]
  refine (callGround_ensures w _ _ caller limits depth ?_ v arguments _ (callGround_standing w _ _ caller)).1
  exact parts_of_agree limits depth (callGround_over w _ _ caller) fun k m u hu => hsub' m _ u ⟨rfl, k, hu⟩

end Ground

/-- **A call does not touch its callers' names**: the scopes that were there when a function was called are the same when the
call ends, in whatever way it ends, and before and after every evaluation on the way.  All of these are made in contexts with
newer scopes. -/
theorem call_keeps_bindings (limits : Limits) (depth : Nat) {v : Value} (hv : v.datum.isCallable = true)
    (arguments : List Value) (w : World) :
    (∀ i < w.scopes.size,
      ((apply limits (eval limits depth) v arguments).run w).2.scopes.all[i]? = w.scopes.all[i]?) ∧
    ∀ calls d n c u, Underway limits (fun sub => apply limits sub v arguments) depth w calls d n c u →
      w.scopes.size ≤ c.scope ∧ ∀ i < w.scopes.size, u.scopes.all[i]? = w.scopes.all[i]? ∧
        ((eval limits d n c).run u).2.scopes.all[i]? = w.scopes.all[i]? := by
  cases hcaller : v.site.context with
  | none =>
    have hrun := fun sub => apply_not_entered limits sub hv arguments w hcaller
    refine ⟨fun i _ => by rw [hrun], fun calls d n c u h => ?_⟩
    obtain ⟨n, c, u, reply, hreply⟩ := h.exists_asks
    exact absurd (by rw [hrun, hrun]) hreply
  | some caller =>
    have hover := callGround_over w v.datum.callName v.site.start caller
    have hstanding := callGround_standing w v.datum.callName v.site.start caller
    refine ⟨fun i hi => ?_, fun calls d n c u h => ?_⟩
    · have hparts := parts_of_agree limits depth hover fun k m u _ => rfl
      have hensures := callGround_ensures w _ _ caller limits depth hparts v arguments _ hstanding
      rw [apply_entered limits _ hv arguments w hcaller]
      exact Scopes.getElem?_of_base (Leaves.base hensures.2) hi
    · obtain ⟨-, ps, k, hc, hu⟩ := h.standing (fun h => h) fun n c u hasks => by
        obtain ⟨rfl, k, hu⟩ := callGround_asks w caller hv hcaller hasks
        exact ⟨rfl, _, k, hover, hu⟩
      have hensures := eval_ensures limits d hc (n := n) (fun h => h.elim) u hu
      refine ⟨?_, fun i hi => ⟨Scopes.getElem?_of_base hu.base hi, Scopes.getElem?_of_base (Leaves.base hensures.2) hi⟩⟩
      exact Nat.le_trans (Nat.le_of_eq Array.length_toList.symm) hc.base_le

/-- A function `f() -> var y = 2` called where `y` is 1. -/
theorem call_keeps_bindings_assignment :
    let span : Span := ⟨.origin ⟨"", ""⟩, .origin ⟨"", ""⟩⟩
    let body : Node := .assign ⟨"y", span⟩ (.number (.whole 2) span)
    let caller : Context := .root "" 0
    let f : Value := ⟨.function ⟨"f", [], .inline body⟩, some span, some caller⟩
    let w : World := ⟨#[], ⟨#[⟨none, [("y", some (.number (.int 1)))]⟩]⟩, .none, [], ""⟩
    let inner : Context := .call "f" (some span.start) 1 caller
    let u : World := { w with scopes := w.scopes.push (some 0) }
    f.datum.isCallable = true ∧
      Underway .standard (fun sub => apply .standard sub f []) 2 w [] 2 body inner u ∧
      ((apply .standard (eval .standard 2) f []).run w).2.scopes.all[0]? = w.scopes.all[0]? ∧
      ((eval .standard 2 body inner).run u).2.scopes.all[0]? = w.scopes.all[0]? := by
  intro span body caller f w inner u
  have hunder : Underway .standard (fun sub => apply .standard sub f []) 2 w [] 2 body inner u := by
    have hrun : ∀ sub : Evaluator, (apply .standard sub f []).run w =
        (sub body inner >>= fun result => do Effect.leaveScope; return result).run u := fun _ => rfl
    have hdiverted : (diverted (eval .standard 2) body inner u (.error (.fault .exhausted), u) body inner).run u =
        (.error (.fault .exhausted), u) := if_pos ⟨rfl, rfl, rfl⟩
    refine .asked ⟨(.error (.fault .exhausted), u), fun h => ?_⟩
    rw [hrun, Effect.run_bind, hdiverted] at h
    cases h
  have hkeeps := call_keeps_bindings .standard 2 (v := f) rfl [] w
  exact ⟨rfl, hunder, hkeeps.1 0 (by decide), ((hkeeps.2 _ _ _ _ _ hunder).2 0 (by decide)).2⟩

end Eval

end Scriptlet
