import Scriptlet.Proofs.Running.Linked
/-!
# Effects that track one another

`Tracks φ kept S R e e'` says that `e` and `e'`, set on worlds that correspond by `S`, leave worlds that correspond and give
results related by `R`, or stop for the same reason.  The links may have grown on the way, so `R` is given the links at the
end, and in a sequence (`Tracks.bind`) the rest is to track from all larger links.

There is one rule here for each of the effects that evaluation is made of.
-/
namespace Scriptlet

section Rules

variable {α β γ δ : Type} {φ : Position → Position} {kept : Nat → Option (Array Datum)} {S : Links}

/-- Results that correspond; what stops a run has its positions moved. -/
def ResultLinked (φ : Position → Position) (R : α → β → Prop) : Except Stop α → Except Stop β → Prop
  | .ok a, .ok b => R a b
  | .error s, .error s' => s' = s.relocate φ
  | _, _ => False

def Tracks (φ : Position → Position) (kept : Nat → Option (Array Datum)) (S : Links) (R : Links → α → β → Prop)
    (e : Effect α) (e' : Effect β) : Prop :=
  ∀ w w', World.Linked φ kept S w w' → ∃ S', S.Grows S' ∧ World.Linked φ kept S' (e.run w).2 (e'.run w').2 ∧
    ResultLinked φ (R S') (e.run w).1 (e'.run w').1

theorem Effect.run_bind (e : Effect α) (f : α → Effect β) (w : World) : (e >>= f).run w =
    match e.run w with
    | (.ok a, w₁) => (f a).run w₁
    | (.error s, w₁) => (.error s, w₁) := by
  have hbind : (e >>= f).run w = ExceptT.bindCont f (e.run w).1 (e.run w).2 := rfl
  rw [hbind]
  cases e.run w with
  | mk x w₁ => cases x <;> rfl

/-- A list is made of the values of its elements. -/
theorem eval_list (limits : Limits) (d : Nat) (ns : List Node) (span : Span) (c : Context) (w : World) :
    (eval limits (d + 1) (.list ns span) c).run w = match (Eval.evalAll (eval limits d) c ns).run w with
      | (.ok vs, u) =>
        (.ok (.placed (.list u.lists.size) span c), { u with lists := u.lists.push (vs.map Value.datum).toArray })
      | (.error stop, u) => (.error stop, u) := by
  have hlist : (eval limits (d + 1) (.list ns span) c).run w = (Eval.evalAll (eval limits d) c ns >>= fun vs => do
      return .placed (← Effect.newList (vs.map Value.datum).toArray) span c).run w := rfl
  rw [hlist, Effect.run_bind]
  obtain ⟨x, u⟩ := (Eval.evalAll (eval limits d) c ns).run w
  cases x <;> rfl

namespace Tracks

theorem pure {R : Links → α → β → Prop} {a : α} {b : β} (h : R S a b) :
    Tracks φ kept S R (Pure.pure a) (Pure.pure b) :=
  fun _ _ hw => ⟨S, .refl S, hw, h⟩

theorem bind {R : Links → α → β → Prop} {Q : Links → γ → δ → Prop} {e : Effect α} {e' : Effect β} {f : α → Effect γ}
    {f' : β → Effect δ} (he : Tracks φ kept S R e e')
    (hf : ∀ S', S.Grows S' → ∀ a b, R S' a b → Tracks φ kept S' Q (f a) (f' b)) :
    Tracks φ kept S Q (e >>= f) (e' >>= f') := by
  intro w w' hw
  obtain ⟨T, hT, hw₁, hr⟩ := he w w' hw
  rw [Effect.run_bind, Effect.run_bind]
  generalize e.run w = x, e'.run w' = y at hw₁ hr
  obtain ⟨x, w₁⟩ := x
  obtain ⟨y, w₁'⟩ := y
  cases x with
  | error s =>
    cases y with
    | error s' => exact ⟨T, hT, hw₁, hr⟩
    | ok b => cases hr
  | ok a =>
    cases y with
    | error s' => cases hr
    | ok b =>
      obtain ⟨U, hU, hw₂, hr⟩ := hf T hT a b hr w₁ w₁' hw₁
      exact ⟨U, hT.trans hU, hw₂, hr⟩

theorem fault {R : Links → α → β → Prop} (f : Fault) : Tracks φ kept S R (Effect.fault f) (Effect.fault f) :=
  fun _ _ hw => ⟨S, .refl S, hw, rfl⟩

theorem fail {R : Links → α → β → Prop} {e e' : RuntimeError} (h : e' = e.relocate φ) :
    Tracks φ kept S R (Effect.fail e) (Effect.fail e') := by
  subst h
  exact fun _ _ hw => ⟨S, .refl S, hw, rfl⟩

theorem lift {R : Links → α → β → Prop} {x : Except Fault α} {y : Except Fault β}
    (h : ∀ a b, x = .ok a → y = .ok b → R S a b) (herror : ∀ f, x = .error f ↔ y = .error f) :
    Tracks φ kept S R (Effect.lift x) (Effect.lift y) := by
  cases x with
  | error f =>
    rw [(herror f).1 rfl]
    exact .fault f
  | ok a =>
    cases y with
    | error f => cases (herror f).2 rfl
    | ok b => exact .pure (h a b rfl rfl)

/-- The same computation in both. -/
theorem lift_eq {x y : Except Fault α} (h : y = x) :
    Tracks φ kept S (fun _ a b => b = a) (Effect.lift x) (Effect.lift y) := by
  subst h
  refine .lift ?_ fun f => Iff.rfl
  rintro a b rfl hb
  cases hb
  rfl

theorem get_bind {Q : Links → γ → δ → Prop} {f : World → Effect γ} {f' : World → Effect δ}
    (h : ∀ w w', World.Linked φ kept S w w' → Tracks φ kept S Q (f w) (f' w')) :
    Tracks φ kept S Q (get >>= f) (get >>= f') := by
  intro w w' hw
  exact h w w' hw w w' hw

theorem modify {f f' : World → World} (h : ∀ w w', World.Linked φ kept S w w' → World.Linked φ kept S (f w) (f' w')) :
    Tracks φ kept S (fun _ _ _ => True) (modify f : Effect Unit) (modify f' : Effect Unit) :=
  fun w w' hw => ⟨S, .refl S, h w w' hw, trivial⟩

/-! ## Sites -/

theorem siteOf {v v' : Value} (hv : Value.Linked φ S v v') :
    Tracks φ kept S (fun _ s s' => s' = s.relocate φ) (Effect.siteOf v) (Effect.siteOf v') := by
  obtain ⟨d, site⟩ := v
  obtain ⟨d', site'⟩ := v'
  obtain ⟨hd, hs⟩ := hv
  unfold Effect.siteOf
  cases d with
  | null =>
    cases hd
    exact .get_bind fun w w' hw => .pure hw.nullSite
  | list n =>
    obtain ⟨n', rfl, -⟩ := hd
    exact .pure hs
  | _ =>
    cases hd
    exact .pure hs

theorem resite {v v' : Value} (hv : Value.Linked φ S v v') {f f' : Site → Site}
    (hf : ∀ s, f' (s.relocate φ) = (f s).relocate φ) :
    Tracks φ kept S (Value.Linked φ) (Effect.resite v f) (Effect.resite v' f') := by
  obtain ⟨d, site⟩ := v
  obtain ⟨d', site'⟩ := v'
  obtain ⟨hd, hs⟩ := hv
  have hfs : f' site' = (f site).relocate φ := by
    rw [← hf]
    exact congrArg f' hs
  unfold Effect.resite
  cases d with
  | null =>
    cases hd
    refine .bind (.modify fun w w' hw => hw.withNullSite ?_) fun T hT _ _ _ => .pure ⟨rfl, hs⟩
    rw [hw.nullSite]
    exact hf w.nullSite
  | list n =>
    obtain ⟨n', rfl, hn⟩ := hd
    exact .pure ⟨⟨n', rfl, hn⟩, hfs⟩
  | _ =>
    cases hd
    exact .pure ⟨rfl, hfs⟩

/-! ## Lists -/

theorem elements {n n' : Nat} (hn : S n n') :
    Tracks φ kept S (fun S => Rows (Datum.Linked φ S)) (Effect.elements n) (Effect.elements n') :=
  .get_bind fun _ _ hw => .pure (hw.elements hn)

theorem newList {items items' : Array Datum} (h : Rows (Datum.Linked φ S) items items') :
    Tracks φ kept S (Datum.Linked φ) (Effect.newList items) (Effect.newList items') := by
  intro w w' hw
  exact ⟨_, S.grows_add _ _, hw.newList h, w'.lists.size, rfl, S.add_self _ _⟩

theorem append {n n' : Nat} (hn : S n n') {d d' : Datum} (hd : Datum.Linked φ S d d') :
    Tracks φ kept S (fun _ _ _ => True) (Effect.append n d) (Effect.append n' d') :=
  .modify fun _ _ hw => hw.append hn hd

/-! ## Names -/

theorem lookup {c c' : Context} (hc : c' = c.relocate φ) (name : String) :
    Tracks φ kept S (fun S => Option.Rel (Datum.Linked φ S)) (Effect.lookup c name) (Effect.lookup c' name) := by
  subst hc
  refine .get_bind fun w w' hw => .pure ?_
  rw [Context.scope_relocate]
  exact hw.scopes.get? c.scope name

theorem assign {c c' : Context} (hc : c' = c.relocate φ) (name : String) {d d' : Datum} (hd : Datum.Linked φ S d d') :
    Tracks φ kept S (fun _ _ _ => True) (Effect.assign c name d) (Effect.assign c' name d') := by
  subst hc
  refine .modify fun w w' hw => ?_
  rw [Context.scope_relocate]
  exact hw.withScopes (hw.scopes.set c.scope name (.some hd))

theorem newScope (parent : Nat) :
    Tracks φ kept S (fun _ n n' => n' = n) (Effect.newScope parent) (Effect.newScope parent) := by
  refine .get_bind fun w w' hw => ?_
  rw [hw.scopes.size_eq]
  exact .bind (.modify fun w w' hw => hw.withScopes (hw.scopes.push _)) fun _ _ _ _ _ => .pure rfl

theorem leaveScope : Tracks φ kept S (fun _ _ _ => True) Effect.leaveScope Effect.leaveScope :=
  .modify fun _ _ hw => hw.withScopes hw.scopes.pop

/-! ## Input and output -/

theorem write (s : String) : Tracks φ kept S (fun _ _ _ => True) (Effect.write s) (Effect.write s) :=
  .modify fun _ _ hw => hw.write s

theorem readLine : Tracks φ kept S (fun _ s s' => s' = s) Effect.readLine Effect.readLine := by
  refine .get_bind fun w w' hw => ?_
  rw [hw.input]
  cases w.input with
  | nil => exact .fault _
  | cons x xs => exact .bind (.modify fun w w' hw => hw.withInput _) fun _ _ _ _ _ => .pure rfl

/-- What is printed of data that correspond. -/
theorem text (depth : Nat) {d d' : Datum} (hd : Datum.Linked φ S d d') {Q : Links → γ → δ → Prop}
    {f : String → Effect γ} {f' : String → Effect δ} (hf : ∀ s, Tracks φ kept S Q (f s) (f' s)) :
    Tracks φ kept S Q (do f (← Effect.lift ((← get).text depth d))) (do f' (← Effect.lift ((← get).text depth d'))) := by
  refine .get_bind fun w w' hw => ?_
  rw [hw.text_eq depth hd]
  cases w.text depth d with
  | error e => exact .fault e
  | ok s => exact hf s

end Tracks

end Rules

/-- What a counting loop does once its bounds and its step have been evaluated. -/
def Eval.countBetween (limits : Limits) (sub : Node → Context → Effect Value) (node : Node) (name : String) (body : Body)
    (c : Context) (first last by_ : Datum) : Effect Value := do
  let start ← Effect.lift first.payload
  let by_ ← Effect.lift by_.payload
  let upward ← Effect.lift (by_.ge (.int 0))
  let bound ← Effect.lift last.payload
  let goesOn := fun (i : Scalar) => if upward then i.lt bound else i.gt bound
  let items ← countRounds sub c name goesOn by_ body limits.rounds start #[]
  loopValue node c body items

end Scriptlet
