import Scriptlet.Proofs.History.Sessions
import Scriptlet.Proofs.Running.Layout
import Scriptlet.Shell
/-!
# Settled worlds with their positions moved

Moving the positions of a world moves those in the bodies of its functions.  The world stays settled (`World.Settled.relocate`),
and what is shown of its values stays the same (`Shell.shown_relocate`).  A text is run alike in two sessions whose worlds meet
only after their positions have been moved, up to positions (`Session.run_agree_relocate`).
-/
namespace Scriptlet

variable {φ : Position → Position}

/-! ## Trees -/

mutual

theorem Node.signs_relocate : ∀ n : Node, (n.relocate φ).every Node.hasKnownSign = n.every Node.hasKnownSign
  | .number _ _ | .string _ _ | .access _ | .lone _ => rfl
  | .list items _ => by
    show (true && Node.allEvery Node.hasKnownSign (Node.relocateAll φ items)) = _
    rw [Node.allSigns_relocate items]
    rfl
  | .assign _ value => by
    show (true && (value.relocate φ).every Node.hasKnownSign) = _
    rw [Node.signs_relocate value]
    rfl
  | .binary left _ right => by
    show (true && (left.relocate φ).every Node.hasKnownSign && (right.relocate φ).every Node.hasKnownSign) = _
    rw [Node.signs_relocate left, Node.signs_relocate right]
    rfl
  | .unary op operand => by
    show ((op.lexeme.isSymbol .minus || op.lexeme.isKeyword .not) && (operand.relocate φ).every Node.hasKnownSign) = _
    rw [Node.signs_relocate operand]
    rfl
  | .choice first more otherwise => by
    show (true && (first.relocate φ).every Node.hasKnownSign && Case.allEvery Node.hasKnownSign (Case.relocateAll φ more) &&
      Body.optionEvery Node.hasKnownSign (Body.relocateOption φ otherwise)) = _
    rw [Case.signs_relocate first, Case.allSigns_relocate more, Body.optionSigns_relocate otherwise]
    rfl
  | .count _ first last step body => by
    show (true && (first.relocate φ).every Node.hasKnownSign && (last.relocate φ).every Node.hasKnownSign &&
      Node.optionEvery Node.hasKnownSign (Node.relocateOption φ step) && (body.relocate φ).every Node.hasKnownSign) = _
    rw [Node.signs_relocate first, Node.signs_relocate last, Node.optionSigns_relocate step, Body.signs_relocate body]
    rfl
  | .loop test body => by
    show (true && (test.relocate φ).every Node.hasKnownSign && (body.relocate φ).every Node.hasKnownSign) = _
    rw [Node.signs_relocate test, Body.signs_relocate body]
    rfl
  | .function _ _ body => by
    show (true && (body.relocate φ).every Node.hasKnownSign) = _
    rw [Body.signs_relocate body]
    rfl
  | .call callee arguments => by
    show (true && (callee.relocate φ).every Node.hasKnownSign && Node.allEvery Node.hasKnownSign (Node.relocateAll φ arguments)) = _
    rw [Node.signs_relocate callee, Node.allSigns_relocate arguments]
    rfl

theorem Body.signs_relocate : ∀ b : Body, (b.relocate φ).every Node.hasKnownSign = b.every Node.hasKnownSign
  | .inline node => Node.signs_relocate node
  | .block node => Node.signs_relocate node

theorem Case.signs_relocate : ∀ c : Case, (c.relocate φ).every Node.hasKnownSign = c.every Node.hasKnownSign
  | .mk test body => by
    show ((test.relocate φ).every Node.hasKnownSign && (body.relocate φ).every Node.hasKnownSign) = _
    rw [Node.signs_relocate test, Body.signs_relocate body]
    rfl

theorem Node.allSigns_relocate : ∀ ns : List Node,
    Node.allEvery Node.hasKnownSign (Node.relocateAll φ ns) = Node.allEvery Node.hasKnownSign ns
  | [] => rfl
  | n :: rest => by
    show ((n.relocate φ).every Node.hasKnownSign && Node.allEvery Node.hasKnownSign (Node.relocateAll φ rest)) = _
    rw [Node.signs_relocate n, Node.allSigns_relocate rest]
    rfl

theorem Case.allSigns_relocate : ∀ cs : List Case,
    Case.allEvery Node.hasKnownSign (Case.relocateAll φ cs) = Case.allEvery Node.hasKnownSign cs
  | [] => rfl
  | c :: rest => by
    show ((c.relocate φ).every Node.hasKnownSign && Case.allEvery Node.hasKnownSign (Case.relocateAll φ rest)) = _
    rw [Case.signs_relocate c, Case.allSigns_relocate rest]
    rfl

theorem Node.optionSigns_relocate : ∀ n : Option Node,
    Node.optionEvery Node.hasKnownSign (Node.relocateOption φ n) = Node.optionEvery Node.hasKnownSign n
  | none => rfl
  | some n => Node.signs_relocate n

theorem Body.optionSigns_relocate : ∀ b : Option Body,
    Body.optionEvery Node.hasKnownSign (Body.relocateOption φ b) = Body.optionEvery Node.hasKnownSign b
  | none => rfl
  | some b => Body.signs_relocate b

end

/-! ## Data and scopes -/

theorem Datum.zeroed_relocate (d : Datum) : (d.relocate φ).zeroed = d.zeroed.relocate φ := by
  cases d <;> rfl

theorem Datum.fits_relocate (d : Datum) : (d.relocate φ).fits false = d.fits false := by
  cases d with
  | function f => exact Body.signs_relocate f.body
  | _ => rfl

theorem Datum.Same.relocate {S : Links} {d d' : Datum} (h : d.Same S d') : (d.relocate φ).Same S (d'.relocate φ) := by
  unfold Datum.Same at h ⊢
  rw [Datum.zeroed_relocate, Datum.zeroed_relocate]
  generalize d.zeroed = e, d'.zeroed = e' at h
  cases e with
  | list n =>
    obtain ⟨n', rfl, hn⟩ := h
    exact ⟨n', rfl, hn⟩
  | function f =>
    rw [Datum.linked_function] at h
    subst h
    exact Datum.linked_function.2 rfl
  | _ =>
    cases h
    rfl

theorem Context.isPlaced_relocate (c : Context) : (c.relocate φ).isPlaced = c.isPlaced := by
  induction c with
  | root name scope => rfl
  | call name entry scope caller ih => rw [relocate, isPlaced, isPlaced, ih, Option.isSome_map]

theorem Scopes.parents_map {α β : Type} (f : α → β) (s : Scopes α) : (s.map f).parents = s.parents := by
  unfold parents map
  rw [Array.toList_map, List.map_map]
  rfl

theorem Scopes.get?_map {α β : Type} (f : α → β) (s : Scopes α) (scope : Nat) (name : String) :
    (s.map f).get? scope name = (s.get? scope name).map f := by
  have hlinked : Scopes.Linked (fun a b => b = f a) s (s.map f) := (Scopes.linked_eq_iff fun _ _ => Iff.rfl).2 rfl
  exact (optionRel_eq_iff fun _ _ => Iff.rfl).1 (hlinked.get? scope name)

theorem Option.Rel.map {α β : Type} {R : α → α → Prop} {T : β → β → Prop} {f : α → β} {a b : Option α} (h : Option.Rel R a b)
    (hf : ∀ x y, R x y → T (f x) (f y)) : Option.Rel T (a.map f) (b.map f) := by
  cases h with
  | none => exact .none
  | some hab => exact .some (hf _ _ hab)

theorem Rows.map {α β : Type} {R : α → α → Prop} {T : β → β → Prop} {f : α → β} {xs ys : Array α} (h : Rows R xs ys)
    (hf : ∀ x y, R x y → T (f x) (f y)) : Rows T (xs.map f) (ys.map f) := by
  unfold Rows
  rw [Array.toList_map, Array.toList_map, List.forall₂_map_left_iff, List.forall₂_map_right_iff]
  exact List.Forall₂.imp hf h

/-! ## Worlds -/

/-- **Moving positions keeps a world settled.** -/
theorem World.Settled.relocate {w : World} (h : w.Settled false) : (w.relocate φ).Settled false := by
  have hsize : (w.relocate φ).lists.size = w.lists.size := Array.size_map
  have hscopes : (w.relocate φ).scopes.size = w.scopes.size := Array.size_map
  have hkept : ∀ d d', (Past.self false w).Kept 0 d d' →
      (Past.self false (w.relocate φ)).Kept 0 (d.relocate φ) (d'.relocate φ) := by
    intro d d' hd
    refine ⟨Datum.Linked.mono ?_ (Datum.Same.relocate hd.same), (d.fits_relocate).trans hd.fits⟩
    rintro n n' (⟨rfl, hn⟩ | ⟨i, hi, -⟩)
    · exact .inl ⟨rfl, hsize ▸ hn⟩
    · cases hi
  have hstack : (w.relocate φ).Stack 0 (w.relocate φ).scopes := by
    have hleft : w.Stack 0 w.scopes := h.meets.names.left
    refine ⟨hscopes ▸ hleft.base, rfl, ?_, fun i hi => absurd hi (Nat.not_lt_zero i)⟩
    exact (Scopes.parents_map (Datum.relocate φ) w.scopes).symm ▸ hleft.shape
  have hspan : (w.relocate φ).nullSite.span = none := by
    show w.nullSite.span.map _ = none
    rw [h.meets.nullSpan.1]
    rfl
  refine ⟨.outset hstack hstack ?_ (fun name => ?_) ⟨hspan, hspan⟩ rfl, fun c hc => ?_⟩
  · rintro n _ ⟨rfl, hn⟩
    have hlists := h.meets.lists (.inl ⟨rfl, hsize ▸ hn⟩)
    simp only [Past.self, World.relocate, Array.getElem?_map]
    exact Option.Rel.map hlists fun _ _ hrows => hrows.map hkept
  · have htable := h.meets.names.table name
    simp only [Past.self, World.relocate, Scopes.get?_map]
    exact Option.Rel.map htable hkept
  · obtain ⟨c₀, hc₀, rfl⟩ := Option.map_eq_some_iff.1 hc
    rw [Context.isPlaced_relocate]
    exact h.placed c₀ hc₀

theorem World.text_relocate (w : World) (depth : Nat) (d : Datum) :
    (w.relocate φ).text depth (d.relocate φ) = w.text depth d :=
  World.Linked.text_eq (World.linked_eq_iff.2 rfl) depth (Datum.linked_eq_iff.2 rfl)

theorem World.display_relocate (w : World) (depth : Nat) (d : Datum) :
    (w.relocate φ).display depth (d.relocate φ) = w.display depth d := by
  unfold World.display
  rw [w.text_relocate]
  cases d <;> rfl

theorem Shell.shown_relocate (s : Session) (d : Datum) : shown (s.relocate φ) (d.relocate φ) = shown s d := by
  have hdisplay : ∀ d, (s.relocate φ).display (d.relocate φ) = s.display d := fun d => s.world.display_relocate _ d
  cases d with
  | list n =>
    have hitems : ((s.relocate φ).world.lists[n]?.getD #[]).toList =
        (s.world.lists[n]?.getD #[]).toList.map (Datum.relocate φ) := by
      simp only [Session.relocate, World.relocate, Array.getElem?_map]
      cases s.world.lists[n]? with
      | none => rfl
      | some items => exact Array.toList_map
    have hwhole := hdisplay (.list n)
    show shown (s.relocate φ) (.list n) = shown s (.list n)
    unfold shown
    simp only [hitems]
    generalize (s.world.lists[n]?.getD #[]).toList = xs
    cases xs with
    | nil => exact hwhole
    | cons x rest =>
      cases rest with
      | nil => exact hdisplay x
      | cons y rest => exact hwhole
  | _ => exact hdisplay _

/-! ## Runs -/

/-- The ending without its positions. -/
def Ending.bare (ending : Ending) : Ending := ending.relocate fun _ => .forgotten

/-- **A text is run alike, up to positions, in two sessions whose worlds meet up to positions.** -/
theorem Session.run_agree_relocate {Γ : Past} (hsigns : Γ.tidy = false) {s s' : Session}
    (h : Γ.Meets 0 0 (s.relocate φ).world (s'.relocate φ).world) (hlimits : s'.limits = s.limits) (name : String)
    (source : Source) :
    ∃ j k, Γ.Meets j k ((s.run name source).2.relocate φ).world ((s'.run name source).2.relocate φ).world ∧
      Γ.SameEnding (Γ.Cell j) ((s.run name source).1.relocate φ) ((s'.run name source).1.relocate φ) := by
  unfold run
  rw [hlimits]
  cases hparse : Parse.program s.limits source with
  | ok tree =>
    -- The tree has positions of its own, which are moved with those of the worlds.
    have htree : (tree.relocate φ).every (Node.isFair Γ.tidy) = true := by
      rw [hsigns]
      exact (Node.signs_relocate tree).trans (Parse.program_hasKnownSigns hparse)
    have hends := evaluate_agree h hlimits name htree
    rw [evaluate_relocate, evaluate_relocate] at hends
    exact hends
  | error failure =>
    cases failure with
    | problem p => exact ⟨0, 0, h, .problem _⟩
    | fault f => exact ⟨0, 0, h, .fault f⟩

end Scriptlet
