import Scriptlet.Proofs.Conduct.Sessions
import Scriptlet.Shell
/-!
# What operators do to the contents of values

The content of a datum is what can be seen of it from a given depth: the datum itself or, for a list, the contents of its
elements.  A list can contain itself, so there is no content to all depths; two worlds have a datum in common if its content
is the same at every depth.

Operators change nothing but lists, and only a sum with a list on the left changes one that is there already
(`Value.binary_world`).  It changes the content of exactly those values from which that list can be reached
(`World.content_extended_iff`), the left operand first of all.
-/
namespace Scriptlet

/-- What is seen of a datum. -/
inductive Content where
  | beyond
  | plain (d : Datum)
  | list (items : List Content)

namespace World

variable {w : World}

/-- The elements of a list. -/
def members (w : World) (cell : Nat) : List Datum := (w.lists[cell]?.getD #[]).toList

/-- What is seen of a datum from a depth. -/
def content (w : World) : (depth : Nat) → Datum → Content
  | 0, _ => .beyond
  | depth + 1, .list cell => .list ((w.members cell).map (w.content depth))
  | _ + 1, d => .plain d

/-- The datum is a list, or has it among its elements, or among theirs, and so on. -/
inductive Reaches (w : World) (cell : Nat) : Datum → Prop
  | here : Reaches w cell (.list cell)
  | inside {c : Nat} {d : Datum} : d ∈ w.members c → Reaches w cell d → Reaches w cell (.list c)

theorem content_list (depth cell : Nat) :
    w.content (depth + 1) (.list cell) = .list ((w.members cell).map (w.content depth)) := rfl

/-- The world with an element added to a list. -/
def extended (w : World) (cell : Nat) (item : Datum) : World :=
  { w with lists := w.lists.modify cell (·.push item) }

/-- The world with one list more. -/
def widened (w : World) (items : Array Datum) : World := { w with lists := w.lists.push items }

theorem members_extended_self {cell : Nat} (hcell : cell < w.lists.size) (item : Datum) :
    (w.extended cell item).members cell = w.members cell ++ [item] := by
  simp [members, extended, Array.getElem?_modify, Array.getElem?_eq_getElem hcell]

theorem members_extended_ne {cell other : Nat} (h : other ≠ cell) (item : Datum) :
    (w.extended cell item).members other = w.members other := by
  simp [members, extended, Array.getElem?_modify, Ne.symm h]

theorem members_widened {cell : Nat} (hcell : cell < w.lists.size) (items : Array Datum) :
    (w.widened items).members cell = w.members cell := by
  simp [members, widened, Array.getElem?_push_lt hcell, Array.getElem?_eq_getElem hcell]

theorem Sound.members (hw : w.Sound) {cell : Nat} {d : Datum} (hd : d ∈ w.members cell) : d.Sound w.lists.size := by
  unfold World.members at hd
  cases hrow : w.lists[cell]? with
  | none =>
    rw [hrow] at hd
    cases hd
  | some items =>
    rw [hrow] at hd
    exact hw.lists cell items hrow d hd

/-- A new list is not seen from what was there before. -/
theorem content_widened (hw : w.Sound) (items : Array Datum) (depth : Nat) {d : Datum} (hd : d.Sound w.lists.size) :
    (w.widened items).content depth d = w.content depth d := by
  induction depth generalizing d with
  | zero => rfl
  | succ depth ih =>
    cases d with
    | list cell =>
      rw [content_list, content_list, members_widened hd]
      exact congrArg Content.list (List.map_congr_left fun e he => ih (hw.members he))
    | _ => rfl

theorem content_extended_of_not_reaches {cell : Nat} (item : Datum) (depth : Nat) {d : Datum} (h : ¬ w.Reaches cell d) :
    (w.extended cell item).content depth d = w.content depth d := by
  induction depth generalizing d with
  | zero => rfl
  | succ depth ih =>
    cases d with
    | list c =>
      have hne : c ≠ cell := by
        rintro rfl
        exact h .here
      rw [content_list, content_list, members_extended_ne hne]
      exact congrArg Content.list (List.map_congr_left fun e he => ih fun hreach => h (.inside he hreach))
    | _ => rfl

/-- The list itself has become longer, which is seen from depth one. -/
theorem content_extended_self {cell : Nat} (hcell : cell < w.lists.size) (item : Datum) :
    (w.extended cell item).content 1 (.list cell) ≠ w.content 1 (.list cell) := by
  intro h
  rw [content_list, content_list, members_extended_self hcell] at h
  have hlength := congrArg List.length (Content.list.inj h)
  rw [List.length_map, List.length_map, List.length_append] at hlength
  exact absurd hlength (Nat.succ_ne_self _)

theorem content_extended_of_reaches {cell : Nat} (hcell : cell < w.lists.size) (item : Datum) {d : Datum}
    (h : w.Reaches cell d) : ∃ depth, (w.extended cell item).content depth d ≠ w.content depth d := by
  -- The way to the list stays as it was until it first comes to the list.
  induction h with
  | here => exact ⟨1, content_extended_self hcell item⟩
  | @inside c d hd _ ih =>
    by_cases hc : c = cell
    · subst hc
      exact ⟨1, content_extended_self hcell item⟩
    · obtain ⟨depth, hdepth⟩ := ih
      refine ⟨depth + 1, fun h => hdepth ?_⟩
      rw [content_list, content_list, members_extended_ne hc] at h
      exact List.map_inj_left.1 (Content.list.inj h) d hd

/-- **An element added to a list is seen from exactly the values that reach the list.** -/
theorem content_extended_iff {cell : Nat} (hcell : cell < w.lists.size) (item d : Datum) :
    (∀ depth, (w.extended cell item).content depth d = w.content depth d) ↔ ¬ w.Reaches cell d := by
  constructor
  · intro h hreach
    obtain ⟨depth, hdepth⟩ := content_extended_of_reaches hcell item hreach
    exact hdepth (h depth)
  · intro h depth
    exact content_extended_of_not_reaches item depth h

end World

/-! ## Operators -/

/-- The effect leaves the world as it is. -/
def Effect.Keeps {α : Type} (e : Effect α) : Prop := ∀ w : World, (e.run w).2 = w

namespace Effect.Keeps

variable {α β : Type}

theorem bind {e : Effect α} {f : α → Effect β} (he : e.Keeps) (hf : ∀ a, (f a).Keeps) : (e >>= f).Keeps := by
  intro w
  have hw := he w
  rw [Effect.run_bind]
  generalize e.run w = p at hw
  obtain ⟨x, u⟩ := p
  cases x with
  | ok a => exact (hf a u).trans hw
  | error s => exact hw

theorem fail (e : RuntimeError) : (Effect.fail e : Effect α).Keeps := fun _ => rfl

theorem lift (x : Except Fault α) : (Effect.lift x).Keeps := by
  cases x <;> exact fun _ => rfl

theorem siteOf (v : Value) : (Effect.siteOf v).Keeps := by
  intro w
  obtain ⟨d, site⟩ := v
  cases d <;> rfl

end Effect.Keeps

namespace Value

open Effect (Keeps)

theorem derived_keeps (v : Value) (d : Datum) : (v.derived d).Keeps :=
  .bind (.siteOf v) fun _ _ => rfl

theorem illegal_keeps {α : Type} (v other : Value) : (illegal v other : Effect α).Keeps :=
  .bind (.siteOf v) fun _ => .bind (.siteOf other) fun _ => .fail _

theorem binaryNumber_keeps (op : BinaryOp) (x : Scalar) (l r : Value) : (binaryNumber op x l r).Keeps := by
  unfold binaryNumber
  split
  · split
    · exact .bind (.siteOf l) fun _ => .bind (.siteOf r) fun _ => .fail _
    · exact .bind (.lift _) fun _ => derived_keeps l _
  · exact illegal_keeps l r

theorem binaryString_keeps (op : BinaryOp) (s : String) (l r : Value) : (binaryString op s l r).Keeps := by
  unfold binaryString
  split
  · exact derived_keeps l _
  · exact derived_keeps l _
  · split
    · exact .bind (.lift _) fun _ => derived_keeps l _
    · exact illegal_keeps l r
  · exact illegal_keeps l r

/-- A list is extended by what is added to it, and is itself the sum. -/
theorem binary_add_list {l : Value} {cell : Nat} (hl : l.datum = .list cell) (r : Value) (w : World) :
    (l.binary .add r).run w = (.ok l, w.extended cell r.datum) := by
  unfold binary
  rw [hl]
  rfl

/-- Any other operator with a list on the left leaves the world alone or makes a new list. -/
theorem binaryList_world {op : BinaryOp} (hop : op ≠ .add) (cell : Nat) (l r : Value) (w : World) :
    ((binaryList op cell l r).run w).2 = w ∨ ∃ items, ((binaryList op cell l r).run w).2 = w.widened items := by
  unfold binaryList
  split
  · exact absurd rfl hop
  · split
    · next y _ =>
      have hrun : (do
          let items ← Effect.lift (repeatItems (← Effect.elements cell) y)
          l.derived (← Effect.newList items) : Effect Value).run w =
            (Effect.lift (repeatItems (w.lists[cell]?.getD #[]) y) >>= fun items => do
              l.derived (← Effect.newList items)).run w := rfl
      rw [hrun, Effect.run_bind]
      cases repeatItems (w.lists[cell]?.getD #[]) y with
      | error f => exact .inl rfl
      | ok items => exact .inr ⟨items, derived_keeps l _ (w.widened items)⟩
    · exact .inl (illegal_keeps l r w)
  · exact .inl (illegal_keeps l r w)

/-- **An operator changes no list that is there**, a sum with a list on the left apart. -/
theorem binary_world {op : BinaryOp} {l : Value} (h : ¬ (op = .add ∧ ∃ cell, l.datum = .list cell)) (r : Value) (w : World) :
    ((l.binary op r).run w).2 = w ∨ ∃ items, ((l.binary op r).run w).2 = w.widened items := by
  unfold binary
  split
  · exact .inl (binaryNumber_keeps op _ l r w)
  · exact .inl (binaryNumber_keeps op _ l r w)
  · exact .inl (binaryString_keeps op _ l r w)
  · next cell hcell => exact binaryList_world (fun hop => h ⟨hop, cell, hcell⟩) cell l r w
  · exact .inl (illegal_keeps l r w)

/-- An operator on sound operands leaves a sound world. -/
theorem binary_sound {w : World} (hw : w.Sound) (op : BinaryOp) {l r : Value} (hl : l.datum.Sound w.lists.size)
    (hr : r.datum.Sound w.lists.size) : ((l.binary op r).run w).2.Sound := by
  let Γ : Ground := ⟨True, [], [], Session.rootContext "", Nat.zero_le _⟩
  have hstanding : Standing Γ w.scopes.parents w.lists.size w :=
    ⟨rfl, List.nil_prefix, List.nil_prefix, rfl, fun _ => hw⟩
  have hensures : Ensures Γ w.scopes.parents w.scopes.parents w.lists.size (Γ.Own (Session.rootContext ""))
      (l.binary op r) (l.binary op r) := binary_ensures op (fun _ => hl) fun _ => hr
  have hleaves := (hensures w hstanding).2
  generalize (l.binary op r).run w = p at hleaves
  obtain ⟨x, u⟩ := p
  cases x with
  | ok v =>
    obtain ⟨k, -, hu, -⟩ := hleaves
    exact hu.sound trivial
  | error s =>
    have hu : Stopped Γ s u := hleaves
    exact (hu.sound trivial).1

end Value

/-- **What an operator does to all values there are.**  Names, null, input and output stay.  The content of a value stays
unless a list on the left of a sum can be reached from it; that list gets the right operand as a further element, no other
list changes, and the sum is the left operand itself. -/
theorem Value.binary_content {w : World} (hw : w.Sound) (op : BinaryOp) {l r : Value} (hl : l.datum.Sound w.lists.size)
    (hr : r.datum.Sound w.lists.size) : ∃ (outcome : Except Stop Value) (u : World),
    (l.binary op r).run w = (outcome, u) ∧ u.Sound ∧
    u.scopes = w.scopes ∧ u.nullSite = w.nullSite ∧ u.input = w.input ∧ u.output = w.output ∧
    (∀ d : Datum, d.Sound w.lists.size →
      ((∀ depth, u.content depth d = w.content depth d) ↔
        ¬ (op = .add ∧ ∃ cell, l.datum = .list cell ∧ w.Reaches cell d))) ∧
    (∀ cell, op = .add → l.datum = .list cell → outcome = .ok l ∧ u.members cell = w.members cell ++ [r.datum] ∧
      ∀ other, other ≠ cell → u.members other = w.members other) := by
  refine ⟨((l.binary op r).run w).1, ((l.binary op r).run w).2, rfl, Value.binary_sound hw op hl hr, ?_⟩
  by_cases hsum : op = .add ∧ ∃ cell, l.datum = .list cell
  · obtain ⟨rfl, cell, hcell⟩ := hsum
    have hlt : cell < w.lists.size := by
      rw [hcell] at hl
      exact hl
    rw [Value.binary_add_list hcell]
    refine ⟨rfl, rfl, rfl, rfl, fun d _ => ?_, fun other _ hother => ?_⟩
    · rw [World.content_extended_iff hlt, hcell]
      simp
    · cases hcell.symm.trans hother
      exact ⟨rfl, World.members_extended_self hlt _, fun _ hne => World.members_extended_ne hne _⟩
  · have hkept : ∀ d : Datum, ¬ (op = .add ∧ ∃ cell, l.datum = .list cell ∧ w.Reaches cell d) := by
      rintro d ⟨hop, cell, hcell, -⟩
      exact hsum ⟨hop, cell, hcell⟩
    have hlist : ∀ cell, op = .add → l.datum ≠ .list cell := fun cell hop hcell => hsum ⟨hop, cell, hcell⟩
    rcases Value.binary_world hsum r w with h | ⟨items, h⟩
    · rw [h]
      exact ⟨rfl, rfl, rfl, rfl, fun d _ => iff_of_true (fun _ => rfl) (hkept d),
        fun cell hop hcell => absurd hcell (hlist cell hop)⟩
    · rw [h]
      exact ⟨rfl, rfl, rfl, rfl, fun d hd => iff_of_true (fun depth => World.content_widened hw items depth hd) (hkept d),
        fun cell hop hcell => absurd hcell (hlist cell hop)⟩

/-- In a session in which `a` is a list, the value of `a` is added to. -/
theorem Value.binary_content_variable : ∃ (s : Session) (l r : Value) (cell : Nat) (outcome : Except Stop Value) (u : World),
    s = ((Shell.start "").run Shell.programName ⟨Shell.sourceName, "var a = [1]"⟩).2 ∧ s.Reachable ∧
    l.datum = .list cell ∧ r.datum = .number (.int 2) ∧
    s.world.Sound ∧ l.datum.Sound s.world.lists.size ∧ r.datum.Sound s.world.lists.size ∧
    (l.binary .add r).run s.world = (outcome, u) ∧ outcome = .ok l ∧
    u.members cell = s.world.members cell ++ [.number (.int 2)] ∧
    ¬ (∀ depth, u.content depth l.datum = s.world.content depth l.datum) ∧
    ∀ depth, u.content depth r.datum = s.world.content depth r.datum := by
  have hs : (((Shell.start "").run Shell.programName ⟨Shell.sourceName, "var a = [1]"⟩).2).Reachable :=
    .run _ _ (.start _ _)
  have hl : Datum.Sound (((Shell.start "").run Shell.programName ⟨Shell.sourceName, "var a = [1]"⟩).2).world.lists.size
      (.list 0) := by
    show 0 < _
    decide +kernel
  obtain ⟨outcome, u, hrun, -, -, -, -, -, hcontent, hsum⟩ :=
    Value.binary_content hs.inOrder.sound .add (l := ⟨.list 0, .none⟩) (r := ⟨.number (.int 2), .none⟩) hl trivial
  obtain ⟨houtcome, hmembers, -⟩ := hsum 0 rfl rfl
  refine ⟨_, ⟨.list 0, .none⟩, ⟨.number (.int 2), .none⟩, 0, outcome, u, rfl, hs, rfl, rfl, hs.inOrder.sound, hl, trivial,
    hrun, houtcome, hmembers, ?_, (hcontent (.number (.int 2)) trivial).2 ?_⟩
  · rw [hcontent (.list 0) hl]
    exact not_not_intro ⟨rfl, 0, rfl, .here⟩
  · rintro ⟨-, cell, -, hreach⟩
    cases hreach

/-- **A sum changes the variable on its left**: `a` is shown otherwise after `a + 2`. -/
theorem sum_changes_variable : ∃ s s' : Session,
    s = ((Shell.start "").run Shell.programName ⟨Shell.sourceName, "var a = [1]"⟩).2 ∧
    s' = (s.run Shell.programName ⟨Shell.sourceName, "a + 2"⟩).2 ∧
    s.bindings.map (fun b => (b.1, (s.display b.2).toOption)) = [("a", some "[1]")] ∧
    s'.bindings.map (fun b => (b.1, (s'.display b.2).toOption)) = [("a", some "[1, 2]")] :=
  ⟨_, _, rfl, rfl, by decide +kernel, by decide +kernel⟩

end Scriptlet
