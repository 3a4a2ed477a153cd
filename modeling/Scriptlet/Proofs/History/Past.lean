import Scriptlet.Proofs.History.Trees
import Scriptlet.Proofs.Scoping.Callers
/-!
# Two sessions in which the same text is run

Two sessions with different pasts may run the same text.  Their worlds have different numbers of lists and of scopes when the
run begins, null may belong to different contexts in them, and they have printed different things.  A `Past` is this: two
worlds in which a run begins, and the links between those of their cells that correspond.

While the run goes on both worlds make the same lists and the same scopes, so the cells and the scopes that are new can be
told by the order in which they were made: `Past.Cell` and `World.frame`.  `Past.Meets` says what the two worlds have in common
after so many lists and within so many calls.

With the same world on both sides this says something about one session.  For this reason it also keeps track of the trees of
functions and of the places of calls.
-/
namespace Scriptlet

/-! ## Contexts -/

namespace Context

/-- The calls of a context, innermost first, each with the place it was made from. -/
def trace : Context → List (String × Option Position)
  | root name _ => [(name, none)]
  | call name entry _ caller => (name, entry) :: caller.trace

/-- Every call was made from a place. -/
def isPlaced : Context → Bool
  | root _ _ => true
  | call _ entry _ caller => entry.isSome && caller.isPlaced

theorem trace_ne_nil (c : Context) : c.trace ≠ [] := by
  cases c <;> exact List.cons_ne_nil _ _

end Context

/-- What is shown of a context are its calls. -/
theorem RuntimeError.calls_eq_of_trace {c c' : Context} (h : c.trace = c'.trace) (place : Option Position) :
    calls place c = calls place c' := by
  induction c generalizing c' place with
  | root name scope =>
    cases c' with
    | root name' scope' =>
      cases h
      rfl
    | call name' entry' scope' caller' => exact absurd (List.cons.inj h).2.symm caller'.trace_ne_nil
  | call name entry scope caller ih =>
    cases c' with
    | root name' scope' => exact absurd (List.cons.inj h).2 caller.trace_ne_nil
    | call name' entry' scope' caller' =>
      obtain ⟨hhead, hcaller⟩ := List.cons.inj h
      cases hhead
      simp only [calls, ih hcaller]

/-! ## Data -/

/-- Null made an ordinary zero, as it is when a variable is read. -/
def Datum.zeroed : Datum → Datum
  | .null => .number (.int 0)
  | d => d

theorem Datum.copy_zeroed (d : Datum) : d.zeroed.copy = d.copy := by
  cases d <;> rfl

theorem World.text_zeroed (w : World) (depth : Nat) (d : Datum) : w.text depth d.zeroed = w.text depth d := by
  cases depth with
  | zero => rfl
  | succ depth =>
    cases d with
    | null =>
      show Scalar.toText (.int 0) = .ok "0"
      decide +kernel
    | _ => rfl

/-- The same to whoever reads it: null and zero are, and so are lists in cells that correspond. -/
def Datum.Same (S : Links) (d d' : Datum) : Prop := d.zeroed.Linked id S d'.zeroed

theorem Datum.Linked.same {S : Links} {d d' : Datum} (h : d.Linked id S d') : d.Same S d' := by
  cases d with
  | list n =>
    obtain ⟨n', rfl, hn⟩ := h
    exact ⟨n', rfl, hn⟩
  | _ =>
    cases h
    exact rfl

/-- The trees of a function are fair. -/
def Datum.fits (tidy : Bool) : Datum → Bool
  | .function f => f.body.every (Node.isFair tidy)
  | _ => true

theorem Datum.fits_zeroed (tidy : Bool) (d : Datum) : d.zeroed.fits tidy = d.fits tidy := by
  cases d <;> rfl

/-! ## Scopes -/

theorem Option.Rel.or {α β : Type} {R : α → β → Prop} {a b : Option α} {a' b' : Option β} (ha : Option.Rel R a a')
    (hb : Option.Rel R b b') : Option.Rel R (a.or b) (a'.or b') := by
  cases ha with
  | some ha => exact .some ha
  | none => exact hb

namespace Scopes

variable {α : Type} {s : Scopes α}

theorem lookup_setEntry (x : String) (v : Option α) (entries : List (String × Option α)) (name : String) :
    (Scope.setEntry x v entries).lookup name = if name = x then some v else entries.lookup name := by
  induction entries with
  | nil =>
    by_cases hname : name = x
    · simp [Scope.setEntry, hname]
    · simp [Scope.setEntry, List.lookup_cons, beq_false_of_ne hname, hname]
  | cons e rest ih =>
    obtain ⟨y, w⟩ := e
    unfold Scope.setEntry
    by_cases hy : y = x
    · subst hy
      by_cases hname : name = y
      · simp [hname]
      · simp [List.lookup_cons, beq_false_of_ne hname, hname]
    · by_cases hname : name = y
      · simp [hy, hname]
      · simp [List.lookup_cons, hy, beq_false_of_ne hname, ih]

/-- What a scope binds after a name has been bound in one. -/
theorem ownAt?_set {scope : Nat} (hscope : scope < s.size) (x : String) (v : Option α) (i : Nat) (name : String) :
    (s.set scope x v).ownAt? i name = if i = scope ∧ name = x then v else s.ownAt? i name := by
  unfold ownAt? set
  rw [Array.getElem?_modify]
  by_cases hi : scope = i
  · subst hi
    have hscope : scope < s.all.size := hscope
    rw [if_pos rfl, Array.getElem?_eq_getElem hscope, Option.map_some, Option.bind_some, Option.bind_some]
    unfold Scope.own? Scope.entry? Scope.set
    rw [lookup_setEntry]
    by_cases hname : name = x
    · rw [if_pos hname, if_pos ⟨rfl, hname⟩]
      rfl
    · rw [if_neg hname, if_neg fun h => hname h.2]
  · rw [if_neg hi, if_neg fun h => hi h.1.symm]

theorem ownAt?_push (p : Option Nat) (i : Nat) (name : String) :
    (s.push p).ownAt? i name = if i = s.size then none else s.ownAt? i name := by
  unfold ownAt? push size
  rw [Array.getElem?_push]
  by_cases hi : i = s.all.size
  · rw [if_pos hi, if_pos hi]
    rfl
  · rw [if_neg hi, if_neg hi]

theorem ownAt?_pop {i : Nat} (hi : i + 1 < s.size) (name : String) : s.pop.ownAt? i name = s.ownAt? i name := by
  have hlt : i < s.all.size - 1 := Nat.lt_sub_of_add_lt hi
  unfold ownAt? pop
  rw [Array.getElem?_pop, if_pos hlt]

theorem size_set (scope : Nat) (x : String) (v : Option α) : (s.set scope x v).size = s.size := Array.size_modify

theorem size_push (p : Option Nat) : (s.push p).size = s.size + 1 := Array.size_push _

theorem size_pop : s.pop.size = s.size - 1 := Array.size_pop

end Scopes

/-- The number of the innermost scope within so many calls, in a run that began in the world. -/
def World.frame (w : World) : (calls : Nat) → Nat
  | 0 => Session.globalScope
  | k + 1 => w.scopes.size + k

/-- The scopes within so many calls: each call's scope stands on the one before, down to the scopes of the program and the
prelude.  Scopes that earlier runs have left behind play no part. -/
structure World.Stack (w : World) (k : Nat) (s : Scopes Datum) : Prop where
  base : 2 ≤ w.scopes.size
  size : s.size = w.scopes.size + k
  shape : [none, some Session.preludeScope] <+: s.parents
  frame : ∀ i < k, s.parents[w.frame (i + 1)]? = some (some (w.frame i))

namespace World.Stack

variable {w : World} {k : Nat} {s : Scopes Datum} (h : w.Stack k s)

include h

theorem frame_lt : w.frame k < s.size := by
  have hbase := h.base
  have hsize := h.size
  cases k with
  | zero =>
    simp only [World.frame, Session.globalScope]
    omega
  | succ k =>
    simp only [World.frame]
    omega

theorem set (scope : Nat) (name : String) (v : Option Datum) : w.Stack k (s.set scope name v) where
  base := h.base
  size := by rw [Scopes.size_set, h.size]
  shape := by rw [Scopes.parents_set]; exact h.shape
  frame := by rw [Scopes.parents_set]; exact h.frame

theorem push : w.Stack (k + 1) (s.push (some (w.frame k))) where
  base := h.base
  size := by rw [Scopes.size_push, h.size, Nat.add_assoc]
  shape := by
    rw [Scopes.parents_push]
    exact h.shape.trans (List.prefix_append _ _)
  frame i hi := by
    have hlength : s.parents.length = w.scopes.size + k := by rw [Scopes.length_parents, h.size]
    rw [Scopes.parents_push]
    by_cases hik : i = k
    · subst hik
      rw [World.frame, List.getElem?_append_right (Nat.le_of_eq hlength), hlength, Nat.sub_self]
      rfl
    · have hlt : w.frame (i + 1) < s.parents.length := by
        rw [World.frame, hlength]
        omega
      rw [List.getElem?_append_left hlt]
      exact h.frame i (by omega)

omit h in
theorem pop (h : w.Stack (k + 1) s) : w.Stack k s.pop where
  base := h.base
  size := by rw [Scopes.size_pop, h.size, ← Nat.add_assoc, Nat.add_sub_cancel]
  shape := by
    have hlength : s.parents.length = w.scopes.size + (k + 1) := by rw [Scopes.length_parents, h.size]
    have hbase := h.base
    rw [Scopes.parents_pop]
    refine List.prefix_of_prefix_length_le h.shape (List.dropLast_prefix _) ?_
    rw [List.length_dropLast, hlength]
    simp only [List.length_cons, List.length_nil]
    omega
  frame i hi := by
    have hlength : s.parents.length = w.scopes.size + (k + 1) := by rw [Scopes.length_parents, h.size]
    have hlt : w.frame (i + 1) < s.parents.length - 1 := by
      rw [World.frame, hlength]
      omega
    rw [Scopes.parents_pop, List.getElem?_dropLast, if_pos hlt]
    exact h.frame i (by omega)

theorem parents_ground : s.parents[Session.globalScope]? = some (some Session.preludeScope) ∧
    s.parents[Session.preludeScope]? = some none := by
  have hparent : ∀ i, ∀ hi : i < 2, s.parents[i]? = some [none, some Session.preludeScope][i] :=
    fun i hi => List.prefix_iff_getElem?.1 h.shape i hi
  exact ⟨hparent 1 (by decide), hparent 0 (by decide)⟩

theorem find?_ground (name : String) (fuel : Nat) : s.find? name (fuel + 2) Session.globalScope =
    (s.ownAt? Session.globalScope name).or (s.ownAt? Session.preludeScope name) := by
  rw [Scopes.find?_succ h.parents_ground.1, Option.bind_some, Scopes.find?_succ h.parents_ground.2, Option.bind_none,
    Option.or_none]

/-- A name of the program, or else of the prelude. -/
theorem get?_ground (name : String) : s.get? Session.globalScope name =
    (s.ownAt? Session.globalScope name).or (s.ownAt? Session.preludeScope name) := h.find?_ground name 0

/-- Within a call a name is looked up in the call's scope and then as it was outside. -/
theorem get?_frame {i : Nat} (hi : i < k) (name : String) : s.get? (w.frame (i + 1)) name =
    (s.ownAt? (w.frame (i + 1)) name).or (s.get? (w.frame i) name) := by
  have hfuel : s.find? name (w.frame (i + 1)) (w.frame i) = s.get? (w.frame i) name := by
    cases i with
    | zero =>
      obtain ⟨m, hm⟩ : ∃ m, w.scopes.size = m + 2 := ⟨w.scopes.size - 2, by have := h.base; omega⟩
      simp only [World.frame, Nat.add_zero]
      rw [hm, h.find?_ground, h.get?_ground]
    | succ i =>
      unfold Scopes.get?
      rfl
  unfold Scopes.get?
  rw [Scopes.find?_succ (h.frame i hi), Option.bind_some, hfuel]
  rfl

end World.Stack

/-! ## The past of a run -/

/-- Two worlds in which the same text is run, and which of their cells correspond. -/
structure Past where
  /-- All trees are tidy. -/
  tidy : Bool
  left : World
  right : World
  links : Links
  within : ∀ {n n'}, links n n' → n < left.lists.size ∧ n' < right.lists.size
  unique : ∀ {m m' n n'}, links m m' → links n n' → (m = n ↔ m' = n')

namespace Past

variable (Γ : Past)

/-- The cells that correspond after so many lists have been made. -/
def Cell (j : Nat) : Links :=
  fun n n' => Γ.links n n' ∨ ∃ i < j, n = Γ.left.lists.size + i ∧ n' = Γ.right.lists.size + i

/-- Data that are the same to whoever reads them, and made of fair trees. -/
structure Kept (j : Nat) (d d' : Datum) : Prop where
  same : d.Same (Γ.Cell j) d'
  fits : d.fits Γ.tidy = true

/-- The same calls, all made from a place; or in both worlds what null belonged to when the run began. -/
def SameCalls (o o' : Option Context) : Prop :=
  (∃ c c', o = some c ∧ o' = some c' ∧ c.trace = c'.trace ∧ c.isPlaced = true) ∨
    o = Γ.left.nullSite.context ∧ o' = Γ.right.nullSite.context

/-- The scopes of both worlds within so many calls. -/
structure Names (j k : Nat) (s s' : Scopes Datum) : Prop where
  left : Γ.left.Stack k s
  right : Γ.right.Stack k s'
  table : ∀ name, Option.Rel (Γ.Kept j) (s.get? Session.globalScope name) (s'.get? Session.globalScope name)
  frames : ∀ i < k, ∀ name,
    Option.Rel (Γ.Kept j) (s.ownAt? (Γ.left.frame (i + 1)) name) (s'.ownAt? (Γ.right.frame (i + 1)) name)

/-- What the two worlds have in common after so many lists and within so many calls.  Null has no place in either. -/
structure Meets (j k : Nat) (w w' : World) : Prop where
  cells : w.lists.size = Γ.left.lists.size + j ∧ w'.lists.size = Γ.right.lists.size + j
  lists : ∀ {n n'}, Γ.Cell j n n' → Option.Rel (Rows (Γ.Kept j)) w.lists[n]? w'.lists[n']?
  names : Γ.Names j k w.scopes w'.scopes
  nullSpan : w.nullSite.span = none ∧ w'.nullSite.span = none
  nullContext : Γ.SameCalls w.nullSite.context w'.nullSite.context
  input : w'.input = w.input
  output : ∃ text, w.output = Γ.left.output ++ text ∧ w'.output = Γ.right.output ++ text

variable {Γ} {j j' k : Nat}

theorem Cell.lt {n n' : Nat} (h : Γ.Cell j n n') : n < Γ.left.lists.size + j ∧ n' < Γ.right.lists.size + j := by
  rcases h with h | ⟨i, hi, rfl, rfl⟩
  · have hlt := Γ.within h
    omega
  · omega

theorem Cell.mono (hj : j ≤ j') : (Γ.Cell j).Grows (Γ.Cell j') := by
  rintro n n' (h | ⟨i, hi, hn, hn'⟩)
  · exact .inl h
  · exact .inr ⟨i, by omega, hn, hn'⟩

theorem Cell.unique {m m' n n' : Nat} (hm : Γ.Cell j m m') (hn : Γ.Cell j n n') : m = n ↔ m' = n' := by
  rcases hm with hm | ⟨i, hi, rfl, rfl⟩
  · rcases hn with hn | ⟨i, hi, rfl, rfl⟩
    · exact Γ.unique hm hn
    · have hlt := Γ.within hm
      omega
  · rcases hn with hn | ⟨i', hi', rfl, rfl⟩
    · have hlt := Γ.within hn
      omega
    · omega

theorem cell_zero : Γ.Cell 0 = Γ.links := by
  funext n n'
  refine propext ⟨?_, .inl⟩
  rintro (h | ⟨i, hi, -⟩)
  · exact h
  · cases hi

/-- Where a run begins, no list has been made and no call is going on. -/
theorem Meets.outset (hleft : Γ.left.Stack 0 Γ.left.scopes) (hright : Γ.right.Stack 0 Γ.right.scopes)
    (hlists : ∀ {n n'}, Γ.links n n' → Option.Rel (Rows (Γ.Kept 0)) Γ.left.lists[n]? Γ.right.lists[n']?)
    (htable : ∀ name, Option.Rel (Γ.Kept 0) (Γ.left.scopes.get? Session.globalScope name)
      (Γ.right.scopes.get? Session.globalScope name))
    (hspan : Γ.left.nullSite.span = none ∧ Γ.right.nullSite.span = none) (hinput : Γ.right.input = Γ.left.input) :
    Γ.Meets 0 0 Γ.left Γ.right where
  cells := ⟨rfl, rfl⟩
  lists hn := hlists (cell_zero ▸ hn)
  names := ⟨hleft, hright, htable, fun i hi => absurd hi (Nat.not_lt_zero i)⟩
  nullSpan := hspan
  nullContext := .inr ⟨rfl, rfl⟩
  input := hinput
  output := ⟨"", String.append_empty.symm, String.append_empty.symm⟩

theorem Kept.mono {d d' : Datum} (h : Γ.Kept j d d') (hj : j ≤ j') : Γ.Kept j' d d' :=
  ⟨Datum.Linked.mono (Cell.mono hj) h.same, h.fits⟩

theorem Kept.of_linked {d d' : Datum} (h : d.Linked id (Γ.Cell j) d') (hfits : d.fits Γ.tidy = true) : Γ.Kept j d d' :=
  ⟨h.same, hfits⟩

theorem Kept.number (x : Scalar) : Γ.Kept j (.number x) (.number x) := ⟨rfl, rfl⟩

/-! ## Names -/

namespace Names

variable {s s' : Scopes Datum} (h : Γ.Names j k s s')

include h

theorem mono (hj : j ≤ j') : Γ.Names j' k s s' :=
  { h with
    table := fun name => Option.Rel.imp (h.table name) fun _ _ hd => hd.mono hj
    frames := fun i hi name => Option.Rel.imp (h.frames i hi name) fun _ _ hd => hd.mono hj }

/-- **Within as many calls the same names are found.** -/
theorem get? (name : String) {i : Nat} (hi : i ≤ k) :
    Option.Rel (Γ.Kept j) (s.get? (Γ.left.frame i) name) (s'.get? (Γ.right.frame i) name) := by
  induction i with
  | zero => exact h.table name
  | succ i ih =>
    rw [h.left.get?_frame hi, h.right.get?_frame hi]
    exact Option.Rel.or (h.frames i hi name) (ih (Nat.le_of_succ_le hi))

/-- Binding a name in the innermost scope. -/
theorem set (x : String) {d d' : Datum} (hd : Γ.Kept j d d') :
    Γ.Names j k (s.set (Γ.left.frame k) x (some d)) (s'.set (Γ.right.frame k) x (some d')) := by
  have hown := Scopes.ownAt?_set h.left.frame_lt x (some d)
  have hown' := Scopes.ownAt?_set h.right.frame_lt x (some d')
  have hset := h.left.set (Γ.left.frame k) x (some d)
  have hset' := h.right.set (Γ.right.frame k) x (some d')
  refine ⟨hset, hset', fun name => ?_, fun i hi name => ?_⟩
  · have htable := h.table name
    rw [h.left.get?_ground, h.right.get?_ground] at htable
    rw [hset.get?_ground, hset'.get?_ground, hown, hown, hown', hown']
    cases k with
    | zero =>
      simp only [World.frame, true_and]
      by_cases hname : name = x
      · rw [if_pos hname, if_pos hname]
        exact .some hd
      · rw [if_neg hname, if_neg hname]
        exact htable
    | succ k =>
      -- The scope of a call is above those of the program and the prelude.
      have hne : ∀ {w : World} {t : Scopes Datum} {i : Nat}, w.Stack (k + 1) t → i < 2 → ¬(i = w.frame (k + 1) ∧ name = x) := by
        rintro w t i ht hi ⟨hframe, -⟩
        have hbase := ht.base
        rw [World.frame] at hframe
        omega
      rw [if_neg (hne h.left (by decide)), if_neg (hne h.left (by decide)), if_neg (hne h.right (by decide)),
        if_neg (hne h.right (by decide))]
      exact htable
  · rw [hown, hown']
    have hframe : ∀ {w : World}, w.frame (i + 1) = w.frame k ↔ i + 1 = k := by
      intro w
      cases k with
      | zero => omega
      | succ k =>
        simp only [World.frame]
        omega
    simp only [hframe]
    by_cases hname : i + 1 = k ∧ name = x
    · rw [if_pos hname, if_pos hname]
      exact .some hd
    · rw [if_neg hname, if_neg hname]
      exact h.frames i hi name

/-- A scope for one more call. -/
theorem push : Γ.Names j (k + 1) (s.push (some (Γ.left.frame k))) (s'.push (some (Γ.right.frame k))) := by
  have hbase := h.left.base
  have hbase' := h.right.base
  have hground : ∀ {t : Scopes Datum} {i : Nat}, i < 2 → 2 ≤ t.size → i ≠ t.size := fun _ _ => by omega
  have hsize : 2 ≤ s.size := by rw [h.left.size]; omega
  have hsize' : 2 ≤ s'.size := by rw [h.right.size]; omega
  refine ⟨h.left.push, h.right.push, fun name => ?_, fun i hi name => ?_⟩
  · have htable := h.table name
    rw [h.left.get?_ground, h.right.get?_ground] at htable
    rw [h.left.push.get?_ground, h.right.push.get?_ground]
    simp only [Scopes.ownAt?_push]
    rw [if_neg (hground (by decide) hsize), if_neg (hground (by decide) hsize), if_neg (hground (by decide) hsize'),
      if_neg (hground (by decide) hsize')]
    exact htable
  · have hframe : Γ.left.frame (i + 1) = s.size ↔ i = k := by
      rw [h.left.size, World.frame]
      omega
    have hframe' : Γ.right.frame (i + 1) = s'.size ↔ i = k := by
      rw [h.right.size, World.frame]
      omega
    rw [Scopes.ownAt?_push, Scopes.ownAt?_push]
    by_cases hik : i = k
    · rw [if_pos (hframe.2 hik), if_pos (hframe'.2 hik)]
      exact .none
    · rw [if_neg fun h => hik (hframe.1 h), if_neg fun h => hik (hframe'.1 h)]
      exact h.frames i (by omega) name

omit h in
/-- The innermost scope is given up. -/
theorem pop (h : Γ.Names j (k + 1) s s') : Γ.Names j k s.pop s'.pop := by
  have hbase := h.left.base
  have hbase' := h.right.base
  have hsize := h.left.size
  have hsize' := h.right.size
  have hground : ∀ {t : Scopes Datum} {i : Nat} (name : String), i < 2 → 3 ≤ t.size → t.pop.ownAt? i name = t.ownAt? i name :=
    fun name hi ht => Scopes.ownAt?_pop (by omega) name
  refine ⟨h.left.pop, h.right.pop, fun name => ?_, fun i hi name => ?_⟩
  · have htable := h.table name
    rw [h.left.get?_ground, h.right.get?_ground] at htable
    rw [h.left.pop.get?_ground, h.right.pop.get?_ground, hground name (by decide) (by omega),
      hground name (by decide) (by omega), hground name (by decide) (by omega), hground name (by decide) (by omega)]
    exact htable
  · have hlt : Γ.left.frame (i + 1) + 1 < s.size := by
      rw [hsize, World.frame]
      omega
    have hlt' : Γ.right.frame (i + 1) + 1 < s'.size := by
      rw [hsize', World.frame]
      omega
    rw [Scopes.ownAt?_pop hlt, Scopes.ownAt?_pop hlt']
    exact h.frames i (by omega) name

end Names

/-! ## What is done to the worlds -/

namespace Meets

variable {w w' : World} (h : Γ.Meets j k w w')

include h

theorem elements {n n' : Nat} (hn : Γ.Cell j n n') :
    Rows (Γ.Kept j) (w.lists[n]?.getD #[]) (w'.lists[n']?.getD #[]) := by
  have hrel := h.lists hn
  generalize w.lists[n]? = a, w'.lists[n']? = b at hrel
  cases hrel with
  | none => exact .empty
  | some hab => exact hab

/-- **Data that are the same are printed alike.** -/
theorem text_eq (depth : Nat) {d d' : Datum} (hd : d.Same (Γ.Cell j) d') : w'.text depth d' = w.text depth d := by
  induction depth generalizing d d' with
  | zero => rfl
  | succ depth ih =>
    rw [← w'.text_zeroed, ← w.text_zeroed]
    unfold Datum.Same at hd
    generalize d.zeroed = e, d'.zeroed = e' at hd
    cases e with
    | list n =>
      obtain ⟨n', rfl, hn⟩ := hd
      have hitems := World.Linked.mapM_text (h.elements hn) fun d d' hd => ih hd.same
      simp only [World.text, hitems]
    | _ =>
      cases hd
      rfl

theorem withNullSite {site site' : Site} (hspan : site.span = none ∧ site'.span = none)
    (hcontext : Γ.SameCalls site.context site'.context) :
    Γ.Meets j k { w with nullSite := site } { w' with nullSite := site' } :=
  { h with nullSpan := hspan, nullContext := hcontext }

theorem withInput (cs : List Char) : Γ.Meets j k { w with input := cs } { w' with input := cs } :=
  { h with input := rfl }

theorem write (s : String) : Γ.Meets j k (w.write s) (w'.write s) := by
  obtain ⟨text, hleft, hright⟩ := h.output
  refine { h with output := ⟨text ++ s, ?_, ?_⟩ }
  · rw [World.write, hleft, String.append_assoc]
  · rw [World.write, hright, String.append_assoc]

theorem withScopes {l : Nat} {s s' : Scopes Datum} (hs : Γ.Names j l s s') :
    Γ.Meets j l { w with scopes := s } { w' with scopes := s' } :=
  { h with names := hs }

theorem append {n n' : Nat} (hn : Γ.Cell j n n') {d d' : Datum} (hd : Γ.Kept j d d') :
    Γ.Meets j k { w with lists := w.lists.modify n (·.push d) } { w' with lists := w'.lists.modify n' (·.push d') } := by
  refine { h with cells := ?_, lists := ?_ }
  · simp only [Array.size_modify]
    exact h.cells
  · intro m m' hm
    have hrel := h.lists hm
    have hiff := hn.unique hm
    simp only [Array.getElem?_modify]
    by_cases hnm : n = m
    · rw [if_pos hnm, if_pos (hiff.1 hnm)]
      generalize w.lists[m]? = a, w'.lists[m']? = b at hrel
      cases hrel with
      | none => exact .none
      | some hab => exact .some (hab.push hd)
    · rw [if_neg hnm, if_neg fun h => hnm (hiff.2 h)]
      exact hrel

/-- Both worlds make a list, and its cells correspond from then on. -/
theorem newList {items items' : Array Datum} (hitems : Rows (Γ.Kept j) items items') :
    Γ.Cell (j + 1) w.lists.size w'.lists.size ∧
      Γ.Meets (j + 1) k { w with lists := w.lists.push items } { w' with lists := w'.lists.push items' } := by
  obtain ⟨hsize, hsize'⟩ := h.cells
  have hmono : ∀ d d', Γ.Kept j d d' → Γ.Kept (j + 1) d d' := fun _ _ hd => hd.mono (Nat.le_succ j)
  refine ⟨.inr ⟨j, Nat.lt_succ_self j, hsize, hsize'⟩, { h with cells := ?_, lists := ?_, names := ?_ }⟩
  · simp only [Array.size_push]
    omega
  · intro n n' hn
    simp only [Array.getElem?_push]
    by_cases hold : Γ.Cell j n n'
    · have hlt := hold.lt
      rw [if_neg (by omega), if_neg (by omega)]
      exact Option.Rel.imp (h.lists hold) fun _ _ hrows => hrows.imp hmono
    · obtain ⟨rfl, rfl⟩ : n = w.lists.size ∧ n' = w'.lists.size := by
        rcases hn with hn | ⟨i, hi, rfl, rfl⟩
        · exact absurd (.inl hn) hold
        · have hij : i = j := by
            by_contra hne
            exact hold (.inr ⟨i, by omega, rfl, rfl⟩)
          omega
      rw [if_pos rfl, if_pos rfl]
      exact .some (hitems.imp hmono)
  · exact h.names.mono (Nat.le_succ j)

end Meets

end Past

end Scriptlet
