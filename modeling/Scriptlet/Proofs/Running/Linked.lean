import Mathlib.Data.List.Forall2
import Scriptlet.Proofs.Running.Relocation
/-!
# Worlds that correspond

Two runs of the same statements need not use the same cells for their lists, nor the same positions.  `World.Linked` says that
two worlds are the same but for this: positions are moved by `φ`, and cells correspond by `links`.  Cells that correspond
hold elements that correspond.  Each world may have cells that the other knows nothing of; those that `kept` names in the
second world stay as they are.

The links grow when both worlds make a list.  With every cell linked to itself the worlds are equal up to positions
(`World.linked_eq_iff`).  With finitely many cells linked, nothing in the worlds can point to a cell that does not exist.

There is one lemma here for each thing that a run does to a world.
-/
namespace Scriptlet

/-! ## Rows -/

/-- Rows of the same length whose elements correspond. -/
def Rows {α β : Type} (R : α → β → Prop) (xs : Array α) (ys : Array β) : Prop := List.Forall₂ R xs.toList ys.toList

namespace Rows

variable {α β : Type} {R T : α → β → Prop} {xs xs₂ : Array α} {ys ys₂ : Array β}

theorem empty : Rows R #[] #[] := .nil

theorem size_eq (h : Rows R xs ys) : xs.size = ys.size := by
  rw [← Array.length_toList, ← Array.length_toList]
  exact h.length_eq

theorem imp (h : Rows R xs ys) (hT : ∀ a b, R a b → T a b) : Rows T xs ys := List.Forall₂.imp hT h

theorem append (h : Rows R xs ys) (h₂ : Rows R xs₂ ys₂) : Rows R (xs ++ xs₂) (ys ++ ys₂) := by
  unfold Rows
  rw [Array.toList_append, Array.toList_append]
  exact List.rel_append h h₂

theorem push (h : Rows R xs ys) {a : α} {b : β} (hab : R a b) : Rows R (xs.push a) (ys.push b) := by
  unfold Rows
  rw [Array.toList_push, Array.toList_push]
  exact List.rel_append h (.cons hab .nil)

theorem getElem? (h : Rows R xs ys) (i : Nat) : Option.Rel R xs[i]? ys[i]? := by
  unfold Rows at h
  rw [← Array.getElem?_toList, ← Array.getElem?_toList]
  generalize xs.toList = as, ys.toList = bs at h ⊢
  induction h generalizing i with
  | nil => exact .none
  | cons hab _ ih =>
    cases i with
    | zero => exact .some hab
    | succ i => exact ih i

theorem pop (h : Rows R xs ys) : Rows R xs.pop ys.pop := by
  unfold Rows at h ⊢
  rw [Array.toList_pop, Array.toList_pop]
  generalize xs.toList = as, ys.toList = bs at h ⊢
  induction h with
  | nil => exact .nil
  | cons hab h ih =>
    cases h with
    | nil => exact .nil
    | cons hcd h => exact .cons hab ih

theorem modify (h : Rows R xs ys) (i : Nat) {f : α → α} {g : β → β} (hfg : ∀ a b, R a b → R (f a) (g b)) :
    Rows R (xs.modify i f) (ys.modify i g) := by
  unfold Rows at h ⊢
  rw [Array.toList_modify, Array.toList_modify]
  generalize xs.toList = as, ys.toList = bs at h ⊢
  induction h generalizing i with
  | nil => cases i <;> exact .nil
  | cons hab h ih =>
    cases i with
    | zero => exact .cons (hfg _ _ hab) h
    | succ i => exact .cons hab (ih i)

theorem onto (digits n : Nat) {unit done : Array α} {unit' done' : Array β} (hunit : Rows R unit unit')
    (hdone : Rows R done done') : Rows R (Repetition.onto (· ++ ·) digits n unit done)
      (Repetition.onto (· ++ ·) digits n unit' done') := by
  induction digits generalizing n unit unit' done done' with
  | zero => exact hdone
  | succ digits ih =>
    have hnext : Rows R (if n % 2 = 1 then done ++ unit else done) (if n % 2 = 1 then done' ++ unit' else done') := by
      by_cases hodd : n % 2 = 1
      · rw [if_pos hodd, if_pos hodd]
        exact hdone.append hunit
      · rw [if_neg hodd, if_neg hodd]
        exact hdone
    unfold Repetition.onto
    by_cases hzero : n = 0
    · rw [if_pos hzero, if_pos hzero]
      exact hdone
    · rw [if_neg hzero, if_neg hzero]
      by_cases hone : n = 1
      · simp only [if_pos hone]
        exact hnext
      · simp only [if_neg hone]
        exact ih (n / 2) (hunit.append hunit) hnext

end Rows

/-! ## Data -/

/-- Which cells of two worlds correspond. -/
abbrev Links : Type := Nat → Nat → Prop

namespace Links

def Grows (S S' : Links) : Prop := ∀ n n', S n n' → S' n n'

theorem Grows.refl (S : Links) : S.Grows S := fun _ _ h => h

theorem Grows.trans {S T U : Links} (h : S.Grows T) (h' : T.Grows U) : S.Grows U := fun n n' hn => h' n n' (h n n' hn)

/-- One more pair of cells. -/
def add (S : Links) (m m' : Nat) : Links := fun n n' => S n n' ∨ n = m ∧ n' = m'

theorem grows_add (S : Links) (m m' : Nat) : S.Grows (S.add m m') := fun _ _ h => .inl h

theorem add_self (S : Links) (m m' : Nat) : S.add m m' m m' := .inr ⟨rfl, rfl⟩

end Links

section Data

variable {φ : Position → Position} {S S' : Links} {d d' : Datum} {v v' : Value}

/-- The second datum is the first with its positions moved; a list is a list in a cell that corresponds. -/
def Datum.Linked (φ : Position → Position) (S : Links) (d d' : Datum) : Prop :=
  match d with
  | .list n => ∃ n', d' = .list n' ∧ S n n'
  | _ => d' = d.relocate φ

theorem Datum.Linked.mono (hS : S.Grows S') (h : Datum.Linked φ S d d') : Datum.Linked φ S' d d' := by
  cases d with
  | list n =>
    obtain ⟨n', rfl, hn⟩ := h
    exact ⟨n', rfl, hS n n' hn⟩
  | _ => exact h

theorem Datum.Linked.scalar?_eq (h : Datum.Linked φ S d d') : d'.scalar? = d.scalar? := by
  cases d with
  | list n =>
    obtain ⟨n', rfl, -⟩ := h
    rfl
  | _ =>
    cases h
    rfl

theorem Datum.Linked.payload_eq (h : Datum.Linked φ S d d') : d'.payload = d.payload := by
  cases d with
  | list n =>
    obtain ⟨n', rfl, -⟩ := h
    rfl
  | _ =>
    cases h
    rfl

/-- With every cell linked to itself, data are the same but for positions. -/
theorem Datum.linked_eq_iff : Datum.Linked φ Eq d d' ↔ d' = d.relocate φ := by
  cases d with
  | list n =>
    constructor
    · rintro ⟨n', rfl, rfl⟩
      rfl
    · rintro rfl
      exact ⟨n, rfl, rfl⟩
  | _ => exact Iff.rfl

def Value.Linked (φ : Position → Position) (S : Links) (v v' : Value) : Prop :=
  v.datum.Linked φ S v'.datum ∧ v'.site = v.site.relocate φ

theorem Value.Linked.mono (hS : S.Grows S') (h : Value.Linked φ S v v') : Value.Linked φ S' v v' := ⟨h.1.mono hS, h.2⟩

theorem Rows.mono {xs ys : Array Datum} (hS : S.Grows S') (h : Rows (Datum.Linked φ S) xs ys) :
    Rows (Datum.Linked φ S') xs ys :=
  h.imp fun _ _ h => h.mono hS

theorem Rows.of_values {vs vs' : List Value} (h : List.Forall₂ (Value.Linked φ S) vs vs') :
    Rows (Datum.Linked φ S) (vs.map Value.datum).toArray (vs'.map Value.datum).toArray :=
  List.forall₂_map_left_iff.2 (List.forall₂_map_right_iff.2 (h.imp fun _ _ hv => hv.1))

end Data

/-! ## Scopes -/

section Scopes

variable {α β : Type} {R : α → β → Prop}

def EntryLinked (R : α → β → Prop) (e : String × Option α) (e' : String × Option β) : Prop :=
  e'.1 = e.1 ∧ Option.Rel R e.2 e'.2

def Scope.Linked (R : α → β → Prop) (s : Scope α) (s' : Scope β) : Prop :=
  s'.parent = s.parent ∧ List.Forall₂ (EntryLinked R) s.entries s'.entries

def Scopes.Linked (R : α → β → Prop) (s : Scopes α) (s' : Scopes β) : Prop := Rows (Scope.Linked R) s.all s'.all

theorem lookup_linked {es : List (String × Option α)} {es' : List (String × Option β)} (name : String)
    (h : List.Forall₂ (EntryLinked R) es es') : Option.Rel R (es.lookup name).join (es'.lookup name).join := by
  induction h with
  | nil => exact .none
  | cons he h ih =>
    rename_i e e' es es'
    obtain ⟨x, a⟩ := e
    obtain ⟨x', b⟩ := e'
    obtain ⟨rfl, hab⟩ := he
    by_cases hx : name = x'
    · simp only [List.lookup_cons, hx, beq_self_eq_true]
      exact hab
    · simp only [List.lookup_cons, beq_false_of_ne hx]
      exact ih

theorem Scope.Linked.own? {s : Scope α} {s' : Scope β} (h : Scope.Linked R s s') (name : String) :
    Option.Rel R (s.own? name) (s'.own? name) := lookup_linked name h.2

theorem setEntry_linked {es : List (String × Option α)} {es' : List (String × Option β)} (name : String)
    (h : List.Forall₂ (EntryLinked R) es es') {a : Option α} {b : Option β} (hab : Option.Rel R a b) :
    List.Forall₂ (EntryLinked R) (Scope.setEntry name a es) (Scope.setEntry name b es') := by
  induction h with
  | nil => exact .cons ⟨rfl, hab⟩ .nil
  | cons he h ih =>
    rename_i e e' es es'
    obtain ⟨x, c⟩ := e
    obtain ⟨x', c'⟩ := e'
    obtain ⟨rfl, hc⟩ := he
    unfold Scope.setEntry
    by_cases hx : x' = name
    · simp only [if_pos hx]
      exact .cons ⟨rfl, hab⟩ h
    · simp only [if_neg hx]
      exact .cons ⟨rfl, hc⟩ ih

theorem Option.Rel.imp {T : α → β → Prop} {a : Option α} {b : Option β} (h : Option.Rel R a b)
    (hT : ∀ x y, R x y → T x y) : Option.Rel T a b := by
  cases h with
  | none => exact .none
  | some hab => exact .some (hT _ _ hab)

namespace Scopes.Linked

variable {s : Scopes α} {s' : Scopes β}

theorem imp {T : α → β → Prop} (h : Scopes.Linked R s s') (hT : ∀ a b, R a b → T a b) : Scopes.Linked T s s' :=
  Rows.imp h fun _ _ ht => ⟨ht.1, ht.2.imp fun _ _ he => ⟨he.1, Option.Rel.imp he.2 hT⟩⟩

theorem size_eq (h : Scopes.Linked R s s') : s'.size = s.size := (Rows.size_eq h).symm

theorem push (h : Scopes.Linked R s s') (parent : Option Nat) : Scopes.Linked R (s.push parent) (s'.push parent) :=
  Rows.push h ⟨rfl, .nil⟩

theorem pop (h : Scopes.Linked R s s') : Scopes.Linked R s.pop s'.pop := Rows.pop h

theorem set (h : Scopes.Linked R s s') (scope : Nat) (name : String) {a : Option α} {b : Option β}
    (hab : Option.Rel R a b) : Scopes.Linked R (s.set scope name a) (s'.set scope name b) :=
  Rows.modify h scope fun _ _ ht => ⟨ht.1, setEntry_linked name ht.2 hab⟩

theorem find? (h : Scopes.Linked R s s') (name : String) (fuel scope : Nat) :
    Option.Rel R (s.find? name fuel scope) (s'.find? name fuel scope) := by
  induction fuel generalizing scope with
  | zero => exact .none
  | succ fuel ih =>
    have ht := Rows.getElem? h scope
    unfold Scopes.find?
    generalize s.all[scope]? = t, s'.all[scope]? = t' at ht
    cases ht with
    | none => exact .none
    | some ht =>
      rename_i t t'
      have hown := ht.own? name
      have hparent := ht.1
      simp only [hparent]
      generalize t.own? name = a, t'.own? name = b at hown
      cases hown with
      | some hab => exact .some hab
      | none =>
        cases t.parent with
        | none => exact .none
        | some p => exact ih p

theorem get? (h : Scopes.Linked R s s') (scope : Nat) (name : String) :
    Option.Rel R (s.get? scope name) (s'.get? scope name) := h.find? name _ scope

end Scopes.Linked

end Scopes

/-! ## Worlds -/

structure World.Linked (φ : Position → Position) (kept : Nat → Option (Array Datum)) (S : Links) (w w' : World) :
    Prop where
  lists : ∀ {n n'}, S n n' → Option.Rel (Rows (Datum.Linked φ S)) w.lists[n]? w'.lists[n']?
  unique : ∀ {m m' n n'}, S m m' → S n n' → (m = n ↔ m' = n')
  /-- Cells that have yet to be made correspond in the order in which they will be made, or not at all. -/
  fresh : ∀ {n n'}, S n n' → ∀ i, (n = w.lists.size + i ↔ n' = w'.lists.size + i)
  kept : ∀ {n' items}, kept n' = some items → w'.lists[n']? = some items ∧ ∀ n, ¬S n n'
  scopes : w.scopes.Linked (Datum.Linked φ S) w'.scopes
  nullSite : w'.nullSite = w.nullSite.relocate φ
  input : w'.input = w.input
  output : w'.output = w.output

namespace World.Linked

variable {φ : Position → Position} {kept : Nat → Option (Array Datum)} {S : Links} {w w' : World}

theorem elements (h : World.Linked φ kept S w w') {n n' : Nat} (hn : S n n') :
    Rows (Datum.Linked φ S) (w.lists[n]?.getD #[]) (w'.lists[n']?.getD #[]) := by
  have hrel := h.lists hn
  generalize w.lists[n]? = a, w'.lists[n']? = b at hrel
  cases hrel with
  | none => exact .empty
  | some hab => exact hab

theorem mapM_text {f g : Datum → Except Fault String} {ds ds' : List Datum} {R : Datum → Datum → Prop}
    (hds : List.Forall₂ R ds ds') (hfg : ∀ d d', R d d' → g d' = f d) : ds'.mapM g = ds.mapM f := by
  induction hds with
  | nil => rfl
  | cons hd _ ih => rw [List.mapM_cons, List.mapM_cons, hfg _ _ hd, ih]

/-- Data that correspond are printed alike. -/
theorem text_eq (h : World.Linked φ kept S w w') (depth : Nat) {d d' : Datum} (hd : Datum.Linked φ S d d') :
    w'.text depth d' = w.text depth d := by
  induction depth generalizing d d' with
  | zero => rfl
  | succ depth ih =>
    cases d with
    | list n =>
      obtain ⟨n', rfl, hn⟩ := hd
      have hitems := mapM_text (h.elements hn) fun d d' hd => ih hd
      simp only [World.text, hitems]
    | _ =>
      cases hd
      rfl

theorem write (h : World.Linked φ kept S w w') (s : String) : World.Linked φ kept S (w.write s) (w'.write s) :=
  { h with output := congrArg (· ++ s) h.output }

theorem withInput (h : World.Linked φ kept S w w') (cs : List Char) :
    World.Linked φ kept S { w with input := cs } { w' with input := cs } :=
  { h with input := rfl }

theorem withNullSite (h : World.Linked φ kept S w w') {site site' : Site} (hsite : site' = site.relocate φ) :
    World.Linked φ kept S { w with nullSite := site } { w' with nullSite := site' } :=
  { h with nullSite := hsite }

theorem withScopes (h : World.Linked φ kept S w w') {s s' : Scopes Datum} (hs : s.Linked (Datum.Linked φ S) s') :
    World.Linked φ kept S { w with scopes := s } { w' with scopes := s' } :=
  { h with scopes := hs }

theorem append (h : World.Linked φ kept S w w') {n n' : Nat} (hn : S n n') {d d' : Datum}
    (hd : Datum.Linked φ S d d') : World.Linked φ kept S { w with lists := w.lists.modify n (·.push d) }
      { w' with lists := w'.lists.modify n' (·.push d') } := by
  refine { h with lists := ?_, fresh := ?_, kept := ?_ }
  · intro m m' hm
    have hrel := h.lists hm
    have hiff := h.unique hn hm
    rw [Array.getElem?_modify, Array.getElem?_modify]
    by_cases hnm : n = m
    · rw [if_pos hnm, if_pos (hiff.1 hnm)]
      generalize w.lists[m]? = a, w'.lists[m']? = b at hrel
      cases hrel with
      | none => exact .none
      | some hab => exact .some (hab.push hd)
    · rw [if_neg hnm, if_neg fun h => hnm (hiff.2 h)]
      exact hrel
  · intro m m' hm i
    simp only [Array.size_modify]
    exact h.fresh hm i
  · intro m' items hm
    obtain ⟨hitems, hnone⟩ := h.kept hm
    refine ⟨?_, hnone⟩
    have hne : n' ≠ m' := by
      rintro rfl
      exact hnone n hn
    rw [Array.getElem?_modify, if_neg hne]
    exact hitems

/-- Both worlds make a list, and its cells correspond from then on. -/
theorem newList (h : World.Linked φ kept S w w') {items items' : Array Datum}
    (hitems : Rows (Datum.Linked φ S) items items') :
    World.Linked φ kept (S.add w.lists.size w'.lists.size) { w with lists := w.lists.push items }
      { w' with lists := w'.lists.push items' } := by
  have hgrows := S.grows_add w.lists.size w'.lists.size
  have hnew : Option.Rel (Rows (Datum.Linked φ (S.add w.lists.size w'.lists.size))) (some items) (some items') :=
    .some (hitems.mono hgrows)
  refine { h with lists := ?_, unique := ?_, fresh := ?_, kept := ?_, scopes := ?_ }
  · intro m m' hm
    simp only [Array.getElem?_push]
    rcases hm with hm | ⟨rfl, rfl⟩
    · have hiff := h.fresh hm 0
      simp only [Nat.add_zero] at hiff
      by_cases hsize : m = w.lists.size
      · rw [if_pos hsize, if_pos (hiff.1 hsize)]
        exact hnew
      · rw [if_neg hsize, if_neg fun h => hsize (hiff.2 h)]
        exact Option.Rel.imp (h.lists hm) fun _ _ hab => hab.mono hgrows
    · rw [if_pos rfl, if_pos rfl]
      exact hnew
  · intro m m' n n' hm hn
    rcases hm with hm | ⟨rfl, rfl⟩
    · rcases hn with hn | ⟨rfl, rfl⟩
      · exact h.unique hm hn
      · exact h.fresh hm 0
    · rcases hn with hn | ⟨rfl, rfl⟩
      · have hiff := h.fresh hn 0
        simp only [Nat.add_zero] at hiff
        rw [eq_comm, hiff, eq_comm]
      · simp
  · intro m m' hm i
    simp only [Array.size_push]
    rcases hm with hm | ⟨rfl, rfl⟩
    · have hiff := h.fresh hm (1 + i)
      rw [Nat.add_assoc, Nat.add_assoc]
      exact hiff
    · constructor <;> intro hi <;> omega
  · intro m' items hm
    obtain ⟨hitems, hnone⟩ := h.kept hm
    have hlt : m' < w'.lists.size := (Array.getElem?_eq_some_iff.1 hitems).1
    refine ⟨?_, ?_⟩
    · rw [Array.getElem?_push, if_neg (by omega)]
      exact hitems
    · rintro m (hm | ⟨_, hm⟩)
      · exact hnone m hm
      · omega
  · exact h.scopes.imp fun _ _ hd => hd.mono hgrows

end World.Linked

/-! ## Every cell linked to itself -/

section Equal

variable {φ : Position → Position} {w w' : World}

theorem forall₂_eq_iff {α β : Type} {f : α → β} {R : α → β → Prop} (hR : ∀ a b, R a b ↔ b = f a) {as : List α}
    {bs : List β} : List.Forall₂ R as bs ↔ bs = as.map f := by
  have hR : R = fun a b => f a = b := by
    funext a b
    rw [eq_iff_iff, hR, eq_comm]
  subst hR
  have hmap : List.Forall₂ (fun a b => f a = b) as bs ↔ List.Forall₂ (· = ·) (as.map f) bs :=
    List.forall₂_map_left_iff.symm
  rw [hmap, List.forall₂_eq_eq_eq, eq_comm]

theorem rows_eq_iff {α β : Type} {f : α → β} {R : α → β → Prop} (hR : ∀ a b, R a b ↔ b = f a) {xs : Array α}
    {ys : Array β} : Rows R xs ys ↔ ys = xs.map f := by
  unfold Rows
  rw [forall₂_eq_iff hR, ← Array.toList_inj, Array.toList_map]

theorem optionRel_eq_iff {α β : Type} {f : α → β} {R : α → β → Prop} (hR : ∀ a b, R a b ↔ b = f a) {a : Option α}
    {b : Option β} : Option.Rel R a b ↔ b = a.map f := by
  constructor
  · intro h
    cases h with
    | none => rfl
    | some hab => rw [(hR _ _).1 hab, Option.map_some]
  · rintro rfl
    cases a with
    | none => exact .none
    | some a => exact .some ((hR _ _).2 rfl)

theorem Scope.linked_eq_iff {α β : Type} {f : α → β} {R : α → β → Prop} (hR : ∀ a b, R a b ↔ b = f a) {s : Scope α}
    {s' : Scope β} : Scope.Linked R s s' ↔ s' = s.map f := by
  have hentry : ∀ (e : String × Option α) (e' : String × Option β), EntryLinked R e e' ↔ e' = (e.1, e.2.map f) := by
    intro e e'
    rw [EntryLinked, optionRel_eq_iff hR, Prod.ext_iff]
  rw [Scope.Linked, forall₂_eq_iff hentry]
  cases s
  cases s'
  simp [Scope.map]

theorem Scopes.linked_eq_iff {α β : Type} {f : α → β} {R : α → β → Prop} (hR : ∀ a b, R a b ↔ b = f a) {s : Scopes α}
    {s' : Scopes β} : Scopes.Linked R s s' ↔ s' = s.map f := by
  have hscope : ∀ t t', Scope.Linked R t t' ↔ t' = t.map f := fun _ _ => Scope.linked_eq_iff hR
  rw [Scopes.Linked, rows_eq_iff hscope]
  cases s'
  simp [Scopes.map]

/-- **With every cell linked to itself, worlds are equal up to positions.** -/
theorem World.linked_eq_iff : World.Linked φ (fun _ => none) Eq w w' ↔ w' = w.relocate φ := by
  have hdatum : ∀ d d', Datum.Linked φ Eq d d' ↔ d' = d.relocate φ := fun _ _ => Datum.linked_eq_iff
  have hrow : ∀ xs ys, Rows (Datum.Linked φ Eq) xs ys ↔ ys = xs.map (Datum.relocate φ) := fun _ _ => rows_eq_iff hdatum
  have hcell : ∀ n : Nat, Option.Rel (Rows (Datum.Linked φ Eq)) w.lists[n]? w'.lists[n]? ↔
      w'.lists[n]? = w.lists[n]?.map (·.map (Datum.relocate φ)) :=
    fun n => optionRel_eq_iff hrow
  constructor
  · intro h
    have hlists : w'.lists = w.lists.map (·.map (Datum.relocate φ)) := by
      refine Array.ext_getElem? fun n => ?_
      rw [Array.getElem?_map]
      exact (hcell n).1 (h.lists rfl)
    have hscopes := (Scopes.linked_eq_iff hdatum).1 h.scopes
    have hsite := h.nullSite
    have hinput := h.input
    have houtput := h.output
    cases w'
    simp only at hlists hscopes hsite hinput houtput
    subst hlists hscopes hsite hinput houtput
    rfl
  · rintro rfl
    refine ⟨?_, ?_, ?_, ?_, (Scopes.linked_eq_iff hdatum).2 rfl, rfl, rfl, rfl⟩
    · rintro n _ rfl
      refine (hcell n).2 ?_
      simp [World.relocate]
    · rintro m _ n _ rfl rfl
      exact Iff.rfl
    · rintro n _ rfl i
      simp [World.relocate]
    · intro n items h
      cases h

end Equal

end Scriptlet
