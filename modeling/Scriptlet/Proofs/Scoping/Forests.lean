import Mathlib.Data.List.Induction
import Scriptlet.Proofs.History.Past
/-!
# Looking names up in a forest of scopes

Some scopes are made, each below an earlier one or below none, and then names are looked up, set and removed in them in any
order.  What a name stands for is said by the past alone: a scope has an entry for it if the last operation that wrote to the
name there set it, and a look-up finds the entry of the nearest scope, going up from where it begins, whose entry is not empty.
An empty entry is passed over by the look-up but can still be removed.

`Scopes.entryAt?_perform` says what one operation does to one entry.  From it follow what a whole run leaves behind
(`Forest.entryAt?_after`) and, along the chain of parents, what is found (`Forest.get?_after`).
-/
namespace Scriptlet

/-- Scopes by their parents; a parent is an earlier scope. -/
structure Forest where
  parents : List (Option Nat)
  earlier : ∀ t p : Nat, parents[t]? = some (some p) → p < t

namespace Forest

def size (f : Forest) : Nat := f.parents.length

/-- The scopes, without entries. -/
def scopes (f : Forest) (α : Type) : Scopes α := f.parents.foldl Scopes.push .empty

/-- A scope, its parent, the parent of that, and so on. -/
def chain (f : Forest) (t : Nat) : List Nat :=
  match h : f.parents[t]? with
  | some (some p) =>
    have := f.earlier t p h
    t :: f.chain p
  | _ => [t]

end Forest

/-- What can be done to one of `n` scopes.  The value of a name may be nothing. -/
inductive Operation (α : Type) (n : Nat) where
  | get (scope : Fin n) (name : String)
  | set (scope : Fin n) (name : String) (value : Option α)
  | remove (scope : Fin n) (name : String)

namespace Operation

variable {α : Type} {n : Nat}

/-- Whether an operation writes to a name in a scope: sets or removes it there. -/
def Writes (scope : Nat) (name : String) : Operation α n → Prop
  | get _ _ => False
  | set t x _ | remove t x => scope = t ∧ name = x

instance (scope : Nat) (name : String) : DecidablePred (Writes (α := α) (n := n) scope name)
  | get _ _ => inferInstanceAs (Decidable False)
  | set t x _ | remove t x => inferInstanceAs (Decidable (scope = t ∧ name = x))

/-- The entry that an operation leaves where it writes. -/
def entry? : Operation α n → Option (Option α)
  | set _ _ v => some v
  | get _ _ | remove _ _ => none

end Operation

/-- The last operation that wrote to a name in a scope set it to `v`. -/
def LastSet {α : Type} {n : Nat} (ops : List (Operation α n)) (scope : Nat) (name : String) (v : Option α) : Prop :=
  ∃ before t after, ops = before ++ .set t name v :: after ∧ t.val = scope ∧ ∀ op ∈ after, ¬ op.Writes scope name

/-- Going up from `t`, the first scope in which a name is set to something has it set to `v`. -/
def Forest.Nearest {α : Type} (f : Forest) (ops : List (Operation α f.size)) (t : Nat) (name : String) (v : α) : Prop :=
  ∃ nearer u further, f.chain t = nearer ++ u :: further ∧ LastSet ops u name (some v) ∧
    ∀ u' ∈ nearer, ∀ v', ¬ LastSet ops u' name (some v')

namespace Scopes

variable {α : Type} {n : Nat}

/-- Performs an operation: what it answers, and the scopes after it.  One that fails changes nothing. -/
def perform (s : Scopes α) : Operation α n → Except Fault (Option α) × Scopes α
  | .get t name => (.ok (s.get? t name), s)
  | .set t name v => (.ok none, s.set t name v)
  | .remove t name =>
    match s.remove t name with
    | .ok s' => (.ok none, s')
    | .error e => (.error e, s)

/-- The scopes after some operations. -/
def after (s : Scopes α) (ops : List (Operation α n)) : Scopes α := ops.foldl (fun s op => (s.perform op).2) s

/-! ## Entries -/

/-- The entry of a name in one scope alone. -/
def entryAt? (s : Scopes α) (scope : Nat) (name : String) : Option (Option α) := s.all[scope]?.bind fun t => t.entry? name

theorem ownAt?_eq_join (s : Scopes α) (scope : Nat) (name : String) : s.ownAt? scope name = (s.entryAt? scope name).join := by
  unfold ownAt? entryAt? Scope.own?
  cases s.all[scope]? <;> rfl

/-- What a change of one scope does to all entries, if it acts on a name in the way of `v`. -/
theorem entryAt?_modify {s : Scopes α} {scope : Nat} (hscope : scope < s.size) {g : Scope α → Scope α} {x : String}
    {v : Option (Option α)} (hg : ∀ t name, Scope.entry? (g t) name = if name = x then v else t.entry? name) (i : Nat)
    (name : String) :
    entryAt? ⟨s.all.modify scope g⟩ i name = if i = scope ∧ name = x then v else s.entryAt? i name := by
  unfold entryAt?
  rw [Array.getElem?_modify]
  by_cases hi : scope = i
  · subst hi
    have hscope : scope < s.all.size := hscope
    simp only [if_true, Array.getElem?_eq_getElem hscope, Option.map_some, Option.bind_some, hg, true_and]
  · rw [if_neg hi, if_neg fun h => hi h.1.symm]

theorem entry?_set (t : Scope α) (x : String) (v : Option α) (name : String) :
    Scope.entry? (t.set x v) name = if name = x then some v else t.entry? name :=
  lookup_setEntry x v t.entries name

theorem entry?_erase (t : Scope α) (x name : String) :
    Scope.entry? (t.erase x) name = if name = x then none else t.entry? name := by
  unfold Scope.erase Scope.entry?
  induction t.entries with
  | nil => simp
  | cons e rest ih =>
    obtain ⟨y, w⟩ := e
    by_cases hy : y = x
    · subst hy
      by_cases hname : name = y
      · simpa [hname] using ih
      · simpa [hname, List.lookup_cons, beq_false_of_ne hname] using ih
    · by_cases hname : name = y
      · subst hname
        simp [hy]
      · simpa [hy, List.lookup_cons, beq_false_of_ne hname] using ih

theorem remove_eq {s : Scopes α} {scope : Nat} (hscope : scope < s.size) (name : String) : s.remove scope name =
    if (s.entryAt? scope name).isSome then .ok ⟨s.all.modify scope (·.erase name)⟩ else .error .missingName := by
  have hscope : scope < s.all.size := hscope
  unfold remove entryAt?
  rw [Array.getElem?_eq_getElem hscope]
  rfl

/-- **What one operation does to one entry**: where it writes it leaves its own, elsewhere it leaves what was there. -/
theorem entryAt?_perform (s : Scopes α) (hsize : s.size = n) (op : Operation α n) (i : Nat) (name : String) :
    (s.perform op).2.entryAt? i name = if op.Writes i name then op.entry? else s.entryAt? i name := by
  subst hsize
  cases op with
  | get t x => rfl
  | set t x v => exact entryAt?_modify t.isLt (fun scope => entry?_set scope x v) i name
  | remove t x =>
    simp only [perform, remove_eq t.isLt]
    by_cases hentry : (s.entryAt? t x).isSome
    · rw [if_pos hentry]
      exact entryAt?_modify t.isLt (fun scope => entry?_erase scope x) i name
    · rw [if_neg hentry]
      -- The removal fails because there is nothing to remove.
      by_cases hwrites : i = t ∧ name = x
      · obtain ⟨rfl, rfl⟩ := hwrites
        rw [if_pos ⟨rfl, rfl⟩]
        exact Option.not_isSome_iff_eq_none.1 hentry
      · exact (if_neg hwrites).symm

theorem parents_modify (s : Scopes α) (scope : Nat) {g : Scope α → Scope α} (hg : ∀ t, (g t).parent = t.parent) :
    parents ⟨s.all.modify scope g⟩ = s.parents := by
  apply List.ext_getElem?
  intro i
  simp only [parents, List.getElem?_map, Array.getElem?_toList, Array.getElem?_modify]
  by_cases hi : scope = i
  · rw [if_pos hi]
    cases s.all[i]? <;> simp [hg]
  · rw [if_neg hi]

theorem parents_perform (s : Scopes α) (op : Operation α n) : (s.perform op).2.parents = s.parents := by
  cases op with
  | get t x => rfl
  | set t x v => exact parents_set t x v
  | remove t x =>
    simp only [perform, remove]
    cases s.all[t.val]? with
    | none => rfl
    | some scope =>
      by_cases hentry : (scope.entry? x).isSome
      · simp only [if_pos hentry]
        exact parents_modify s t fun _ => rfl
      · simp only [if_neg hentry]

end Scopes

/-! ## The past -/

/-- The last write of a longer past is its last operation, if that writes there, and else the last write before. -/
theorem lastSet_concat {α : Type} {n : Nat} (ops : List (Operation α n)) (op : Operation α n) (scope : Nat) (name : String)
    (v : Option α) : LastSet (ops ++ [op]) scope name v ↔
      if op.Writes scope name then op.entry? = some v else LastSet ops scope name v := by
  constructor
  · rintro ⟨before, t, after, heq, rfl, hafter⟩
    rcases List.eq_nil_or_concat after with rfl | ⟨after, last, rfl⟩
    · obtain ⟨rfl, rfl⟩ := List.append_singleton_inj.1 heq
      rw [if_pos ⟨rfl, rfl⟩]
      rfl
    · rw [List.concat_eq_append, ← List.cons_append, ← List.append_assoc] at heq
      obtain ⟨rfl, rfl⟩ := List.append_singleton_inj.1 heq
      rw [if_neg (hafter op (by simp))]
      exact ⟨before, t, after, rfl, rfl, fun op' h => hafter op' (by simp [h])⟩
  · intro h
    by_cases hwrites : op.Writes scope name
    · rw [if_pos hwrites] at h
      cases op with
      | get t x => cases h
      | remove t x => cases h
      | set t x u =>
        obtain ⟨rfl, rfl⟩ := hwrites
        cases h
        exact ⟨ops, t, [], rfl, rfl, fun op' h => absurd h (List.not_mem_nil)⟩
    · rw [if_neg hwrites] at h
      obtain ⟨before, t, after, rfl, rfl, hafter⟩ := h
      refine ⟨before, t, after ++ [op], by simp, rfl, fun op' h => ?_⟩
      rcases List.mem_append.1 h with h | h
      · exact hafter op' h
      · exact List.mem_singleton.1 h ▸ hwrites

namespace Forest

variable {α : Type} (f : Forest)

theorem parents_scopes : (f.scopes α).parents = f.parents := by
  have hfold : ∀ (ps : List (Option Nat)) (s : Scopes α), (ps.foldl Scopes.push s).parents = s.parents ++ ps := by
    intro ps
    induction ps with
    | nil => simp
    | cons p ps ih => intro s; simp [ih, Scopes.parents_push]
  exact hfold f.parents .empty

theorem entryAt?_scopes (i : Nat) (name : String) : (f.scopes α).entryAt? i name = none := by
  have hfold : ∀ (ps : List (Option Nat)) (s : Scopes α), (∀ t ∈ s.all, t.entries = []) →
      ∀ t ∈ (ps.foldl Scopes.push s).all, t.entries = [] := by
    intro ps
    induction ps with
    | nil => exact fun s h => h
    | cons p ps ih =>
      intro s h
      apply ih
      intro t ht
      rcases Array.mem_push.1 ht with ht | rfl
      · exact h t ht
      · rfl
  have hempty := hfold f.parents (.empty : Scopes α) fun t ht => absurd ht (Array.not_mem_empty t)
  unfold Scopes.entryAt?
  cases ht : (f.scopes α).all[i]? with
  | none => rfl
  | some t =>
    show t.entries.lookup name = none
    rw [hempty t (Array.mem_of_getElem? ht)]
    rfl

theorem parents_after (ops : List (Operation α f.size)) : ((f.scopes α).after ops).parents = f.parents := by
  unfold Scopes.after
  induction ops using List.reverseRecOn with
  | nil => exact f.parents_scopes
  | append_singleton ops op ih => rw [List.foldl_concat, Scopes.parents_perform, ih]

theorem size_after (ops : List (Operation α f.size)) : ((f.scopes α).after ops).size = f.size := by
  rw [← Scopes.length_parents, parents_after, size]

/-- **A scope has the entry that was last set there and not removed.** -/
theorem entryAt?_after (ops : List (Operation α f.size)) (i : Nat) (name : String) (v : Option α) :
    ((f.scopes α).after ops).entryAt? i name = some v ↔ LastSet ops i name v := by
  induction ops using List.reverseRecOn with
  | nil =>
    constructor
    · intro h
      cases (f.entryAt?_scopes i name).symm.trans h
    · rintro ⟨before, t, after, heq, -⟩
      cases before <;> cases heq
  | append_singleton ops op ih =>
    have hstep : (f.scopes α).after (ops ++ [op]) = (((f.scopes α).after ops).perform op).2 := List.foldl_concat ..
    rw [hstep, Scopes.entryAt?_perform _ (f.size_after ops), lastSet_concat]
    by_cases hwrites : op.Writes i name
    · rw [if_pos hwrites, if_pos hwrites]
    · rw [if_neg hwrites, if_neg hwrites]
      exact ih

theorem ownAt?_after (ops : List (Operation α f.size)) (i : Nat) (name : String) (v : α) :
    ((f.scopes α).after ops).ownAt? i name = some v ↔ LastSet ops i name (some v) := by
  rw [Scopes.ownAt?_eq_join, Option.join_eq_some_iff]
  exact f.entryAt?_after ops i name (some v)

/-! ## Going up -/

theorem chain_of_parent {t p : Nat} (h : f.parents[t]? = some (some p)) : f.chain t = t :: f.chain p := by
  rw [chain]
  split
  · rename_i q hq
    cases h.symm.trans hq
    rfl
  · rename_i hroot
    exact (hroot p h).elim

theorem chain_of_root {t : Nat} (h : f.parents[t]? = some none) : f.chain t = [t] := by
  rw [chain]
  split
  · rename_i p hp
    cases h.symm.trans hp
  · rfl

/-- A look-up goes along the chain. -/
theorem find?_eq {s : Scopes α} (hs : s.parents = f.parents) (name : String) (fuel t : Nat) (hfuel : t < fuel)
    (ht : t < f.size) : s.find? name fuel t = (f.chain t).findSome? (s.ownAt? · name) := by
  induction t using Nat.strongRecOn generalizing fuel with
  | ind t ih =>
    obtain ⟨fuel, rfl⟩ : ∃ m, fuel = m + 1 := ⟨fuel - 1, by omega⟩
    cases hparent : f.parents[t] with
    | none =>
      have hroot : f.parents[t]? = some none := by rw [List.getElem?_eq_getElem ht, hparent]
      rw [Scopes.find?_succ (hs.symm ▸ hroot), f.chain_of_root hroot]
      cases hown : s.ownAt? t name <;> simp [hown]
    | some p =>
      have hbelow : f.parents[t]? = some (some p) := by rw [List.getElem?_eq_getElem ht, hparent]
      have hlt := f.earlier t p hbelow
      rw [Scopes.find?_succ (hs.symm ▸ hbelow), f.chain_of_parent hbelow, Option.bind_some,
        ih p hlt fuel (by omega) (by omega)]
      cases hown : s.ownAt? t name <;> simp [hown]

theorem get?_eq {s : Scopes α} (hs : s.parents = f.parents) (t : Fin f.size) (name : String) :
    s.get? t name = (f.chain t).findSome? (s.ownAt? · name) :=
  f.find?_eq hs name (t + 1) t (Nat.lt_succ_self t) t.isLt

/-- **A look-up finds the nearest scope in which the name is set to something.** -/
theorem get?_after (ops : List (Operation α f.size)) (t : Fin f.size) (name : String) (v : α) :
    ((f.scopes α).after ops).get? t name = some v ↔ f.Nearest ops t name v := by
  rw [f.get?_eq (f.parents_after ops), List.findSome?_eq_some_iff]
  simp only [Nearest, ownAt?_after, Option.eq_none_iff_forall_ne_some, ne_eq]

/-- An operation that does not write to a name on a chain does not change what is found of the name from there. -/
theorem get?_perform {s : Scopes α} (hs : s.parents = f.parents) (op : Operation α f.size) (t : Fin f.size) (name : String)
    (h : ∀ u ∈ f.chain t, ¬ op.Writes u name) : (s.perform op).2.get? t name = s.get? t name := by
  have hsize : s.size = f.size := by rw [← Scopes.length_parents, hs, size]
  rw [f.get?_eq ((s.parents_perform op).trans hs), f.get?_eq hs]
  have hown : ∀ u ∈ f.chain t, (s.perform op).2.ownAt? u name = s.ownAt? u name := by
    intro u hu
    rw [Scopes.ownAt?_eq_join, Scopes.entryAt?_perform s hsize, if_neg (h u hu), ← Scopes.ownAt?_eq_join]
  have hmap : ∀ g : Nat → Option α, (f.chain t).findSome? g = ((f.chain t).map g).findSome? id := by
    intro g
    rw [List.findSome?_map]
    rfl
  rw [hmap, hmap, List.map_congr_left hown]

/-- A removal fails if there is no entry, and then changes nothing; else it succeeds. -/
theorem remove_after (ops : List (Operation α f.size)) (t : Fin f.size) (name : String) :
    let s := (f.scopes α).after ops
    ((∀ v, ¬ LastSet ops t name v) ∧ s.perform (.remove t name) = (.error .missingName, s)) ∨
      ((∃ v, LastSet ops t name v) ∧ (s.perform (.remove t name)).1 = .ok none) := by
  intro s
  have hentry : ∀ v, s.entryAt? t name = some v ↔ LastSet ops t name v := f.entryAt?_after ops t name
  have hsize : s.size = f.size := f.size_after ops
  have hscope : t.val < s.size := by rw [hsize]; exact t.isLt
  have hremove := Scopes.remove_eq hscope name
  cases hfound : s.entryAt? t name with
  | none =>
    left
    constructor
    · intro v hv
      cases hfound.symm.trans ((hentry v).2 hv)
    · rw [hfound] at hremove
      simp only [Scopes.perform, hremove]
      rfl
  | some v =>
    right
    constructor
    · exact ⟨v, (hentry v).1 hfound⟩
    · rw [hfound] at hremove
      simp only [Scopes.perform, hremove]
      rfl

/-- **Names are looked up along the chain, by the past of each scope on it.**  After any operations on the scopes of a forest, a
look-up changes nothing and answers with the value last set and not removed in the nearest scope that has one, and with
nothing if no scope on the chain has one.  A removal fails exactly if the scope itself has no entry, and then changes nothing.
Setting or removing a name in a scope changes neither what another name stands for nor what is found from a scope whose chain
does not contain it. -/
theorem lookup_laws (ops : List (Operation α f.size)) :
    let s := (f.scopes α).after ops
    (∀ (t : Fin f.size) (name : String), ∃ found, s.perform (.get t name) = (.ok found, s) ∧
      (∀ v, found = some v ↔ f.Nearest ops t name v) ∧
      (found = none ↔ ∀ u ∈ f.chain t, ∀ v, ¬ LastSet ops u name (some v))) ∧
    (∀ (t : Fin f.size) (name : String), ((∀ v, ¬ LastSet ops t name v) ∧ s.perform (.remove t name) = (.error .missingName, s)) ∨
      ((∃ v, LastSet ops t name v) ∧ (s.perform (.remove t name)).1 = .ok none)) ∧
    ∀ (u t : Fin f.size) (name name' : String), name' ≠ name ∨ u.val ∉ f.chain t →
      (∀ v, (s.perform (.set u name v)).2.get? t name' = s.get? t name') ∧
      (s.perform (.remove u name)).2.get? t name' = s.get? t name' := by
  intro s
  have hs : s.parents = f.parents := f.parents_after ops
  refine ⟨fun t name => ⟨s.get? t name, rfl, f.get?_after ops t name, ?_⟩, f.remove_after ops, ?_⟩
  · rw [f.get?_eq hs, List.findSome?_eq_none_iff]
    simp only [s, Option.eq_none_iff_forall_ne_some, ne_eq, ownAt?_after]
  · intro u t name name' hapart
    have haway : ∀ u' ∈ f.chain t, ¬ (u' = u.val ∧ name' = name) := by
      rintro u' hu' ⟨rfl, rfl⟩
      exact hapart.elim (fun h => h rfl) fun h => h hu'
    exact ⟨fun v => f.get?_perform hs (.set u name v) t name' haway, f.get?_perform hs (.remove u name) t name' haway⟩

/-- Two scopes below one. -/
def fork : Forest where
  parents := [none, some 0, some 0]
  earlier t p h := by
    rcases t with _ | _ | _ | t <;> simp at h <;> omega

/-- In the root of a fork a name is set to seven, in one of its branches to nothing.  The branch shows the seven of the root and its
entry can be removed.  The other branch has none to be removed, and what is set in the first does not show in it. -/
theorem lookup_laws_fork :
    let ops : List (Operation Nat fork.size) := [.set ⟨0, by decide⟩ "x" (some 7), .set ⟨1, by decide⟩ "x" none]
    let s := (fork.scopes Nat).after ops
    let left : Fin fork.size := ⟨1, by decide⟩
    let right : Fin fork.size := ⟨2, by decide⟩
    fork.Nearest ops left "x" 7 ∧ s.perform (.get left "x") = (.ok (some 7), s) ∧ (s.perform (.remove left "x")).1 = .ok none ∧
      s.perform (.remove right "x") = (.error .missingName, s) ∧ left.val ∉ fork.chain right ∧
      (s.perform (.set left "x" (some 9))).2.get? right "x" = some 7 := by
  intro ops s left right
  obtain ⟨hget, hremove, hframe⟩ := fork.lookup_laws ops
  have hapart : left.val ∉ fork.chain right := by
    rw [show fork.chain right = [2, 0] by
      rw [fork.chain_of_parent (p := 0) (by decide), fork.chain_of_root (by decide)]]
    decide
  obtain ⟨found, hfind, hnearest, -⟩ := hget left "x"
  have hseven : found = some 7 := by
    rw [← Except.ok.inj (congrArg Prod.fst hfind)]
    decide
  refine ⟨(hnearest 7).1 hseven, hseven ▸ hfind, ?_, ?_, hapart, ?_⟩
  · rcases hremove left "x" with ⟨hnone, -⟩ | ⟨-, hok⟩
    · exact absurd ⟨[.set ⟨0, by decide⟩ "x" (some 7)], left, [], rfl, rfl, by simp⟩ (hnone none)
    · exact hok
  · rcases hremove right "x" with ⟨-, hfail⟩ | ⟨-, hok⟩
    · exact hfail
    · cases show (Except.error Fault.missingName : Except Fault (Option Nat)) = .ok none from hok
  · rw [(hframe left right "x" "x" (.inr hapart)).1 (some 9)]
    decide

end Forest

end Scriptlet
