import Scriptlet.Proofs.Running.Tracks
/-!
# The world while an evaluation is under way

An evaluation in a context writes to the scope of that context only, makes new scopes for the calls it makes, and gives them
up again.  `Standing` says what the world looks like meanwhile, with respect to a `Ground` that does not change: which scopes
must stay as they are, and in which context the whole began.  The parents of all scopes and the number of lists are named by
the statement, so that a rule can say how they move.

If the ground is strict, all data in the world are sound: nothing points to a list that is not there, and no part of a
function is unknown.

There is one lemma here for each thing that an evaluation does to a world.
-/
namespace Scriptlet

/-! ## Sound data -/

mutual

/-- Every operator in the tree is known, and it has no lone token. -/
def Node.isRunnable : Node → Bool
  | .number _ _ | .string _ _ | .access _ => true
  | .list items _ => Node.allRunnable items
  | .assign _ value => value.isRunnable
  | .binary left op right => (BinaryOp.ofLexeme? op).isSome && left.isRunnable && right.isRunnable
  | .unary _ operand => operand.isRunnable
  | .choice first more otherwise => first.isRunnable && Case.allRunnable more && Body.optionRunnable otherwise
  | .count _ first last step body =>
    first.isRunnable && last.isRunnable && Node.optionRunnable step && body.isRunnable
  | .loop test body => test.isRunnable && body.isRunnable
  | .function _ _ body => body.isRunnable
  | .call callee arguments => callee.isRunnable && Node.allRunnable arguments
  | .lone _ => false

def Body.isRunnable : Body → Bool
  | .inline node | .block node => node.isRunnable

def Case.isRunnable : Case → Bool
  | .mk test body => test.isRunnable && body.isRunnable

def Node.allRunnable : List Node → Bool
  | [] => true
  | n :: rest => n.isRunnable && Node.allRunnable rest

def Case.allRunnable : List Case → Bool
  | [] => true
  | c :: rest => c.isRunnable && Case.allRunnable rest

def Node.optionRunnable : Option Node → Bool
  | none => true
  | some n => n.isRunnable

def Body.optionRunnable : Option Body → Bool
  | none => true
  | some b => b.isRunnable

end

section Runnable

variable {l r : Node} {body : Body}

@[simp] theorem Node.allRunnable_iff {ns : List Node} :
    Node.allRunnable ns = true ↔ ∀ n ∈ ns, n.isRunnable = true := by
  induction ns with
  | nil => exact iff_of_true rfl (by simp)
  | cons n ns ih =>
    show (n.isRunnable && Node.allRunnable ns) = true ↔ _
    rw [Bool.and_eq_true, ih, List.forall_mem_cons]

@[simp] theorem Case.allRunnable_iff {cs : List Case} :
    Case.allRunnable cs = true ↔ ∀ c ∈ cs, c.isRunnable = true := by
  induction cs with
  | nil => exact iff_of_true rfl (by simp)
  | cons c cs ih =>
    show (c.isRunnable && Case.allRunnable cs) = true ↔ _
    rw [Bool.and_eq_true, ih, List.forall_mem_cons]

@[simp] theorem Case.isRunnable_mk : (Case.mk l body).isRunnable = true ↔ l.isRunnable = true ∧ body.isRunnable = true :=
  Bool.and_eq_true_iff

@[simp] theorem Node.isRunnable_binary {op : Lexeme} : (Node.binary l op r).isRunnable = true ↔
    (BinaryOp.ofLexeme? op).isSome = true ∧ l.isRunnable = true ∧ r.isRunnable = true := by
  show ((BinaryOp.ofLexeme? op).isSome && l.isRunnable && r.isRunnable) = true ↔ _
  rw [Bool.and_eq_true, Bool.and_eq_true, and_assoc]

@[simp] theorem Node.isRunnable_choice {first : Case} {more : List Case} {otherwise : Option Body} :
    (Node.choice first more otherwise).isRunnable = true ↔
      (∀ c ∈ first :: more, c.isRunnable = true) ∧ Body.optionRunnable otherwise = true := by
  show (first.isRunnable && Case.allRunnable more && Body.optionRunnable otherwise) = true ↔ _
  rw [Bool.and_eq_true, Bool.and_eq_true, Case.allRunnable_iff, List.forall_mem_cons]

@[simp] theorem Node.isRunnable_count {name : Name} {step : Option Node} : (Node.count name l r step body).isRunnable = true ↔
    l.isRunnable = true ∧ r.isRunnable = true ∧ Node.optionRunnable step = true ∧ body.isRunnable = true := by
  show (l.isRunnable && r.isRunnable && Node.optionRunnable step && body.isRunnable) = true ↔ _
  rw [Bool.and_eq_true, Bool.and_eq_true, Bool.and_eq_true, and_assoc, and_assoc]

@[simp] theorem Node.isRunnable_loop : (Node.loop l body).isRunnable = true ↔ l.isRunnable = true ∧ body.isRunnable = true :=
  Bool.and_eq_true_iff

@[simp] theorem Node.isRunnable_call {arguments : List Node} : (Node.call l arguments).isRunnable = true ↔
    l.isRunnable = true ∧ ∀ n ∈ arguments, n.isRunnable = true := by
  show (l.isRunnable && Node.allRunnable arguments) = true ↔ _
  rw [Bool.and_eq_true, Node.allRunnable_iff]

end Runnable

/-- The faults of an evaluation that has lost track of what it works on. -/
def Fault.isInternal : Fault → Bool
  | noContext | unknownBuiltin | unplaced | unknownOperator | missingName | loneToken | notCopyable => true
  | _ => false

/-- What stops an evaluation is an error, or a fault that is not internal. -/
def Stop.isOrdinary : Stop → Bool
  | .error _ => true
  | .fault f => !f.isInternal

namespace Datum

/-- The datum makes sense in a world with so many lists. -/
def Sound (cells : Nat) : Datum → Prop
  | .null | .number _ | .string _ => True
  | .list cell => cell < cells
  | .function f => f.body.isRunnable = true
  | .builtin name => (Builtin.ofName? name).isSome = true
  | .stub _ | .blank => False

/-- A function of either kind. -/
def isCallable : Datum → Bool
  | .function _ | .builtin _ => true
  | _ => false

theorem Sound.mono {k k' : Nat} {d : Datum} (h : d.Sound k) (hk : k ≤ k') : d.Sound k' := by
  cases d with
  | list cell => exact Nat.lt_of_lt_of_le h hk
  | _ => exact h

end Datum

/-- All that the lists and the scopes of a world hold is sound. -/
structure World.Sound (w : World) : Prop where
  lists : ∀ (i : Nat) (items : Array Datum), w.lists[i]? = some items → ∀ d ∈ items.toList, d.Sound w.lists.size
  scopes : ∀ (i : Nat) (t : Scope Datum), w.scopes.all[i]? = some t →
    ∀ (name : String) (d : Datum), (name, some d) ∈ t.entries → d.Sound w.lists.size

/-! ## Scopes -/

theorem Scope.mem_entries_of_own? {α : Type} {t : Scope α} {name : String} {v : α} (h : t.own? name = some v) :
    (name, some v) ∈ t.entries := by
  unfold Scope.own? Scope.entry? at h
  rw [Option.join_eq_some_iff, List.lookup_eq_some_iff] at h
  obtain ⟨before, after, h, -⟩ := h
  rw [h]
  exact List.mem_append_right before List.mem_cons_self

/-- An entry that is there after a name was bound is the new one or was there before. -/
theorem Scope.mem_setEntry {α : Type} {name : String} {v : Option α} {x : String × Option α}
    {entries : List (String × Option α)} (h : x ∈ Scope.setEntry name v entries) : x.2 = v ∨ x ∈ entries := by
  induction entries with
  | nil =>
    rw [Scope.setEntry, List.mem_singleton] at h
    exact .inl (congrArg Prod.snd h)
  | cons e rest ih =>
    unfold Scope.setEntry at h
    split at h
    · rcases List.mem_cons.1 h with rfl | h
      · exact .inl rfl
      · exact .inr (List.mem_cons_of_mem e h)
    · rcases List.mem_cons.1 h with rfl | h
      · exact .inr List.mem_cons_self
      · exact (ih h).imp_right (List.mem_cons_of_mem e)

namespace Scopes

variable {α : Type} {s : Scopes α}

/-- The parents of all scopes, in order. -/
def parents (s : Scopes α) : List (Option Nat) := s.all.toList.map Scope.parent

theorem length_parents : s.parents.length = s.size := by simp [parents, size]

theorem parents_push (p : Option Nat) : (s.push p).parents = s.parents ++ [p] := by simp [parents, push]

theorem parents_pop : s.pop.parents = s.parents.dropLast := by simp [parents, pop]

theorem parents_set (scope : Nat) (name : String) (v : Option α) : (s.set scope name v).parents = s.parents := by
  refine List.ext_getElem? fun i => ?_
  simp only [parents, set, List.getElem?_map, Array.getElem?_toList, Array.getElem?_modify]
  split
  · cases s.all[i]? <;> rfl
  · rfl

/-- Writing to a scope leaves the older ones alone. -/
theorem base_set {base : List (Scope α)} (h : base <+: s.all.toList) {scope : Nat} (hscope : base.length ≤ scope)
    (name : String) (v : Option α) : base <+: (s.set scope name v).all.toList := by
  rw [List.prefix_iff_getElem?] at h ⊢
  intro i hi
  rw [← h i hi, Array.getElem?_toList, Array.getElem?_toList, set, Array.getElem?_modify,
    if_neg (Nat.ne_of_gt (Nat.lt_of_lt_of_le hi hscope))]

theorem base_pop {base : List (Scope α)} (h : base <+: s.all.toList) (hlen : base.length < s.size) :
    base <+: s.pop.all.toList := by
  have hpop : s.pop.all.toList = s.all.toList.dropLast := Array.toList_pop
  rw [hpop]
  refine List.prefix_of_prefix_length_le h (List.dropLast_prefix _) ?_
  rw [List.length_dropLast, Array.length_toList]
  exact Nat.le_sub_one_of_lt hlen

theorem getElem?_of_base {t : Scopes α} (h : s.all.toList <+: t.all.toList) {i : Nat} (hi : i < s.size) :
    t.all[i]? = s.all[i]? := by
  have hlen : i < s.all.toList.length := by rwa [Array.length_toList]
  rw [← Array.getElem?_toList, ← Array.getElem?_toList, List.prefix_iff_getElem?.1 h i hlen,
    List.getElem?_eq_getElem hlen]

/-- What a look-up finds is bound by some scope. -/
theorem exists_of_find? {name : String} {v : α} : ∀ {fuel scope : Nat}, s.find? name fuel scope = some v →
    ∃ (i : Nat) (t : Scope α), s.all[i]? = some t ∧ (name, some v) ∈ t.entries
  | 0, _, h => by cases h
  | fuel + 1, scope, h => by
    unfold find? at h
    split at h
    · cases h
    · next t ht =>
      split at h
      · next hown =>
        cases h
        exact ⟨scope, t, ht, Scope.mem_entries_of_own? hown⟩
      · exact exists_of_find? h
      · cases h

end Scopes

/-! ## The ground of an evaluation -/

/-- What does not change while an evaluation goes on. -/
structure Ground where
  /-- All data are sound. -/
  strict : Prop
  /-- The oldest scopes, which stay as they are. -/
  base : List (Scope Datum)
  /-- The parents of the oldest scopes, which stay what they are. -/
  shape : List (Option Nat)
  /-- The context in which the evaluation began. -/
  root : Context
  base_le : base.length ≤ root.scope

namespace Ground

variable (Γ : Ground)

/-- The context is that of a call, and its scope stands on that of its caller, and so on down to the root. -/
inductive Over (ps : List (Option Nat)) : Context → Prop
  | root : Γ.shape <+: ps → Γ.root.scope < ps.length → Over ps Γ.root
  | call {name : String} {entry : Option Position} {scope : Nat} {caller : Context} : Over ps caller →
      ps[scope]? = some (some caller.scope) → caller.scope < scope → Over ps (.call name entry scope caller)

def Fit (k : Nat) (d : Datum) : Prop := Γ.strict → d.Sound k

/-- A value computed in a context: if it can be called, it belongs to that context. -/
structure Own (c : Context) (k : Nat) (v : Value) : Prop where
  fit : Γ.Fit k v.datum
  context : v.datum.isCallable = true → v.site.context = some c

end Ground

structure Standing (Γ : Ground) (ps : List (Option Nat)) (k : Nat) (w : World) : Prop where
  parents : w.scopes.parents = ps
  shape : Γ.shape <+: ps
  base : Γ.base <+: w.scopes.all.toList
  cells : w.lists.size = k
  sound : Γ.strict → w.Sound

/-- What is left of the ground when an evaluation has stopped. -/
structure Stopped (Γ : Ground) (s : Stop) (w : World) : Prop where
  shape : Γ.shape <+: w.scopes.parents
  base : Γ.base <+: w.scopes.all.toList
  sound : Γ.strict → w.Sound ∧ s.isOrdinary = true

section Ground

variable {Γ : Ground} {ps : List (Option Nat)} {k : Nat} {c : Context}

namespace Ground

theorem Over.shape (h : Γ.Over ps c) : Γ.shape <+: ps := by
  induction h with
  | root hshape _ => exact hshape
  | call _ _ _ ih => exact ih

theorem Over.scope_lt (h : Γ.Over ps c) : c.scope < ps.length := by
  cases h with
  | root _ hlt => exact hlt
  | call _ hparent _ => exact (List.getElem?_eq_some_iff.1 hparent).1

theorem Over.base_le (h : Γ.Over ps c) : Γ.base.length ≤ c.scope := by
  induction h with
  | root _ _ => exact Γ.base_le
  | call _ _ hlt ih => exact Nat.le_trans ih (Nat.le_of_lt hlt)

theorem Over.push (h : Γ.Over ps c) (p : Option Nat) : Γ.Over (ps ++ [p]) c := by
  induction h with
  | root hshape hlt =>
    refine .root (hshape.trans (List.prefix_append _ _)) ?_
    rw [List.length_append]
    exact Nat.lt_add_right _ hlt
  | call _ hparent hlt ih =>
    refine .call ih ?_ hlt
    rw [List.getElem?_append_left (List.getElem?_eq_some_iff.1 hparent).1]
    exact hparent

/-- The context of a call made from a context. -/
theorem Over.enter (h : Γ.Over ps c) (name : String) (entry : Option Position) :
    Γ.Over (ps ++ [some c.scope]) (.call name entry ps.length c) := by
  refine .call (h.push _) ?_ h.scope_lt
  rw [List.getElem?_append_right (Nat.le_refl _), Nat.sub_self]
  rfl

theorem Fit.mono {k' : Nat} {d : Datum} (h : Γ.Fit k d) (hk : k ≤ k') : Γ.Fit k' d := fun hs => (h hs).mono hk

theorem Own.mono {k' : Nat} {v : Value} (h : Γ.Own c k v) (hk : k ≤ k') : Γ.Own c k' v := ⟨h.fit.mono hk, h.context⟩

/-- What cannot be called belongs to every context. -/
theorem Own.of_not_callable {v : Value} (h : Γ.Fit k v.datum) (hv : v.datum.isCallable = false) : Γ.Own c k v := by
  refine ⟨h, fun hcall => ?_⟩
  rw [hv] at hcall
  cases hcall

theorem own_null : Γ.Own c k .null := .of_not_callable (fun _ => trivial) rfl

theorem Own.placed {d : Datum} (h : Γ.Fit k d) (span : Span) : Γ.Own c k (.placed d span c) := ⟨h, fun _ => rfl⟩

end Ground

/-! ## What is done to a world -/

namespace Standing

variable {w : World} (h : Standing Γ ps k w)

include h

theorem stopped {s : Stop} (hs : Γ.strict → s.isOrdinary = true) : Stopped Γ s w where
  shape := h.parents ▸ h.shape
  base := h.base
  sound := fun hΓ => ⟨h.sound hΓ, hs hΓ⟩

/-- Only the lists and the scopes count. -/
theorem of_eq {w' : World} (hlists : w'.lists = w.lists) (hscopes : w'.scopes = w.scopes) : Standing Γ ps k w' where
  parents := hscopes ▸ h.parents
  shape := h.shape
  base := hscopes ▸ h.base
  cells := hlists ▸ h.cells
  sound hΓ := ⟨hlists ▸ (h.sound hΓ).lists, by rw [hscopes, hlists]; exact (h.sound hΓ).scopes⟩

theorem newList {items : Array Datum} (hitems : ∀ d ∈ items.toList, Γ.Fit k d) :
    Standing Γ ps (k + 1) { w with lists := w.lists.push items } where
  parents := h.parents
  shape := h.shape
  base := h.base
  cells := by rw [Array.size_push, h.cells]
  sound hΓ := by
    have hsize : (w.lists.push items).size = k + 1 := by rw [Array.size_push, h.cells]
    have hlists := (h.sound hΓ).lists
    have hscopes := (h.sound hΓ).scopes
    rw [h.cells] at hlists hscopes
    refine ⟨fun i row hrow d hd => ?_, fun i t ht name d hd => ?_⟩
    · rw [hsize]
      rw [Array.getElem?_push] at hrow
      split at hrow
      · cases hrow
        exact (hitems d hd hΓ).mono (Nat.le_succ k)
      · exact (hlists i row hrow d hd).mono (Nat.le_succ k)
    · rw [hsize]
      exact (hscopes i t ht name d hd).mono (Nat.le_succ k)

theorem append (cell : Nat) {item : Datum} (hitem : Γ.Fit k item) :
    Standing Γ ps k { w with lists := w.lists.modify cell (·.push item) } where
  parents := h.parents
  shape := h.shape
  base := h.base
  cells := by rw [Array.size_modify, h.cells]
  sound hΓ := by
    refine ⟨fun i row hrow d hd => ?_, fun i t ht name d hd => ?_⟩
    · rw [Array.size_modify]
      rw [Array.getElem?_modify] at hrow
      split at hrow
      · obtain ⟨old, hold, rfl⟩ := Option.map_eq_some_iff.1 hrow
        rw [Array.toList_push, List.mem_append, List.mem_singleton] at hd
        rcases hd with hd | rfl
        · exact (h.sound hΓ).lists i old hold d hd
        · exact h.cells ▸ hitem hΓ
      · exact (h.sound hΓ).lists i row hrow d hd
    · rw [Array.size_modify]
      exact (h.sound hΓ).scopes i t ht name d hd

theorem set {scope : Nat} (hscope : Γ.base.length ≤ scope) (name : String) {d : Datum} (hd : Γ.Fit k d) :
    Standing Γ ps k { w with scopes := w.scopes.set scope name (some d) } where
  parents := by rw [Scopes.parents_set, h.parents]
  shape := h.shape
  base := Scopes.base_set h.base hscope name _
  cells := h.cells
  sound hΓ := by
    refine ⟨(h.sound hΓ).lists, fun i t ht x e he => ?_⟩
    simp only [Scopes.set, Array.getElem?_modify] at ht
    split at ht
    · obtain ⟨old, hold, rfl⟩ := Option.map_eq_some_iff.1 ht
      rcases Scope.mem_setEntry he with hnew | hold'
      · cases hnew
        exact h.cells ▸ hd hΓ
      · exact (h.sound hΓ).scopes i old hold x e hold'
    · exact (h.sound hΓ).scopes i t ht x e he

theorem push (p : Option Nat) : Standing Γ (ps ++ [p]) k { w with scopes := w.scopes.push p } where
  parents := by rw [Scopes.parents_push, h.parents]
  shape := h.shape.trans (List.prefix_append _ _)
  base := by
    refine h.base.trans ?_
    rw [Scopes.push, Array.toList_push]
    exact List.prefix_append _ _
  cells := h.cells
  sound hΓ := by
    refine ⟨(h.sound hΓ).lists, fun i t ht x e he => ?_⟩
    simp only [Scopes.push, Array.getElem?_push] at ht
    split at ht
    · cases ht
      cases he
    · exact (h.sound hΓ).scopes i t ht x e he

omit h in
theorem pop {p : Option Nat} (h : Standing Γ (ps ++ [p]) k w) (hshape : Γ.shape <+: ps)
    (hbase : Γ.base.length ≤ ps.length) : Standing Γ ps k { w with scopes := w.scopes.pop } where
  parents := by rw [Scopes.parents_pop, h.parents, List.dropLast_concat]
  shape := hshape
  base := by
    refine Scopes.base_pop h.base ?_
    rw [← Scopes.length_parents, h.parents, List.length_append]
    exact Nat.lt_succ_of_le hbase
  cells := h.cells
  sound hΓ := by
    refine ⟨(h.sound hΓ).lists, fun i t ht x e he => ?_⟩
    have hold : w.scopes.all[i]? = some t := by
      simp only [Scopes.pop, Array.getElem?_pop] at ht
      split at ht
      · exact ht
      · cases ht
    exact (h.sound hΓ).scopes i t hold x e he

theorem elements_fit (cell : Nat) : ∀ d ∈ (w.lists[cell]?.getD #[]).toList, Γ.Fit k d := by
  intro d hd hΓ
  cases hrow : w.lists[cell]? with
  | none =>
    rw [hrow] at hd
    cases hd
  | some items =>
    rw [hrow] at hd
    exact h.cells ▸ (h.sound hΓ).lists cell items hrow d hd

theorem lookup_fit {scope : Nat} {name : String} {d : Datum} (hd : w.scopes.get? scope name = some d) : Γ.Fit k d := by
  intro hΓ
  obtain ⟨i, t, ht, hmem⟩ := Scopes.exists_of_find? hd
  exact h.cells ▸ (h.sound hΓ).scopes i t ht name d hmem

end Standing

end Ground

end Scriptlet
