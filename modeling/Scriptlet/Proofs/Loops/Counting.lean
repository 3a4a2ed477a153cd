import Mathlib.Data.Rat.Floor
import Scriptlet.Proofs.History.Past
/-!
# Loops that count

A loop evaluates its bounds once.  Then it counts by itself, so whatever its body does to the counter or to the names that the
bounds were computed from, the next round begins with the next count.  `Visits` follows the rounds of a body one by one, without
the loop; the loop does as many of them as there are counts before the end, and stops early only if its body does
(`eval_count`).
-/
namespace Scriptlet

/-- With a counter bound in the scope of a context. -/
def World.counting (w : World) (c : Context) (name : String) (i : Int) : World :=
  { w with scopes := w.scopes.set c.scope name (some (.number (.int i))) }

namespace Eval

/-- So many visits to a body, one after the other, have given the values and led from the world `w` to another.  They begin with
the counter bound to `s`, `s + d`, `s + 2 * d` and so on. -/
inductive Visits (body : Effect Value) (c : Context) (name : String) (s d : Int) (w : World) :
    Nat → List Value → World → Prop
  | none : Visits body c name s d w 0 [] w
  | more {k : Nat} {vs : List Value} {u u' : World} {v : Value} : Visits body c name s d w k vs u →
      body.run (u.counting c name (s + k * d)) = (.ok v, u') → Visits body c name s d w (k + 1) (vs ++ [v]) u'

/-- The bounds of a count, evaluated one after the other from the world `w` to `w'`, are the integers `s`, `e` and `d`.  Without a
step `d` is 1. -/
def Bounds (sub : Evaluator) (c : Context) (first last : Node) (step : Option Node) (w : World) (s e d : Int)
    (w' : World) : Prop :=
  ∃ v u w₁ w₂, (sub first c).run w = (.ok v, w₁) ∧ v.datum.scalar? = some (.int s) ∧
    (sub last c).run w₁ = (.ok u, w₂) ∧ u.datum.scalar? = some (.int e) ∧
    match step with
    | none => d = 1 ∧ w' = w₂
    | some n => ∃ x, (sub n c).run w₂ = (.ok x, w') ∧ x.datum.scalar? = some (.int d)

/-- How many of the numbers `s`, `s + d`, `s + 2 * d`, … come before `e`: a quotient rounded up, or none. -/
def counts (s e d : Int) : Nat := (⌈((e - s : Int) : ℚ) / (d : ℚ)⌉).toNat

/-! ## How far a count goes -/

theorem lt_counts_of_pos {s e d : Int} (hd : 0 < d) (k : Nat) : k < counts s e d ↔ s + k * d < e := by
  have hd' : (0 : ℚ) < d := Int.cast_pos.2 hd
  have hcast : (k : ℚ) * d < ((e - s : Int) : ℚ) ↔ (k : Int) * d < e - s := by
    rw [← Int.cast_natCast, ← Int.cast_mul, Int.cast_lt]
  rw [counts, Int.lt_toNat, Int.lt_ceil, Int.cast_natCast, lt_div_iff₀ hd', hcast]
  omega

theorem lt_counts_of_neg {s e d : Int} (hd : d < 0) (k : Nat) : k < counts s e d ↔ e < s + k * d := by
  have hd' : (d : ℚ) < 0 := Int.cast_lt_zero.2 hd
  have hcast : ((e - s : Int) : ℚ) < (k : ℚ) * d ↔ e - s < (k : Int) * d := by
    rw [← Int.cast_natCast, ← Int.cast_mul, Int.cast_lt]
  rw [counts, Int.lt_toNat, Int.lt_ceil, Int.cast_natCast, lt_div_iff_of_neg hd', hcast]
  omega

theorem lt_int (a b : Int) : Scalar.lt (.int a) (.int b) = .ok (decide (a < b)) := by
  show Except.ok (some (compare a b) == some .lt) = _
  simp only [beq_eq_decide, Option.some_inj, Int.compare_eq_lt]

theorem gt_int (a b : Int) : Scalar.gt (.int a) (.int b) = .ok (decide (b < a)) := by
  show Except.ok (some (compare a b) == some .gt) = _
  simp only [beq_eq_decide, Option.some_inj, Int.compare_eq_gt]

theorem ge_zero (d : Int) : Scalar.ge (.int d) (.int 0) = .ok (decide (0 ≤ d)) := by
  show Except.ok (compare d 0).isGE = _
  rw [Bool.eq_iff_iff.2 (Int.isGE_compare.trans decide_eq_true_iff.symm)]

/-- Whether a count by `d` has not reached `e`. -/
def isBefore (e d : Int) (i : Scalar) : Except Fault Bool :=
  if decide (0 ≤ d) then i.lt (.int e) else i.gt (.int e)

theorem isBefore_eq {s e d : Int} (hd : d ≠ 0) (k : Nat) :
    isBefore e d (.int (s + k * d)) = .ok (decide (k < counts s e d)) := by
  rw [isBefore]
  rcases Int.lt_or_gt_of_ne hd with hneg | hpos
  · rw [decide_eq_false (Int.not_le.2 hneg), if_neg Bool.false_ne_true, gt_int, decide_eq_decide.2 (lt_counts_of_neg hneg k)]
  · rw [decide_eq_true (Int.le_of_lt hpos), if_pos rfl, lt_int, decide_eq_decide.2 (lt_counts_of_pos hpos k)]

/-! ## Rounds -/

section Rounds

variable {sub : Evaluator} {c : Context} {name : String} {body : Body} {s e d : Int} (hd : d ≠ 0)

include hd

/-- A round binds the counter, visits the body and goes on with the next count. -/
theorem countRounds_visit {k : Nat} (hk : k < counts s e d) (fuel : Nat) (items : Array Datum) (u : World) :
    (countRounds sub c name (isBefore e d) (.int d) body (fuel + 1) (.int (s + k * d)) items).run u =
      (runBody sub body c >>= fun v =>
        countRounds sub c name (isBefore e d) (.int d) body fuel (.int (s + (k + 1 : Nat) * d)) (items.push v.datum)).run
          (u.counting c name (s + k * d)) := by
  have hnext : s + (k + 1 : Nat) * d = s + k * d + d := by
    rw [Int.natCast_succ, Int.add_mul, Int.one_mul, Int.add_assoc]
  rw [countRounds, isBefore_eq hd, decide_eq_true hk, hnext]
  rfl

theorem countRounds_done {k : Nat} (hk : counts s e d ≤ k) (fuel : Nat) (items : Array Datum) (u : World) :
    (countRounds sub c name (isBefore e d) (.int d) body (fuel + 1) (.int (s + k * d)) items).run u = (.ok items, u) := by
  rw [countRounds, isBefore_eq hd, decide_eq_false (Nat.not_lt.2 hk)]
  rfl

/-- After so many visits the loop is where they have led, and has their values. -/
theorem countRounds_visits {w u : World} {k : Nat} {vs : List Value}
    (h : Visits (runBody sub body c) c name s d w k vs u) (hk : k ≤ counts s e d) (fuel : Nat) :
    (countRounds sub c name (isBefore e d) (.int d) body (k + fuel) (.int s) #[]).run w =
      (countRounds sub c name (isBefore e d) (.int d) body fuel (.int (s + k * d)) (vs.map Value.datum).toArray).run u := by
  induction h generalizing fuel with
  | none =>
    rw [Nat.zero_add, Int.natCast_zero, Int.zero_mul, Int.add_zero]
    rfl
  | @more k vs u u' v _ hvisit ih =>
    rw [Nat.add_assoc, Nat.add_comm 1 fuel, ih (by omega), countRounds_visit hd hk, Effect.run_bind, hvisit]
    simp only [List.map_append, List.map_cons, List.map_nil, List.push_toArray]

end Rounds

/-- Either all of so many visits give values, or one of them is the first that does not. -/
theorem exists_visits (body : Effect Value) (c : Context) (name : String) (s d : Int) (w : World) (n : Nat) :
    ∃ k ≤ n, ∃ vs u, Visits body c name s d w k vs u ∧
      (k = n ∨ ∃ stop u', body.run (u.counting c name (s + k * d)) = (.error stop, u')) := by
  induction n with
  | zero => exact ⟨0, Nat.le_refl 0, [], w, .none, .inl rfl⟩
  | succ n ih =>
    obtain ⟨k, hk, vs, u, hvisits, rfl | hstop⟩ := ih
    · cases hvisit : body.run (u.counting c name (s + k * d)) with
      | mk x u' =>
        cases x with
        | ok v => exact ⟨k + 1, Nat.le_refl _, _, u', .more hvisits hvisit, .inl rfl⟩
        | error stop => exact ⟨k, Nat.le_succ k, vs, u, hvisits, .inr ⟨stop, u', hvisit⟩⟩
    · exact ⟨k, Nat.le_succ_of_le hk, vs, u, hvisits, .inr hstop⟩

/-! ## The counter -/

theorem get?_set_self {α : Type} {s : Scopes α} {scope : Nat} (hscope : scope < s.size) (name : String) (v : α) :
    (s.set scope name (some v)).get? scope name = some v := by
  obtain ⟨parent, hparent⟩ : ∃ parent, (s.set scope name (some v)).parents[scope]? = some parent := by
    refine ⟨_, List.getElem?_eq_getElem ?_⟩
    rwa [Scopes.parents_set, Scopes.length_parents]
  rw [Scopes.get?, Scopes.find?_succ hparent, Scopes.ownAt?_set hscope, if_pos ⟨rfl, rfl⟩]
  rfl

section Scopes

variable {limits : Limits} {depth : Nat} {c : Context}

/-- The ground of an evaluation in a context, of which nothing is known. -/
def contextGround (c : Context) : Ground := ⟨False, [], [], c, Nat.zero_le _⟩

theorem contextGround_over {w : World} (hscope : c.scope < w.scopes.size) :
    (contextGround c).Over w.scopes.parents c :=
  .root List.nil_prefix (Scopes.length_parents ▸ hscope)

theorem contextGround_standing (w : World) : Standing (contextGround c) w.scopes.parents w.lists.size w :=
  ⟨rfl, List.nil_prefix, List.nil_prefix, rfl, fun h => h.elim⟩

/-- A body that gives a value leaves as many scopes as there were. -/
theorem runBody_scopes {w u : World} (hscope : c.scope < w.scopes.size) {body : Body} {v : Value}
    (h : (runBody (eval limits depth) body c).run w = (.ok v, u)) : u.scopes.size = w.scopes.size := by
  have hparts := parts_of_agree limits depth (contextGround_over hscope) fun _ _ _ _ => rfl
  have hleaves := (runBody_ensures (b := body) hparts (fun h => h.elim) w (contextGround_standing w)).2
  rw [h] at hleaves
  obtain ⟨_, -, hu, -⟩ := hleaves
  rw [← Scopes.length_parents, hu.parents, Scopes.length_parents]

theorem eval_scopes {w u : World} (hscope : c.scope < w.scopes.size) {n : Node} {v : Value}
    (h : (eval limits depth n c).run w = (.ok v, u)) : u.scopes.size = w.scopes.size :=
  runBody_scopes hscope (show (runBody (eval limits depth) (.inline n) c).run w = _ from h)

theorem Visits.scopes {body : Body} {name : String} {s d : Int} {w u : World} {k : Nat} {vs : List Value}
    (h : Visits (runBody (eval limits depth) body c) c name s d w k vs u) (hscope : c.scope < w.scopes.size) :
    c.scope < u.scopes.size := by
  induction h with
  | none => exact hscope
  | @more k vs u u' v _ hvisit ih =>
    have hsize : (u.counting c name (s + k * d)).scopes.size = u.scopes.size := Scopes.size_set _ _ _
    rw [runBody_scopes (hsize ▸ ih) hvisit, hsize]
    exact ih

theorem Bounds.scopes {first last : Node} {step : Option Node} {w w' : World} {s e d : Int}
    (h : Bounds (eval limits depth) c first last step w s e d w') (hscope : c.scope < w.scopes.size) :
    c.scope < w'.scopes.size := by
  obtain ⟨v, u, w₁, w₂, hfirst, -, hlast, -, hstep⟩ := h
  have h₁ : c.scope < w₁.scopes.size := eval_scopes hscope hfirst ▸ hscope
  have h₂ : c.scope < w₂.scopes.size := eval_scopes h₁ hlast ▸ h₁
  cases step with
  | none =>
    obtain ⟨-, rfl⟩ := hstep
    exact h₂
  | some n =>
    obtain ⟨x, hx, -⟩ := hstep
    exact eval_scopes h₂ hx ▸ h₂

end Scopes

/-! ## Loops -/

theorem payload_of_scalar? {d : Datum} {x : Scalar} (h : d.scalar? = some x) : d.payload = .ok x := by
  cases d with
  | null | number _ =>
    cases h
    rfl
  | _ => cases h

theorem run_pure {α : Type} (a : α) (w : World) : (pure a : Effect α).run w = (.ok a, w) := rfl

theorem run_lift {α : Type} (a : α) (w : World) : (Effect.lift (.ok a)).run w = (.ok a, w) := rfl

/-- A count evaluates its bounds, does its rounds and gives the value of the loop. -/
theorem step_count {limits : Limits} {sub : Evaluator} {c : Context} {first last : Node} {step : Option Node} {w w' : World}
    {s e d : Int} (h : Bounds sub c first last step w s e d w') (name : Name) (body : Body) :
    (Eval.step limits sub (.count name first last step body) c).run w =
      (countRounds sub c name.text (isBefore e d) (.int d) body limits.rounds (.int s) #[] >>=
        loopValue (.count name first last step body) c body).run w' := by
  obtain ⟨v, u, w₁, w₂, hfirst, hs, hlast, he, hstep⟩ := h
  have hs := payload_of_scalar? hs
  have he := payload_of_scalar? he
  cases step with
  | none =>
    obtain ⟨rfl, rfl⟩ := hstep
    have hd : (Datum.number (.int 1)).payload = .ok (.int 1) := rfl
    simp only [Eval.step, Effect.run_bind, hfirst, hlast, run_pure, hs, he, hd, run_lift, ge_zero]
    rfl
  | some n =>
    obtain ⟨x, hx, hd⟩ := hstep
    have hd := payload_of_scalar? hd
    simp only [Eval.step, Effect.run_bind, hfirst, hlast, hx, run_pure, hs, he, hd, run_lift, ge_zero]
    rfl

/-- Where a loop is after so many visits, with the rounds that are left. -/
theorem eval_count_visits {limits : Limits} {depth : Nat} {c : Context} {w w' : World} {first last : Node}
    {step : Option Node} {s e d : Int} (hbounds : Bounds (eval limits depth) c first last step w s e d w') (hd : d ≠ 0)
    {name : Name} {body : Body} {k : Nat} {vs : List Value} {u : World}
    (hvisits : Visits (runBody (eval limits depth) body c) c name.text s d w' k vs u) (hk : k ≤ counts s e d) {fuel : Nat}
    (hfuel : limits.rounds = k + fuel) :
    (eval limits (depth + 1) (.count name first last step body) c).run w =
      (countRounds (eval limits depth) c name.text (isBefore e d) (.int d) body fuel (.int (s + k * d))
        (vs.map Value.datum).toArray >>= loopValue (.count name first last step body) c body).run u := by
  rw [eval, step_count hbounds, hfuel, Effect.run_bind, Effect.run_bind, countRounds_visits hd hvisits hk]

/-- How a loop ends whose visits gave the values: with null in the block form, else with a new list of them. -/
def loopEnd (span : Span) (c : Context) (vs : List Value) (u : World) : Body → Except Stop Value × World
  | .block _ => (.ok .null, u)
  | .inline _ => (.ok (.placed (.list u.lists.size) span c), { u with lists := u.lists.push (vs.map Value.datum).toArray })

theorem run_loopValue (node : Node) (c : Context) (body : Body) (vs : List Value) (u : World) :
    (loopValue node c body (vs.map Value.datum).toArray).run u = loopEnd node.span c vs u body := by
  cases body <;> rfl

/-- **A loop counts by itself.**  Its bounds are integers `s`, `e` and `d`, the last not zero, and `n` of the numbers `s`, `s + d`,
`s + 2 * d`, … come before `e`.  Each visit to the body begins with the counter bound to the next of them, whatever the visits
before it did.  If no visit fails there are `n`, and the loop gives their values in order, or null in the block form; the first
that fails is the last, and the loop fails with it.  (If `n` is not below the limit on rounds, a loop that would do as many as
the limit faults there.)  One of these is the case. -/
theorem eval_count (limits : Limits) (depth : Nat) {c : Context} {w w' : World} {first last : Node} {step : Option Node}
    {s e d : Int} (hbounds : Bounds (eval limits depth) c first last step w s e d w') (hd : d ≠ 0)
    (hscope : c.scope < w.scopes.size) (name : Name) (body : Body) :
    let visit := runBody (eval limits depth) body c
    let node := Node.count name first last step body
    let n := counts s e d
    (∀ k vs u, Visits visit c name.text s d w' k vs u →
      (u.counting c name.text (s + k * d)).scopes.get? c.scope name.text = some (.number (.int (s + k * d)))) ∧
    (∀ vs u, Visits visit c name.text s d w' n vs u → n < limits.rounds →
      (eval limits (depth + 1) node c).run w = loopEnd node.span c vs u body) ∧
    (∀ k vs u stop u', Visits visit c name.text s d w' k vs u → k < n → k < limits.rounds →
      visit.run (u.counting c name.text (s + k * d)) = (.error stop, u') →
      (eval limits (depth + 1) node c).run w = (.error stop, u')) ∧
    (∀ vs u, Visits visit c name.text s d w' limits.rounds vs u → limits.rounds ≤ n →
      (eval limits (depth + 1) node c).run w = (.error (.fault .exhausted), u)) ∧
    ∃ k ≤ min n limits.rounds, ∃ vs u, Visits visit c name.text s d w' k vs u ∧
      (k = min n limits.rounds ∨ ∃ stop u', visit.run (u.counting c name.text (s + k * d)) = (.error stop, u')) := by
  intro visit node n
  refine ⟨fun k vs u hvisits => ?_, fun vs u hvisits hn => ?_, fun k vs u stop u' hvisits hk hrounds hstop => ?_,
    fun vs u hvisits hn => ?_, exists_visits visit c name.text s d w' _⟩
  · exact get?_set_self (hvisits.scopes (hbounds.scopes hscope)) name.text _
  · obtain ⟨fuel, hfuel⟩ := Nat.exists_eq_add_of_lt hn
    rw [eval_count_visits hbounds hd hvisits (Nat.le_refl n) (hfuel.trans (Nat.add_assoc n fuel 1)), Effect.run_bind,
      countRounds_done hd (Nat.le_refl n)]
    exact run_loopValue node c body vs u
  · obtain ⟨fuel, hfuel⟩ := Nat.exists_eq_add_of_lt hrounds
    rw [eval_count_visits hbounds hd hvisits (Nat.le_of_lt hk) (hfuel.trans (Nat.add_assoc k fuel 1)), Effect.run_bind,
      countRounds_visit hd hk, Effect.run_bind, hstop]
  · rw [eval_count_visits hbounds hd hvisits hn (Nat.add_zero _).symm]
    rfl

/-- A body that sets the counter to ten times its value. -/
def tenfold : Body :=
  .inline (.assign ⟨"i", default⟩ (.binary (.access ⟨"i", default⟩) (.symbol .times) (.number (.whole 10) default)))

theorem run_tenfold {u : World} {c : Context} (hscope : c.scope < u.scopes.size) (i : Int) :
    (runBody (eval .standard 9) tenfold c).run (u.counting c "i" i) =
      (.ok (.placed (.number (.int (i * 10))) default c), (u.counting c "i" i).counting c "i" (i * 10)) := by
  have hlookup : (Effect.lookup c "i").run (u.counting c "i" i) = (.ok (some (.number (.int i))), u.counting c "i" i) :=
    congrArg (fun o => (Except.ok o, u.counting c "i" i)) (get?_set_self hscope "i" _)
  simp only [runBody, tenfold, eval, Eval.step, Effect.run_bind, hlookup]
  rfl

/-- From 5 by -2 there are three counts before 0, although each visit sets the counter anew. -/
theorem eval_count_down :
    let w := (Session.start [] "" .standard).world
    let c := Session.rootContext "counting"
    let five := Node.number (.whole 5) default
    let zero := Node.number (.whole 0) default
    let minusTwo := Node.unary ⟨.symbol .minus, default⟩ (.number (.whole 2) default)
    Bounds (eval .standard 9) c five zero (some minusTwo) w 5 0 (-2) w ∧ counts 5 0 (-2) = 3 ∧
    ∃ v u, (eval .standard 10 (.count ⟨"i", default⟩ five zero (some minusTwo) tenfold) c).run w = (.ok v, u) ∧
      v.datum = .list 0 ∧ u.lists = #[#[.number (.int 50), .number (.int 30), .number (.int 10)]] := by
  intro w c five zero minusTwo
  have hbounds : Bounds (eval .standard 9) c five zero (some minusTwo) w 5 0 (-2) w :=
    ⟨_, _, w, w, rfl, rfl, rfl, rfl, _, rfl, rfl⟩
  have hcounts : counts 5 0 (-2) = 3 := by
    have hceil : ⌈((0 - 5 : Int) : ℚ) / ((-2 : Int) : ℚ)⌉ = 3 := by norm_num [Int.ceil_eq_iff]
    rw [counts, hceil]
    rfl
  have hscope : c.scope < w.scopes.size := by decide
  have h₁ : Visits (runBody (eval .standard 9) tenfold c) c "i" 5 (-2) w 1 _ _ := .more .none (run_tenfold hscope 5)
  have h₂ := h₁.more (run_tenfold (h₁.scopes hscope) 3)
  have h₃ := h₂.more (run_tenfold (h₂.scopes hscope) 1)
  obtain ⟨-, hends, -⟩ := eval_count .standard 9 hbounds (by decide) hscope ⟨"i", default⟩ tenfold
  rw [hcounts] at hends
  exact ⟨hbounds, hcounts, _, _, hends _ _ h₃ (by decide), rfl, rfl⟩

end Eval

end Scriptlet
