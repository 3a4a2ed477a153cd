import Scriptlet.Proofs.Arithmetic.Doubles
import Scriptlet.Proofs.Conduct.Faults
import Scriptlet.Proofs.Running.Tracks
import Scriptlet.Session
/-!
# Conditions

`and` and `or` do not give the truth of a condition but one of its operands, made an integer: the one that decides.  So a
number between minus one and one, which holds by itself, does not hold any more once it has been chosen (`Condition.result`),
and the condition has another truth than its parts give it (`fraction_dropped`).  Without such an operand of `and` or `or`, in
particular on integers, conditions follow the logic of their parts (`eval_condition`).
-/
namespace Scriptlet

/-- A condition with the numbers that its leaves are. -/
inductive Condition where
  | leaf (q : ℚ)
  | both (l r : Condition)
  | either (l r : Condition)
  | negation (c : Condition)

namespace Condition

/-- What logic makes of the leaves; a number holds if it is not zero. -/
def truth : Condition → Bool
  | leaf q => q ≠ 0
  | both l r => l.truth && r.truth
  | either l r => l.truth || r.truth
  | negation c => !c.truth

/-- The number that comes out. -/
def result : Condition → ℚ
  | leaf q => q
  | both l r => towardZero (if l.result = 0 then l.result else r.result)
  | either l r => towardZero (if l.result = 0 then r.result else l.result)
  | negation c => if c.result = 0 then 1 else 0

/-- A leaf that is nothing but a fraction. -/
def isFraction : Condition → Bool
  | leaf q => q ≠ 0 ∧ -1 < q ∧ q < 1
  | _ => false

/-- No operand of `and` or `or` is a fraction. -/
def isSharp : Condition → Bool
  | leaf _ => true
  | both l r | either l r => !l.isFraction && !r.isFraction && l.isSharp && r.isSharp
  | negation c => c.isSharp

theorem towardZero_result {c : Condition} (h : c.isFraction = false) : towardZero c.result = 0 ↔ c.result = 0 := by
  cases c with
  | leaf q =>
    rw [isFraction, decide_eq_false_iff_not] at h
    rw [result, towardZero_eq_zero_iff]
    refine ⟨fun hsmall => ?_, fun hzero => by simp [hzero]⟩
    by_contra hne
    exact h ⟨hne, hsmall⟩
  | both l r | either l r => rw [result, towardZero_intCast, Int.cast_eq_zero]
  | negation c =>
    rw [result]
    split
    · simp [show towardZero 1 = 1 from towardZero_intCast 1]
    · simp [show towardZero 0 = 0 from towardZero_intCast 0]

/-- **Without fractions among the operands logic is followed.** -/
theorem result_ne_zero_iff {c : Condition} (h : c.isSharp = true) : c.result ≠ 0 ↔ c.truth = true := by
  induction c with
  | leaf q => simp [result, truth]
  | both l r ihl ihr =>
    simp only [isSharp, Bool.and_eq_true, Bool.not_eq_true'] at h
    obtain ⟨⟨⟨-, hr⟩, hsl⟩, hsr⟩ := h
    rw [truth, Bool.and_eq_true, ← ihl hsl, ← ihr hsr, result, Int.cast_ne_zero]
    by_cases hl : l.result = 0
    · simp [hl, show towardZero 0 = 0 from towardZero_intCast 0]
    · simp [hl, towardZero_result hr]
  | either l r ihl ihr =>
    simp only [isSharp, Bool.and_eq_true, Bool.not_eq_true'] at h
    obtain ⟨⟨⟨hl, hr⟩, hsl⟩, hsr⟩ := h
    rw [truth, Bool.or_eq_true, ← ihl hsl, ← ihr hsr, result, Int.cast_ne_zero]
    by_cases hzero : l.result = 0
    · simp [hzero, towardZero_result hr]
    · simp [hzero, towardZero_result hl]
  | negation c ih =>
    rw [truth, Bool.not_eq_true', ← Bool.not_eq_true, ← ih h, result]
    split <;> simp_all

end Condition

namespace Eval

open Effect

/-- The node is a condition whose leaves, evaluated from left to right, are numbers; they lead from one world to another. -/
inductive Weighs (limits : Limits) (context : Context) : Nat → Node → World → Condition → World → Prop
  | leaf {d : Nat} {n : Node} {w w' : World} {v : Value} {x : Scalar} {q : ℚ} :
      (eval limits d n context).run w = (.ok v, w') → v.datum.scalar? = some x → x.value? = some q →
      Weighs limits context d n w (.leaf q) w'
  | both {d : Nat} {l r : Node} {w u w' : World} {cl cr : Condition} : Weighs limits context d l w cl u →
      Weighs limits context d r u cr w' → Weighs limits context (d + 1) (.binary l (.keyword .and) r) w (.both cl cr) w'
  | either {d : Nat} {l r : Node} {w u w' : World} {cl cr : Condition} : Weighs limits context d l w cl u →
      Weighs limits context d r u cr w' → Weighs limits context (d + 1) (.binary l (.keyword .or) r) w (.either cl cr) w'
  | negation {d : Nat} {op : Token} {n : Node} {w w' : World} {c : Condition} : op.lexeme = .keyword .not →
      Weighs limits context d n w c w' → Weighs limits context (d + 1) (.unary op n) w (.negation c) w'

/-- The effect gives the number and leads from one world to another. -/
def Gives (e : Effect Value) (w : World) (q : ℚ) (w' : World) : Prop :=
  ∃ v x, e.run w = (.ok v, w') ∧ v.datum.scalar? = some x ∧ x.value? = some q

theorem run_isTrue {v : Value} {x : Scalar} {q : ℚ} (hv : v.datum.scalar? = some x) (hx : x.value? = some q) (w : World) :
    v.isTrue.run w = (.ok (decide (q ≠ 0)), w) := by
  obtain ⟨datum, site⟩ := v
  cases datum with
  | null =>
    cases hv
    cases hx
    rfl
  | number y =>
    cases hv
    rw [decide_not, ← Scalar.isZero_eq hx]
    rfl
  | _ => cases hv

/-- A derived number can be given its place. -/
theorem derived_gives (v : Value) (z : Int) (f : Site → Site) (w : World) :
    Gives (v.derived (.number (.int z)) >>= (resite · f)) w z w := by
  obtain ⟨datum, site⟩ := v
  cases datum <;> exact ⟨_, _, rfl, rfl, rfl⟩

theorem binary_gives {op : BinaryOp} {l r : Value} {x y : Scalar} {z : Int} (hop : op.divides = false)
    (hl : l.datum.scalar? = some x) (hr : r.datum.scalar? = some y) (h : op.onScalars x y = .ok (.int z))
    (f : Site → Site) (w : World) : Gives (l.binary op r >>= (resite · f)) w z w := by
  have hbinary : l.binary op r = l.derived (.number (.int z)) := by
    rw [Value.binary_eq_binaryNumber hl, Value.binaryNumber, hr]
    simp only [hop, Bool.false_and, h]
    rfl
  rw [hbinary]
  exact derived_gives l z f w

theorem negation_gives {v : Value} {x : Scalar} {q : ℚ} (hv : v.datum.scalar? = some x) (hx : x.value? = some q)
    (f : Site → Site) (w : World) : Gives (v.negation >>= (resite · f)) w (if q = 0 then 1 else 0) w := by
  have hnegation : v.negation = v.isTrue >>= fun b => v.derived (.number (.ofBool !b)) := by
    obtain ⟨datum, site⟩ := v
    cases datum with
    | null | number _ => rfl
    | _ => cases hv
  have hrun : (v.negation >>= (resite · f)).run w =
      (v.derived (.number (.int (if q = 0 then 1 else 0))) >>= (resite · f)).run w := by
    rw [hnegation, run_bind, run_bind, run_isTrue hv hx, ← run_bind]
    by_cases hq : q = 0 <;> simp [hq, Scalar.ofBool]
  obtain ⟨u, y, hu, hy, hvalue⟩ := derived_gives v (if q = 0 then 1 else 0) f w
  refine ⟨u, y, hrun.trans hu, hy, ?_⟩
  rw [hvalue]
  split <;> rfl

section Nodes

variable {limits : Limits} {context : Context} {d : Nat} {w w' : World}

theorem Gives.binary {l r : Node} {lexeme : Lexeme} {op : BinaryOp} {q q' : ℚ} {z : Int} {u : World}
    (hl : Gives (eval limits d l context) w q u) (hr : Gives (eval limits d r context) u q' w')
    (hlexeme : BinaryOp.ofLexeme? lexeme = some op) (hop : op.divides = false)
    (h : ∀ {x y : Scalar}, x.value? = some q → y.value? = some q' → op.onScalars x y = .ok (.int z)) :
    Gives (eval limits (d + 1) (.binary l lexeme r) context) w z w' := by
  obtain ⟨v, x, hv, hx, hq⟩ := hl
  obtain ⟨v', y, hv', hy, hq'⟩ := hr
  obtain ⟨v'', x'', hrun, hresult⟩ :=
    binary_gives hop hx hy (h hq hq') ({ · with span := some (Node.binary l lexeme r).span }) w'
  refine ⟨v'', x'', ?_, hresult⟩
  rw [← hrun, eval, Eval.step]
  simp only [run_bind, hv, hv', hlexeme]

theorem Gives.negation {n : Node} {q : ℚ} (hn : Gives (eval limits d n context) w q w') {op : Token}
    (hop : op.lexeme = .keyword .not) :
    Gives (eval limits (d + 1) (.unary op n) context) w (if q = 0 then 1 else 0) w' := by
  obtain ⟨v, x, hv, hx, hq⟩ := hn
  obtain ⟨v', x', hrun, hresult⟩ := negation_gives hx hq ({ · with span := some (Node.unary op n).span }) w'
  refine ⟨v', x', ?_, hresult⟩
  rw [← hrun, eval, Eval.step]
  simp only [run_bind, hv, hop]

/-- What a condition comes to. -/
theorem Weighs.gives {n : Node} {c : Condition} (h : Weighs limits context d n w c w') :
    Gives (eval limits d n context) w c.result w' := by
  induction h with
  | leaf hrun hv hx => exact ⟨_, _, hrun, hv, hx⟩
  | both _ _ ihl ihr => exact ihl.binary ihr rfl rfl fun hx hy => Scalar.conj_eq hx hy
  | either _ _ ihl ihr => exact ihl.binary ihr rfl rfl fun hx hy => Scalar.disj_eq hx hy
  | negation hop _ ih => exact ih.negation hop

end Nodes

/-- **Conditions follow the logic of their parts, except for fractions.**  A condition whose leaves are numbers is evaluated to
a number, and nothing is done but what its leaves do.  It holds if its `result` is not zero, and this is the truth that logic
gives it, unless an operand of `and` or `or` is a number between minus one and one other than zero. -/
theorem eval_condition {limits : Limits} {context : Context} {d : Nat} {n : Node} {w w' : World} {c : Condition}
    (h : Weighs limits context d n w c w') :
    ∃ v x, (eval limits d n context).run w = (.ok v, w') ∧ v.datum.scalar? = some x ∧ x.value? = some c.result ∧
      (∀ u, v.isTrue.run u = (.ok (decide (c.result ≠ 0)), u)) ∧
      (c.isSharp = true → ∀ u, v.isTrue.run u = (.ok c.truth, u)) := by
  obtain ⟨v, x, hrun, hv, hx⟩ := h.gives
  refine ⟨v, x, hrun, hv, hx, run_isTrue hv hx, fun hsharp u => ?_⟩
  have htruth : decide (c.result ≠ 0) = c.truth := by
    rw [Bool.eq_iff_iff, decide_eq_true_iff, Condition.result_ne_zero_iff hsharp]
  rw [run_isTrue hv hx, htruth]

/-- A quotient of two numbers. -/
def ratio (a b : Nat) : Node := .binary (.number (.whole a) .forgotten) (.symbol .slash) (.number (.whole b) .forgotten)

/-- `(not (0 or 3/2)) or (not 1/2)`. -/
def mixedCondition : Node :=
  .binary (.unary ⟨.keyword .not, .forgotten⟩ (.binary (.number (.whole 0) .forgotten) (.keyword .or) (ratio 3 2)))
    (.keyword .or) (.unary ⟨.keyword .not, .forgotten⟩ (ratio 1 2))

theorem eval_condition_mixed : ∃ v w, (eval Limits.standard 5 mixedCondition (Session.rootContext "")).run w = (.ok v, w) ∧
    v.isTrue.run w = (.ok false, w) := by
  have hweighs : Weighs Limits.standard (Session.rootContext "") 5 mixedCondition (Session.start [] "" .standard).world
      (.either (.negation (.either (.leaf 0) (.leaf (3 / 2)))) (.negation (.leaf (1 / 2))))
      (Session.start [] "" .standard).world := by
    refine .either (.negation rfl (.either (.leaf rfl rfl ?_) (.leaf rfl rfl ?_))) (.negation rfl (.leaf rfl rfl ?_))
    all_goals decide +kernel
  have hfalse : (Condition.either (.negation (.either (.leaf 0) (.leaf (3 / 2)))) (.negation (.leaf (1 / 2)))).truth = false := by
    decide +kernel
  obtain ⟨v, -, hrun, -, -, -, htruth⟩ := eval_condition hweighs
  rw [hfalse] at htruth
  exact ⟨v, _, hrun, htruth (by decide +kernel) _⟩

/-- Both parts of `1 and 1/2` hold, but not the whole. -/
theorem fraction_dropped : ∃ c v w, Weighs Limits.standard (Session.rootContext "") 3
      (.binary (.number (.whole 1) .forgotten) (.keyword .and) (ratio 1 2)) w c w ∧ c.truth = true ∧
    (eval Limits.standard 3 (.binary (.number (.whole 1) .forgotten) (.keyword .and) (ratio 1 2))
      (Session.rootContext "")).run w = (.ok v, w) ∧ v.isTrue.run w = (.ok false, w) := by
  have hweighs : Weighs Limits.standard (Session.rootContext "") 3
      (.binary (.number (.whole 1) .forgotten) (.keyword .and) (ratio 1 2)) (Session.start [] "" .standard).world
      (.both (.leaf 1) (.leaf (1 / 2))) (Session.start [] "" .standard).world := by
    refine .both (.leaf rfl rfl ?_) (.leaf rfl rfl ?_)
    all_goals decide +kernel
  obtain ⟨v, x, hrun, hv, hx⟩ := hweighs.gives
  refine ⟨_, v, _, hweighs, by decide +kernel, hrun, ?_⟩
  have hresult : (Condition.both (.leaf 1) (.leaf (1 / 2))).result = 0 := by decide +kernel
  rw [run_isTrue hv hx, hresult]
  rfl

end Eval

end Scriptlet
