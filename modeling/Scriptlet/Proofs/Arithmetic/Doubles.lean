import Mathlib.Algebra.Order.Field.Power
import Mathlib.Data.Rat.Floor
import Scriptlet.Scalar.Arithmetic
/-!
# Numbers as rationals

An integer and a finite double are rational numbers (`Scalar.value?`).  A double is compared with zero in two ways, as a double
and by its mantissa, and is made an integer by a third; all three agree with the rational (`isZero_eq`, `isNonzero_eq`,
`toInt_eq`).  What is lost in the last is the fraction, which is all there is to a number between minus one and one
(`towardZero_eq_zero_iff`).
-/
namespace Scriptlet

/-- A rational number without its fraction. -/
def towardZero (q : ℚ) : ℤ := if q < 0 then ⌈q⌉ else ⌊q⌋

theorem towardZero_of_nonneg {q : ℚ} (h : 0 ≤ q) : towardZero q = ⌊q⌋ := if_neg (not_lt.2 h)

theorem towardZero_neg (q : ℚ) : towardZero (-q) = -towardZero q := by
  unfold towardZero
  rcases lt_trichotomy q 0 with hneg | rfl | hpos
  · rw [if_neg (not_lt.2 (neg_nonneg.2 hneg.le)), if_pos hneg, Int.floor_neg]
  · simp
  · rw [if_pos (neg_lt_zero.2 hpos), if_neg (not_lt.2 hpos.le), Int.ceil_neg]

theorem towardZero_intCast (n : ℤ) : towardZero n = n := by
  unfold towardZero
  split
  · exact Int.ceil_intCast n
  · exact Int.floor_intCast n

/-- Only numbers below one in size lose all of what they are. -/
theorem towardZero_eq_zero_iff (q : ℚ) : towardZero q = 0 ↔ -1 < q ∧ q < 1 := by
  unfold towardZero
  split
  · next hneg =>
    rw [Int.ceil_eq_zero_iff]
    simp [hneg.le, lt_trans hneg one_pos]
  · next hpos =>
    rw [Int.floor_eq_zero_iff]
    simp [not_lt.1 hpos, lt_of_lt_of_le neg_one_lt_zero (not_lt.1 hpos)]

namespace Binary64

/-- The number that sign, mantissa and exponent stand for. -/
def Parts.value (p : Parts) : ℚ := if p.negative then -(p.mantissa * 2 ^ p.exponent) else p.mantissa * 2 ^ p.exponent

theorem Parts.value_eq_zero_iff (p : Parts) : p.value = 0 ↔ p.mantissa = 0 := by
  have hpower : (2 : ℚ) ^ p.exponent ≠ 0 := zpow_ne_zero _ two_ne_zero
  unfold Parts.value
  split <;> simp [hpower]

/-! ## Truncation -/

theorem scaled_one (m : Nat) (e : Int) : ((scaled m 1 e).1 : ℚ) / ((scaled m 1 e).2 : ℚ) = m * 2 ^ e := by
  unfold scaled
  split
  · next he =>
    lift e to ℕ using he
    simp
  · next he =>
    obtain ⟨k, rfl⟩ : ∃ k : ℕ, e = -k := ⟨(-e).toNat, by omega⟩
    simp [div_eq_mul_inv]

theorem truncate_eq (x : Float) : truncate x = towardZero (parts x).value := by
  have hpos : (0 : ℚ) ≤ (parts x).mantissa * 2 ^ (parts x).exponent := by positivity
  have hfloor : towardZero ((parts x).mantissa * 2 ^ (parts x).exponent) =
      ((scaled (parts x).mantissa 1 (parts x).exponent).1 / (scaled (parts x).mantissa 1 (parts x).exponent).2 : Nat) := by
    rw [towardZero_of_nonneg hpos, ← scaled_one, Rat.floor_natCast_div_natCast]
    rfl
  simp only [truncate, ← hfloor, Parts.value]
  split
  · rw [towardZero_neg]
  · rfl

/-! ## Comparison with zero -/

/-- By the mantissa. -/
theorem compareInt?_zero {x : Float} (hnan : x.isNaN = false) (hinf : x.isInf = false) :
    (compareInt? 0 x == some .eq) = decide ((parts x).value = 0) := by
  have hsign : ((if (parts x).negative = true then -((parts x).mantissa : Int) else (parts x).mantissa) = 0) ↔
      (parts x).mantissa = 0 := by
    split <;> omega
  have hpower : ∀ k : Nat, ((Nat.pow 2 k : Nat) : Int) ≠ 0 := fun k => by simp
  rw [Bool.eq_iff_iff, decide_eq_true_iff, Parts.value_eq_zero_iff, ← hsign, compareInt?, hnan, hinf]
  simp only [Bool.false_eq_true, if_false]
  split
  · rw [beq_iff_eq, Option.some_inj, compare_eq_iff_eq, eq_comm, mul_eq_zero, or_iff_left (hpower _)]
  · rw [beq_iff_eq, Option.some_inj, compare_eq_iff_eq, zero_mul, eq_comm]

open Float.Model

/-- The bits of a double below its exponent. -/
abbrev fractionBits (x : Float) : BitVec 52 := @UnpackedFloat.unpackMantissa Format.binary64 x.toModel.toBits.toBitVec

/-- The bits of the exponent of a double. -/
abbrev exponentBits (x : Float) : BitVec 11 := @UnpackedFloat.unpackExponent Format.binary64 x.toModel.toBits.toBitVec

theorem mantissa_eq_zero_iff (x : Float) : (parts x).mantissa = 0 ↔ exponentBits x = 0#11 ∧ fractionBits x = 0#52 := by
  have hfraction : (fractionBits x).toNat = x.toBits.toNat % Nat.pow 2 52 := by
    simp [fractionBits, UnpackedFloat.unpackMantissa]
    rfl
  have hexponent : (exponentBits x).toNat = x.toBits.toNat / Nat.pow 2 52 % Nat.pow 2 11 := by
    simp [exponentBits, UnpackedFloat.unpackExponent, Nat.shiftRight_eq_div_pow]
    rfl
  have hpower : 0 < Nat.pow 2 52 := Nat.two_pow_pos 52
  rw [← BitVec.toNat_inj, ← BitVec.toNat_inj, hfraction, hexponent, parts]
  split
  · next hfield => simp [hfield]
  · next hfield =>
    -- with an exponent there is a leading bit that is not among the bits of the fraction
    simp only [BitVec.toNat_ofNat, Nat.zero_mod, hfield, false_and, iff_false]
    omega

theorem finite_beq_zero (s t : UnpackedFloat.Sign) (m : Nat) (e : Int) (h : 0 < m) :
    (UnpackedFloat.finite s m e h).beq (.zero t) = false := by
  cases s <;> rfl

/-- As a double. -/
theorem beq_zero {x : Float} (hnan : x.isNaN = false) (hinf : x.isInf = false) :
    (x == 0) = decide ((parts x).value = 0) := by
  have hbeq : (x == 0) = x.toModel.unpack.beq (.zero .positive) := rfl
  have hnan : x.toModel.unpack.isNaN = false := hnan
  have hinf : x.toModel.unpack.isInf = false := hinf
  rw [hbeq, Bool.eq_iff_iff, decide_eq_true_iff, Parts.value_eq_zero_iff, mantissa_eq_zero_iff]
  delta Float.Model.unpack UnpackedFloat.unpack at hnan hinf ⊢
  dsimp only at hnan hinf ⊢
  by_cases hexponent : exponentBits x = -1#11
  · -- only infinities and what is not a number have this exponent
    by_cases hfraction : fractionBits x = 0#52
    · rw [if_pos hexponent, if_pos hfraction] at hinf
      cases hinf
    · rw [if_pos hexponent, if_neg hfraction] at hnan
      cases hnan
  · rw [if_neg hexponent]
    by_cases hzero : exponentBits x = 0#11
    · rw [if_pos hzero]
      by_cases hfraction : fractionBits x = 0#52
      · rw [dif_pos hfraction]
        exact iff_of_true rfl ⟨hzero, hfraction⟩
      · rw [dif_neg hfraction, finite_beq_zero]
        exact iff_of_false Bool.false_ne_true fun h => hfraction h.2
    · rw [if_neg hzero, finite_beq_zero]
      exact iff_of_false Bool.false_ne_true fun h => hzero h.1

end Binary64

/-! ## Scalars -/

namespace Scalar

open Binary64

/-- The number that an integer or a finite double is. -/
def value? : Scalar → Option ℚ
  | int n => some n
  | float x => if x.isNaN || x.isInf then none else some (parts x).value
  | complex _ | text _ => none

/-- What has a value is an integer or a finite double. -/
theorem value?_eq_some {x : Scalar} {q : ℚ} (h : x.value? = some q) :
    (∃ n : ℤ, x = .int n ∧ q = n) ∨
    ∃ y : Float, x = .float y ∧ y.isNaN = false ∧ y.isInf = false ∧ q = (parts y).value := by
  cases x with
  | int n => exact .inl ⟨n, rfl, (Option.some.inj h).symm⟩
  | float y =>
    rw [value?] at h
    split at h
    · cases h
    · next hfinite =>
      obtain ⟨hnan, hinf⟩ := Bool.or_eq_false_iff.1 (Bool.eq_false_iff.2 hfinite)
      exact .inr ⟨y, rfl, hnan, hinf, (Option.some.inj h).symm⟩
  | complex z => cases h
  | text s => cases h

section Value

variable {x : Scalar} {q : ℚ} (h : x.value? = some q)

include h

theorem isZero_eq : x.isZero = decide (q = 0) := by
  rcases value?_eq_some h with ⟨n, rfl, rfl⟩ | ⟨y, rfl, hnan, hinf, rfl⟩
  · rw [isZero, beq, Bool.eq_iff_iff, beq_iff_eq, decide_eq_true_iff, Int.cast_eq_zero]
  · exact compareInt?_zero hnan hinf

theorem isNonzero_eq : x.isNonzero = decide (q ≠ 0) := by
  rcases value?_eq_some h with ⟨n, rfl, rfl⟩ | ⟨y, rfl, hnan, hinf, rfl⟩
  · rw [isNonzero, Bool.eq_iff_iff, bne_iff_ne, decide_eq_true_iff, Int.cast_ne_zero]
  · rw [isNonzero, bne, beq_zero hnan hinf, decide_not]

theorem toInt_eq : x.toInt = .ok (towardZero q) := by
  rcases value?_eq_some h with ⟨n, rfl, rfl⟩ | ⟨y, rfl, hnan, hinf, rfl⟩
  · rw [towardZero_intCast]
    rfl
  · rw [toInt, hnan, hinf, truncate_eq]
    rfl

variable {y : Scalar} {r : ℚ} (hy : y.value? = some r)

include hy

/-- `and` makes an integer of the operand that decides it. -/
theorem conj_eq : x.conj y = .ok (.int (towardZero (if q = 0 then q else r))) := by
  rw [conj, isNonzero_eq h]
  by_cases hq : q = 0
  · rw [if_neg (by simpa using hq), if_pos hq, toInt_eq h]
    rfl
  · rw [if_pos (by simpa using hq), if_neg hq, toInt_eq hy]
    rfl

/-- So does `or`. -/
theorem disj_eq : x.disj y = .ok (.int (towardZero (if q = 0 then r else q))) := by
  rw [disj, isNonzero_eq h]
  by_cases hq : q = 0
  · rw [if_neg (by simpa using hq), if_pos hq, toInt_eq hy]
    rfl
  · rw [if_pos (by simpa using hq), if_neg hq, toInt_eq h]
    rfl

end Value

end Scalar

end Scriptlet
