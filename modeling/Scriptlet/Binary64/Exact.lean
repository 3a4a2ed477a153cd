/-!
# Double-precision numbers as exact fractions

A finite double is `± mantissa * 2 ^ exponent` with natural mantissa.  Everything that must not be rounded twice goes
through this view: rounding a fraction to the nearest double (`ofFraction?`), the remainder that keeps the sign of the
dividend (`remainder`), truncation to an integer, and the comparison of a double with an integer of any size.
-/
namespace Scriptlet.Binary64

/-- The exact value `± mantissa * 2 ^ exponent` of a finite double. -/
structure Parts where
  negative : Bool
  mantissa : Nat
  exponent : Int
  deriving DecidableEq, Repr

/-- Reads sign, mantissa and exponent off the bits; meaningful for finite doubles. -/
def parts (x : Float) : Parts :=
  let bits := x.toBits.toNat
  let field : Nat := bits / Nat.pow 2 52 % Nat.pow 2 11
  let fraction : Nat := bits % Nat.pow 2 52
  let negative := bits / Nat.pow 2 63 = 1
  if field = 0 then ⟨negative, fraction, -1074⟩ else ⟨negative, fraction + Nat.pow 2 52, (field : Int) - 1075⟩

/-- The sign bit is set. -/
def signed (x : Float) : Bool := (parts x).negative

def infinity : Float := Float.ofBits 0x7ff0000000000000

def nan : Float := Float.ofBits 0x7ff8000000000000

def negate (negative : Bool) (x : Float) : Float := if negative then -x else x

/-! ## Rounding a fraction

The exponent of the last place is chosen so that the quotient has 53 bits, and never below the exponent of the smallest
double; the quotient is rounded to nearest with ties to even.  Packing adds the mantissa to the exponent field, so a
mantissa that rounds up to `2 ^ 53` carries into the exponent by itself. -/

/-- The fraction `num * 2 ^ e / den` as a pair of naturals, for an exponent of either sign. -/
def scaled (num den : Nat) (e : Int) : Nat × Nat :=
  if 0 ≤ e then (num * Nat.pow 2 e.toNat, den) else (num, den * Nat.pow 2 (-e).toNat)

/-- The quotient rounded to the nearest natural, ties to even. -/
def roundDiv (num den : Nat) : Nat :=
  let q := num / den
  let r := num % den
  if 2 * r < den then q else if den < 2 * r then q + 1 else q + q % 2

/-- The exponent of the last place of the double nearest to `num / den`. -/
def lastPlace (num den : Nat) : Int :=
  let e : Int := max ((num.log2 : Int) - den.log2 - 52) (-1074)
  let (n, d) := scaled num den (-e)
  if n / d < Nat.pow 2 52 then max (e - 1) (-1074) else e

/-- The double nearest to the fraction, or nothing if it is too large for one. -/
def ofFraction? (negative : Bool) (num den : Nat) : Option Float :=
  if num = 0 then some (negate negative 0)
  else
    let e := lastPlace num den
    let (n, d) := scaled num den (-e)
    let bits := (e + 1074).toNat * Nat.pow 2 52 + roundDiv n d
    if bits < 2047 * Nat.pow 2 52 then some (negate negative (Float.ofBits bits.toUInt64)) else none

/-- The double nearest to an integer, or nothing if it is too large for one. -/
def ofInt? (n : Int) : Option Float := ofFraction? (n < 0) n.natAbs 1

/-- The double nearest to a natural number; infinity if it is too large. -/
def ofNat (n : Nat) : Float := (ofFraction? false n 1).getD infinity

/-! ## Operations that are exact, or rounded once -/

/-- The remainder of the division that truncates: exact, with the sign of `x`. -/
def remainder (x y : Float) : Float :=
  if x.isNaN || y.isNaN || x.isInf || y == 0 then nan
  else if y.isInf then x
  else
    let p := parts x
    let q := parts y
    let e := min p.exponent q.exponent
    let a := p.mantissa * Nat.pow 2 (p.exponent - e).toNat
    let b := q.mantissa * Nat.pow 2 (q.exponent - e).toNat
    let (n, d) := scaled (a % b) 1 e
    (ofFraction? p.negative n d).getD nan

/-- The integer part of a finite double. -/
def truncate (x : Float) : Int :=
  let p := parts x
  let (n, d) := scaled p.mantissa 1 p.exponent
  if p.negative then -((n / d : Nat) : Int) else (n / d : Nat)

/-- A whole odd number. -/
def isOdd (x : Float) : Bool :=
  x.isFinite && x == x.floor && truncate x % 2 != 0

/-- Compares an integer with a double exactly; nothing compares with a NaN. -/
def compareInt? (n : Int) (x : Float) : Option Ordering :=
  if x.isNaN then none
  else if x.isInf then some (if signed x then .gt else .lt)
  else
    let p := parts x
    let m : Int := if p.negative then -(p.mantissa : Int) else p.mantissa
    if 0 ≤ p.exponent then some (compare n (m * Nat.pow 2 p.exponent.toNat))
    else some (compare (n * Nat.pow 2 (-p.exponent).toNat) m)

/-- Compares two doubles; nothing compares with a NaN. -/
def compare? (x y : Float) : Option Ordering :=
  if x < y then some .lt else if x == y then some .eq else if x > y then some .gt else none

end Scriptlet.Binary64
