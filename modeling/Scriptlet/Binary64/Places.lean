import Scriptlet.Binary64.Text
/-!
# Doubles with a chosen number of digits

The exact value is rounded to a decimal place, ties to even, and laid out in one of three styles: with a fixed number of
digits after the point, with an exponent, or in whichever of the two suits the size of the number.  All texts here are
without a sign.
-/
namespace Scriptlet.Binary64

/-- The value `mantissa * 2 ^ exponent` in units of `10 ^ k`, rounded to nearest, ties to even. -/
def roundAt (mantissa : Nat) (exponent k : Int) : Nat :=
  let (n, d) := scaled mantissa 1 exponent
  roundDiv (n * Nat.pow 10 (-k).toNat) (d * Nat.pow 10 k.toNat)

/-- The value rounded to `count` digits: rounding up to a power of ten moves the first digit. -/
def significant (mantissa : Nat) (exponent : Int) (count : Nat) : Decimal :=
  if mantissa = 0 then ⟨0, 1 - count⟩
  else
    let last := (interval mantissa exponent).magnitude + 1 - count
    let n := roundAt mantissa exponent last
    if n < Nat.pow 10 count then ⟨n, last⟩ else ⟨n / 10, last + 1⟩

/-- The digits of a natural number, with zeros before them up to `count` digits. -/
def padded (count n : Nat) : List Char :=
  let digits := (toString n).toList
  List.replicate (count - digits.length) '0' ++ digits

/-- Whole digits and fraction, with a point between them; a point that nothing follows is kept only if `pointed`. -/
def withPoint (pointed : Bool) (whole fraction : List Char) : String :=
  String.ofList whole ++ (if fraction.isEmpty && !pointed then "" else "." ++ String.ofList fraction)

/-- The digits without the zeros they end in. -/
def withoutZeros (digits : List Char) : List Char := (digits.reverse.dropWhile (· == '0')).reverse

inductive Style where
  | fixed
  | scientific
  | general
  deriving DecidableEq, Repr

/-- The text of `mantissa * 2 ^ exponent`.  `precision` is the number of digits after the point, but of all digits in the
general style, which drops the zeros at the end unless `pointed`. -/
def Style.arrange (pointed : Bool) (precision mantissa : Nat) (exponent : Int) : Style → String
  | fixed =>
    let digits := padded (precision + 1) (roundAt mantissa exponent (-precision))
    withPoint pointed (digits.take (digits.length - precision)) (digits.drop (digits.length - precision))
  | scientific =>
    let d := significant mantissa exponent (precision + 1)
    let digits := padded (precision + 1) d.digits
    withPoint pointed (digits.take 1) (digits.drop 1) ++ exponentText (d.exponent + precision)
  | general =>
    let count := max precision 1
    let d := significant mantissa exponent count
    let digits := padded count d.digits
    let top := d.exponent + count - 1
    let trim := if pointed then id else withoutZeros
    if top < -4 ∨ count ≤ top then withPoint pointed (digits.take 1) (trim (digits.drop 1)) ++ exponentText top
    else if top < 0 then withPoint pointed ['0'] (List.replicate (-top - 1).toNat '0' ++ trim digits)
    else withPoint pointed (digits.take (top.toNat + 1)) (trim (digits.drop (top.toNat + 1)))

/-- The text of the absolute value of a double. -/
def Style.text (style : Style) (pointed : Bool) (precision : Nat) (x : Float) : String :=
  if x.isNaN then "nan"
  else if x.isInf then "inf"
  else style.arrange pointed precision (parts x).mantissa (parts x).exponent

end Scriptlet.Binary64
