import Scriptlet.Binary64.Exact
/-!
# The text of a double

The digits are the fewest that read back as the same double, and of those the nearest to it.  They are found in exact
arithmetic: for one digit, two digits and so on, the two multiples of a power of ten on either side of the value are
tested against the interval of reals that round to it (its ends belong to it when the mantissa is even).  The first power
of ten with a hit gives the digits; of two hits the nearer is taken, and of two equally near the even one.

`Layout` holds the decisions of the layout: where positional notation ends, and whether a whole number keeps its `.0`.
-/
namespace Scriptlet.Binary64

/-- A positive decimal `digits * 10 ^ exponent`. -/
structure Decimal where
  digits : Nat
  exponent : Int
  deriving DecidableEq, Repr

/-! ## The digits

All comparisons are between multiples of a quarter of the last place: the value is `4 * mantissa` quarters, its neighbours'
midpoints are two quarters away, but only one quarter below a power of two, where the doubles lie twice as dense. -/

/-- A positive double in quarters of its last place, with the ends of its rounding interval. -/
structure Interval where
  value : Nat
  low : Nat
  high : Nat
  closed : Bool
  exponent : Int

def interval (mantissa : Nat) (exponent : Int) : Interval where
  value := 4 * mantissa
  low := if mantissa = Nat.pow 2 52 ∧ -1074 < exponent then 4 * mantissa - 1 else 4 * mantissa - 2
  high := 4 * mantissa + 2
  closed := mantissa % 2 = 0
  exponent := exponent - 2

/-- The factors that turn a multiple of `10 ^ k` and a number of quarters into the same unit. -/
def Interval.units (i : Interval) (k : Int) : Nat × Nat :=
  (Nat.pow 10 k.toNat * Nat.pow 2 (-i.exponent).toNat, Nat.pow 10 (-k).toNat * Nat.pow 2 i.exponent.toNat)

/-- The multiple `d * 10 ^ k` rounds to the double. -/
def Interval.contains (i : Interval) (k : Int) (d : Nat) : Bool :=
  let (ten, quarter) := i.units k
  if i.closed then i.low * quarter ≤ d * ten && d * ten ≤ i.high * quarter
  else i.low * quarter < d * ten && d * ten < i.high * quarter

/-- The multiple of `10 ^ k` nearest to the value among its two neighbours that round to the double, if one does. -/
def Interval.pick? (i : Interval) (k : Int) : Option Nat :=
  let (ten, quarter) := i.units k
  let below := i.value * quarter / ten
  let rest := i.value * quarter % ten
  match i.contains k below, i.contains k (below + 1) with
  | true, true =>
    if 2 * rest < ten then some below else if ten < 2 * rest then some (below + 1) else some (below + below % 2)
  | true, false => some below
  | false, true => some (below + 1)
  | false, false => none

/-- The value is at least `10 ^ k`. -/
def Interval.reaches (i : Interval) (k : Int) : Bool :=
  let (ten, quarter) := i.units k
  ten ≤ i.value * quarter

/-- The exponent of the value's first decimal digit: the binary exponent gives it up to one. -/
def Interval.magnitude (i : Interval) : Int :=
  let guess := ((i.value.log2 : Int) + i.exponent) * 30103 / 100000
  if i.reaches (guess + 1) then guess + 1 else if i.reaches guess then guess else guess - 1

/-- Removes factors of ten, at most `fuel` of them. -/
def Decimal.trim : Nat → Decimal → Decimal
  | 0, d => d
  | fuel + 1, d => if d.digits % 10 = 0 then trim fuel ⟨d.digits / 10, d.exponent + 1⟩ else d

/-- Tries one more digit at a time; seventeen always suffice. -/
def Interval.search (i : Interval) (top : Int) : (left count : Nat) → Decimal
  | 0, count => ⟨i.value * (i.units (top - count)).2 / (i.units (top - count)).1, top - count⟩
  | left + 1, count =>
    match i.pick? (top - count) with
    | some d => ⟨d, top - count⟩
    | none => i.search top left (count + 1)

/-- The shortest decimal that reads back as the positive double `mantissa * 2 ^ exponent`. -/
def shortest (mantissa : Nat) (exponent : Int) : Decimal :=
  let i := interval mantissa exponent
  (i.search i.magnitude 17 0).trim 17

/-! ## The layout -/

/-- How digits are laid out: positionally while the exponent of the first digit is in the window, and a whole number
with a trailing `.0` if `pointed`. -/
structure Layout where
  lowest : Int
  limit : Int
  pointed : Bool

/-- The decimal exponent with its sign and at least two digits. -/
def exponentText (e : Int) : String :=
  let digits := toString e.natAbs
  (if e < 0 then "e-" else "e+") ++ (if e.natAbs < 10 then "0" ++ digits else digits)

def zeros (n : Nat) : String := String.ofList (List.replicate n '0')

def Layout.arrange (n : Layout) (d : Decimal) : String :=
  let digits := (toString d.digits).toList
  let count := digits.length
  let top := d.exponent + count - 1
  if n.lowest ≤ top ∧ top < n.limit then
    if top < 0 then "0." ++ zeros (-top - 1).toNat ++ String.ofList digits
    else
      let whole := top.toNat + 1
      if count ≤ whole then String.ofList digits ++ zeros (whole - count) ++ (if n.pointed then ".0" else "")
      else String.ofList (digits.take whole) ++ "." ++ String.ofList (digits.drop whole)
  else
    let tail := digits.drop 1
    String.ofList (digits.take 1) ++ (if tail.isEmpty then "" else "." ++ String.ofList tail) ++ exponentText top

/-- The text of a double. -/
def Layout.text (n : Layout) (x : Float) : String :=
  if x.isNaN then "nan"
  else
    let p := parts x
    let sign := if p.negative then "-" else ""
    if x.isInf then sign ++ "inf"
    else if p.mantissa = 0 then sign ++ (if n.pointed then "0.0" else "0")
    else sign ++ n.arrange (shortest p.mantissa p.exponent)

end Scriptlet.Binary64
