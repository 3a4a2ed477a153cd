import Scriptlet.Scalar.Template
/-!
# Arithmetic on scalars

Integers are exact.  Their quotient is the double nearest to the true quotient; the whole quotient rounds down, and the
remainder takes the sign of the divisor.  Doubles follow the same two rules, with the remainder computed exactly before
the quotient is derived from it.
-/
namespace Scriptlet.Scalar

/-- Two numbers brought to the same kind. -/
inductive Operands where
  | ints (a b : Int)
  | floats (x y : Float)
  | complexes (z w : Complex)

def toComplex : Scalar → Except Fault Complex
  | int n => return Complex.ofReal (← toFloat n)
  | float x => .ok (Complex.ofReal x)
  | complex z => .ok z
  | text _ => .error .mismatch

def operands : Scalar → Scalar → Except Fault Operands
  | text _, _ => .error .mismatch
  | _, text _ => .error .mismatch
  | int a, int b => .ok (.ints a b)
  | int a, float y => return .floats (← toFloat a) y
  | float x, int b => return .floats x (← toFloat b)
  | float x, float y => .ok (.floats x y)
  | x, y => return .complexes (← x.toComplex) (← y.toComplex)

/-- Two numbers of the real line brought to the same kind. -/
inductive RealOperands where
  | ints (a b : Int)
  | floats (x y : Float)

/-- The operands of an operation that only the real line has. -/
def realOperands : Scalar → Scalar → Except Fault RealOperands
  | int a, int b => .ok (.ints a b)
  | int a, float y => return .floats (← toFloat a) y
  | float x, int b => return .floats x (← toFloat b)
  | float x, float y => .ok (.floats x y)
  | _, _ => .error .mismatch

/-! ## Repetition

A text or a list times an integer is that many copies of it, none if the integer is negative.  A count that does not fit
a machine word is out of range whatever is repeated. -/

/-- How many copies of something of `size` elements an integer asks for; `tooLong` is the fault if their number does not
fit a machine word. -/
def copies (tooLong : Fault) (size : Nat) (n : Int) : Except Fault Nat :=
  if n < -Nat.pow 2 63 ∨ Nat.pow 2 63 ≤ n then .error .outOfRange
  else if Nat.pow 2 63 ≤ size * n.toNat then .error tooLong
  else if sizeLimit < size * n.toNat then .error .outOfMemory
  else if size = 0 then .ok 0
  else .ok n.toNat

/-- Copies of a text, as many as a scalar says. -/
def repeatText (s : String) : Scalar → Except Fault String
  | int n => return Repetition.times (· ++ ·) "" (← copies .outOfRange s.length n) s
  | _ => .error .mismatch

/-! ## The four operations -/

def add : Scalar → Scalar → Except Fault Scalar
  | text s, text t => .ok (.text (s ++ t))
  | x, y => do
    match ← operands x y with
    | .ints a b => return .int (a + b)
    | .floats a b => return .float (a + b)
    | .complexes a b => return .complex (a.add b)

def sub (x y : Scalar) : Except Fault Scalar := do
  match ← operands x y with
  | .ints a b => return .int (a - b)
  | .floats a b => return .float (a - b)
  | .complexes a b => return .complex (a.sub b)

def mul : Scalar → Scalar → Except Fault Scalar
  | text s, y => return .text (← repeatText s y)
  | x, text t => return .text (← repeatText t x)
  | x, y => do
    match ← operands x y with
    | .ints a b => return .int (a * b)
    | .floats a b => return .float (a * b)
    | .complexes a b => return .complex (a.mul b)

/-- The quotient by a divisor other than zero. -/
def div (x y : Scalar) : Except Fault Scalar := do
  match ← operands x y with
  | .ints a b =>
    match Binary64.ofFraction? (decide (a < 0) != decide (b < 0)) a.natAbs b.natAbs with
    | some q => return .float q
    | none => .error .outOfRange
  | .floats a b => return .float (a / b)
  | .complexes a b => return .complex (← a.div b)

/-! ## Whole quotient and remainder -/

/-- The remainder with the sign of the divisor, which is not zero. -/
def floatMod (x y : Float) : Float :=
  let r := Binary64.remainder x y
  if r == 0 then Binary64.negate (Binary64.signed y) 0
  else if decide (y < 0) != decide (r < 0) then r + y
  else r

/-- The quotient rounded down, by a divisor other than zero.  It is derived from the exact remainder, so it is a whole
number up to one rounding, which is taken to the nearest whole number. -/
def floatFloorDiv (x y : Float) : Float :=
  let r := Binary64.remainder x y
  let q := (x - r) / y
  let q := if r != 0 && decide (y < 0) != decide (r < 0) then q - 1 else q
  if q == 0 then Binary64.negate (Binary64.signed (x / y)) 0
  else
    let f := q.floor
    if q - f > 0.5 then f + 1 else f

/-- The whole quotient by a divisor other than zero. -/
def floorDiv (x y : Scalar) : Except Fault Scalar := do
  match ← realOperands x y with
  | .ints a b => return .int (a.fdiv b)
  | .floats a b => return .float (floatFloorDiv a b)

/-- The remainder; that of a text is the text with the other operand filled in. -/
def mod : Scalar → Scalar → Except Fault Scalar
  | text s, y => return .text (← Template.fill s y)
  | x, y => do
    match ← realOperands x y with
    | .ints a b => if b = 0 then .error .zeroDivisor else return .int (a.fmod b)
    | .floats a b => if b == 0 then .error .zeroDivisor else return .float (floatMod a b)

/-! ## Powers -/

/-- The most binary digits that a power may have. -/
def powerLimit : Nat := Nat.pow 2 32

/-- The power of an integer to a natural number.  The powers of zero, one and minus one stay small whatever the exponent. -/
def intPow (a : Int) (n : Nat) : Except Fault Int :=
  let size := a.natAbs
  if size ≤ 1 then .ok (if n = 0 then 1 else if n % 2 = 0 then size else a)
  else if powerLimit ≤ size.log2 * n then .error .outOfMemory
  else
    let p : Int := size.pow n
    .ok (if a < 0 ∧ n % 2 = 1 then -p else p)

/-- The power of two doubles.  The cases that involve zero, one, an infinity or a NaN are settled first; a negative base
needs a whole exponent, and a fraction makes the power complex. -/
def floatPow (x y : Float) : Except Fault Scalar :=
  if y == 0 then .ok (.float 1)
  else if x.isNaN then .ok (.float x)
  else if y.isNaN then .ok (.float (if x == 1 then 1 else y))
  else if y.isInf then
    if x.abs == 1 then .ok (.float 1)
    else if decide (0 < y) == decide (1 < x.abs) then .ok (.float y.abs)
    else .ok (.float 0)
  else if x.isInf then
    if 0 < y then .ok (.float (if Binary64.isOdd y then x else x.abs))
    else .ok (.float (if Binary64.isOdd y then Binary64.negate (Binary64.signed x) 0 else 0))
  else if x == 0 then
    if y < 0 then .error .zeroDivisor else .ok (.float (if Binary64.isOdd y then x else 0))
  else if x < 0 && y != y.floor then
    return .complex (← (Complex.ofReal x).pow (Complex.ofReal y))
  else
    let p := Float.pow x.abs y
    if p.isInf then .error .outOfRange
    else .ok (.float (Binary64.negate (x < 0 && Binary64.isOdd y) p))

def pow (x y : Scalar) : Except Fault Scalar := do
  match ← operands x y with
  | .ints a b => if 0 ≤ b then return .int (← intPow a b.toNat) else floatPow (← toFloat a) (← toFloat b)
  | .floats a b => floatPow a b
  | .complexes a b => return .complex (← a.pow b)

/-! ## Conditions

`and` and `or` choose one of their operands and make it an integer. -/

def conj (x y : Scalar) : Except Fault Scalar := return .int (← (if x.isNonzero then y else x).toInt)

def disj (x y : Scalar) : Except Fault Scalar := return .int (← (if x.isNonzero then x else y).toInt)

end Scriptlet.Scalar
