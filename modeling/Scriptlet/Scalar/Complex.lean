import Scriptlet.Fault
import Scriptlet.Repetition
import Scriptlet.Binary64.Text
/-!
# Complex numbers

A negative number raised to a fraction leaves the real line, so the language has complex numbers, and the operations of
the field on them.  Division scales by the larger component of the divisor.  A power with a small whole exponent is
computed by repeated squaring, any other in polar form.
-/
namespace Scriptlet

structure Complex where
  re : Float
  im : Float

namespace Complex

def ofReal (x : Float) : Complex := ⟨x, 0⟩

def one : Complex := ⟨1, 0⟩

def add (a b : Complex) : Complex := ⟨a.re + b.re, a.im + b.im⟩

def sub (a b : Complex) : Complex := ⟨a.re - b.re, a.im - b.im⟩

def mul (a b : Complex) : Complex := ⟨a.re * b.re - a.im * b.im, a.re * b.im + a.im * b.re⟩

def isZero (a : Complex) : Bool := a.re == 0 && a.im == 0

def beq (a b : Complex) : Bool := a.re == b.re && a.im == b.im

def div (a b : Complex) : Except Fault Complex :=
  if b.re.abs ≥ b.im.abs then
    if b.re == 0 then .error .zeroDivisor
    else
      let ratio := b.im / b.re
      let denom := b.re + b.im * ratio
      .ok ⟨(a.re + a.im * ratio) / denom, (a.im - a.re * ratio) / denom⟩
  else if b.im.abs ≥ b.re.abs then
    let ratio := b.re / b.im
    let denom := b.re * ratio + b.im
    .ok ⟨(a.re * ratio + a.im) / denom, (a.im * ratio - a.re) / denom⟩
  else .ok ⟨Binary64.nan, Binary64.nan⟩

def powNat (a : Complex) (n : Nat) : Complex := Repetition.times mul one n a

/-- The hypotenuse over legs `a ≥ b ≥ 0`: the square root of the sum of the squares, corrected by what its own square is
off. -/
def hypotenuse (a b : Float) : Float :=
  let h := (a * a + b * b).sqrt
  let excess :=
    if h ≤ 2 * b then
      let d := h - b
      a * (2 * d - a) + (d - 2 * (a - b)) * d
    else
      let d := h - a
      2 * d * (a - 2 * b) + ((4 * d - b) * b + d * d)
  h - excess / (2 * h)

/-- The absolute value.  A component that is too small to count is not squared, and both are scaled if their squares would
leave the range. -/
def abs (z : Complex) : Float :=
  let x := z.re.abs
  let y := z.im.abs
  let a := if x < y then y else x
  let b := if x < y then x else y
  let scale := Float.scaleB 1 (-600)
  if x.isInf || y.isInf then Binary64.infinity
  else if x.isNaN || y.isNaN then Binary64.nan
  else if b * Float.scaleB 1 54 ≤ a then a + b
  else if a > Float.scaleB 1 511 then hypotenuse (a * scale) (b * scale) / scale
  else if b < Float.scaleB 1 (-459) then hypotenuse (a / scale) (b / scale) * scale
  else hypotenuse a b

/-- The power in polar form, for a base other than zero.  An angle that has grown beyond all bounds points nowhere. -/
def powPolar (a b : Complex) : Except Fault Complex :=
  let length := a.abs
  let angle := Float.atan2 a.im a.re
  let radius := Float.pow length b.re
  let phase := angle * b.re
  let (radius, phase) :=
    if b.im == 0 then (radius, phase)
    else (radius / Float.exp (angle * b.im), phase + b.im * Float.log length)
  if phase.isInf then .error .zeroDivisor else .ok ⟨radius * Float.cos phase, radius * Float.sin phase⟩

def powGeneral (a b : Complex) : Except Fault Complex :=
  if b.isZero then .ok one
  else if a.isZero then
    if b.im == 0 && !(b.re < 0) then .ok ⟨0, 0⟩ else .error .zeroDivisor
  else powPolar a b

/-- The exponent is a whole number of at most a hundred in size. -/
def isSmallWhole (b : Complex) : Bool :=
  b.im == 0 && b.re == b.re.floor && b.re.abs ≤ 100

def pow (a b : Complex) : Except Fault Complex := do
  let p ←
    if b.isSmallWhole then
      let n := Binary64.truncate b.re
      if 0 < n then pure (a.powNat n.toNat) else one.div (a.powNat n.natAbs)
    else powGeneral a b
  if p.re.isInf || p.im.isInf then .error .outOfRange else .ok p

/-- Components are written without a trailing `.0`. -/
def componentLayout : Binary64.Layout := ⟨-4, 16, false⟩

/-- The imaginary part alone if the real part is a positive zero, else both parts in parentheses. -/
def text (a : Complex) : String :=
  let im := componentLayout.text a.im
  if a.re == 0 && !Binary64.signed a.re then im ++ "j"
  else
    let sign := if im.startsWith "-" then "" else "+"
    "(" ++ componentLayout.text a.re ++ sign ++ im ++ "j)"

end Complex

end Scriptlet
