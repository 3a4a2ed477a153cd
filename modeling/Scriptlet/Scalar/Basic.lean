import Scriptlet.Scalar.Complex
import Scriptlet.Text.Integer
/-!
# Scalars: what a number of the language holds

A number holds an integer of any size, a double or a complex number.  It may also hold a text: a `for` loop counts from
its first bound whatever that bound holds, and a loop over texts leaves its counter bound to one.  So the operations are
given on all four, with a fault where there is no rule.

Mixed operands are brought to the wider of the two kinds: an integer becomes the nearest double, a double a complex
number.  Comparisons of an integer with a double are exact.
-/
namespace Scriptlet

/-- The most elements that anything may be made of. -/
def sizeLimit : Nat := Nat.pow 2 33

inductive Scalar where
  | int (n : Int)
  | float (x : Float)
  | complex (z : Complex)
  | text (s : String)

namespace Scalar

def ofBool (b : Bool) : Scalar := .int (if b then 1 else 0)

/-- Doubles are written positionally from `0.0001` up to sixteen digits, and a whole one keeps its `.0`. -/
def floatLayout : Binary64.Layout := ⟨-4, 16, true⟩

def toText : Scalar → Except Fault String
  | int n => Text.ofInt n
  | float x => .ok (floatLayout.text x)
  | complex z => .ok z.text
  | text s => .ok s

/-! ## Conversions -/

/-- The double nearest to an integer. -/
def toFloat (n : Int) : Except Fault Float :=
  match Binary64.ofInt? n with
  | some x => .ok x
  | none => .error .outOfRange

/-- The integer that a scalar stands for: doubles are truncated, texts are read. -/
def toInt : Scalar → Except Fault Int
  | int n => .ok n
  | float x => if x.isNaN then .error .notANumber else if x.isInf then .error .outOfRange else .ok (Binary64.truncate x)
  | complex _ => .error .mismatch
  | text s => Text.toInt s

/-- Not zero, and not the empty text. -/
def isNonzero : Scalar → Bool
  | int n => n != 0
  | float x => x != 0
  | complex z => !z.isZero
  | text s => !s.isEmpty

/-! ## Comparison -/

def beq : Scalar → Scalar → Bool
  | int a, int b => a == b
  | int a, float y => Binary64.compareInt? a y == some .eq
  | float x, int b => Binary64.compareInt? b x == some .eq
  | float x, float y => x == y
  | complex z, complex w => z.beq w
  | complex z, int b => z.im == 0 && Binary64.compareInt? b z.re == some .eq
  | int a, complex w => w.im == 0 && Binary64.compareInt? a w.re == some .eq
  | complex z, float y => z.im == 0 && z.re == y
  | float x, complex w => w.im == 0 && x == w.re
  | text s, text t => s == t
  | _, _ => false

/-- Equal to the number zero; no text is. -/
def isZero (x : Scalar) : Bool := x.beq (.int 0)

/-- Orders numbers of the real line among themselves and texts among themselves; nothing is ordered with a NaN. -/
def order : Scalar → Scalar → Except Fault (Option Ordering)
  | int a, int b => .ok (some (compare a b))
  | int a, float y => .ok (Binary64.compareInt? a y)
  | float x, int b => .ok ((Binary64.compareInt? b x).map Ordering.swap)
  | float x, float y => .ok (Binary64.compare? x y)
  | text s, text t => .ok (some (compare s t))
  | _, _ => .error .mismatch

def lt (x y : Scalar) : Except Fault Bool := return (← x.order y) == some .lt

def gt (x y : Scalar) : Except Fault Bool := return (← x.order y) == some .gt

def le (x y : Scalar) : Except Fault Bool := return (← x.order y).any Ordering.isLE

def ge (x y : Scalar) : Except Fault Bool := return (← x.order y).any Ordering.isGE

end Scalar

end Scriptlet
