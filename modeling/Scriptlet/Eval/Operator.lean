import Scriptlet.World.Basic
/-!
# Operators on values

Numbers take all operators with a number on the right.  Strings can be joined, repeated and compared for equality.  Lists
can be extended by any value, which changes the list itself, and repeated, which makes a new one.  Every other combination
is an illegal operation, shown from the start of the left operand to the end of the right one.

The result belongs to the context of the left operand; its place in the source is given by whoever applied the operator.
-/
namespace Scriptlet

inductive BinaryOp where
  | add | sub | mul | mod | div | floorDiv | pow
  | eq | ne | lt | gt | le | ge
  | and | or
  deriving DecidableEq, Repr

namespace BinaryOp

def ofSymbol? : Symbol → Option BinaryOp
  | .plus => some .add
  | .minus => some .sub
  | .times => some .mul
  | .percent => some .mod
  | .slash => some .div
  | .doubleSlash => some .floorDiv
  | .power => some .pow
  | .sameAs => some .eq
  | .differs => some .ne
  | .less => some .lt
  | .greater => some .gt
  | .atMost => some .le
  | .atLeast => some .ge
  | _ => none

/-- The operator that a lexeme stands for between two operands. -/
def ofLexeme? : Lexeme → Option BinaryOp
  | .symbol s => ofSymbol? s
  | .keyword .and => some .and
  | .keyword .or => some .or
  | _ => none

/-- The operator on numbers; the divisor of a quotient is not zero. -/
def onScalars : BinaryOp → Scalar → Scalar → Except Fault Scalar
  | add, x, y => x.add y
  | sub, x, y => x.sub y
  | mul, x, y => x.mul y
  | mod, x, y => x.mod y
  | div, x, y => x.div y
  | floorDiv, x, y => x.floorDiv y
  | pow, x, y => x.pow y
  | eq, x, y => .ok (.ofBool (x.beq y))
  | ne, x, y => .ok (.ofBool (!x.beq y))
  | lt, x, y => return .ofBool (← x.lt y)
  | gt, x, y => return .ofBool (← x.gt y)
  | le, x, y => return .ofBool (← x.le y)
  | ge, x, y => return .ofBool (← x.ge y)
  | and, x, y => x.conj y
  | or, x, y => x.disj y

/-- The operators that refuse a zero on the right. -/
def divides : BinaryOp → Bool
  | div | floorDiv => true
  | _ => false

end BinaryOp

namespace Value

open Effect

/-- A result that belongs to the context of `v` and has no place yet. -/
def derived (v : Value) (datum : Datum) : Effect Value := do
  return ⟨datum, none, (← siteOf v).context⟩

/-- An operation that no rule covers, from the start of one value to the end of another. -/
def illegal {α : Type} (v other : Value) : Effect α := do
  let s ← siteOf v
  let t ← siteOf other
  fail ⟨.illegalOperation, s.start, t.stop, s.context⟩

/-- A number on the left. -/
def binaryNumber (op : BinaryOp) (x : Scalar) (l r : Value) : Effect Value := do
  match r.datum.scalar? with
  | some y =>
    if op.divides && y.isZero then
      let s ← siteOf l
      let t ← siteOf r
      fail ⟨.divisionByZero, t.start, t.stop, s.context⟩
    else l.derived (.number (← lift (op.onScalars x y)))
  | none => illegal l r

/-- A string on the left. -/
def binaryString (op : BinaryOp) (s : String) (l r : Value) : Effect Value := do
  match op, r.datum with
  | .add, .string t => l.derived (.string (s ++ t))
  | .eq, .string t => l.derived (.number (.ofBool (s == t)))
  | .mul, d =>
    match d.scalar? with
    | some y => l.derived (.string (← lift (Scalar.repeatText s y)))
    | none => illegal l r
  | _, _ => illegal l r

/-- As many copies of some elements, one after the other, as a number says. -/
def repeatItems (items : Array Datum) : Scalar → Except Fault (Array Datum)
  | .int n => return Repetition.times (· ++ ·) #[] (← Scalar.copies .outOfMemory items.size n) items
  | _ => .error .mismatch

/-- A list on the left. -/
def binaryList (op : BinaryOp) (cell : Nat) (l r : Value) : Effect Value := do
  match op with
  | .add =>
    append cell r.datum
    return l
  | .mul =>
    match r.datum.scalar? with
    | some y =>
      let items ← lift (repeatItems (← elements cell) y)
      l.derived (← newList items)
    | none => illegal l r
  | _ => illegal l r

/-- Applies a binary operator. -/
def binary (op : BinaryOp) (l r : Value) : Effect Value :=
  match l.datum with
  | .null => binaryNumber op (.int 0) l r
  | .number x => binaryNumber op x l r
  | .string s => binaryString op s l r
  | .list cell => binaryList op cell l r
  | _ => illegal l r

/-- A condition holds: a number other than zero, a string or a list that is not empty. -/
def isTrue (v : Value) : Effect Bool := do
  match v.datum with
  | .null => return false
  | .number x => return !x.isZero
  | .string s => return !s.isEmpty
  | .list cell => return !(← elements cell).isEmpty
  | _ => return false

def negation (v : Value) : Effect Value := do
  match v.datum with
  | .null | .number _ | .string _ | .list _ => v.derived (.number (.ofBool (!(← v.isTrue))))
  | _ => illegal v v

/-- The opposite of a value is its product with minus one, which comes from nowhere. -/
def opposite (v : Value) : Effect Value := binary .mul v ⟨.number (.int (-1)), .none⟩

end Value

end Scriptlet
