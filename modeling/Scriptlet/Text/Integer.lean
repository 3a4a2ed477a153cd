import Scriptlet.Fault
import Scriptlet.Text.Classes
/-!
# Integers as text

An integer is written in decimal.  It is read with blanks around it, a sign before it, single underscores between its
digits, and digits of any script.  Neither direction goes beyond `digitLimit` digits; leading zeros count when reading.
-/
namespace Scriptlet.Text

/-- The most digits an integer may have when it is read or written. -/
def digitLimit : Nat := 4300

/-- The decimal text of an integer. -/
def ofInt (n : Int) : Except Fault String :=
  if n.natAbs < Nat.pow 10 digitLimit then .ok (toString n) else .error .digitLimit

/-- The value of a row of ASCII digits. -/
def natOfDigits (digits : List Char) : Nat :=
  digits.foldl (fun n c => 10 * n + (c.toNat - '0'.toNat)) 0

/-- The values of the digits of a numeral in which single underscores may stand between digits. -/
def numeralDigits? : List Char → Option (List Nat)
  | [] => none
  | [c] => (digitValue? c).map ([·])
  | c :: '_' :: rest => do
    let d ← digitValue? c
    let ds ← numeralDigits? rest
    return d :: ds
  | c :: rest => do
    let d ← digitValue? c
    let ds ← numeralDigits? rest
    return d :: ds

def dropPadding (cs : List Char) : List Char := cs.dropWhile isPadding

/-- The integer that a text spells. -/
def toInt (text : String) : Except Fault Int :=
  let cs := (dropPadding (dropPadding text.toList).reverse).reverse
  let (negative, numeral) :=
    match cs with
    | '-' :: rest => (true, rest)
    | '+' :: rest => (false, rest)
    | cs => (false, cs)
  match numeralDigits? numeral with
  | none => .error .unreadable
  | some ds =>
    if digitLimit < ds.length then .error .digitLimit
    else
      let n : Nat := ds.foldl (fun n d => 10 * n + d) 0
      .ok (if negative then -(n : Int) else n)

end Scriptlet.Text
