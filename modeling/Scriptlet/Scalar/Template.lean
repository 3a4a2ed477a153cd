import Scriptlet.Binary64.Places
import Scriptlet.Scalar.Basic
import Scriptlet.Text.Quoted
/-!
# Templates: a text with a place for a number

The remainder of a text by a scalar fills the scalar into the text.  The place is marked by `%`, then any of the flags
`-+ #0`, a width, a precision after a point, and the letter of a conversion; two marks in a row stand for `%` itself.  A
star for the width or the precision takes the scalar for that.  The template must take the scalar exactly once.

A template is read from left to right, and the first thing wrong with it is the fault: a place with nothing to fill it, a
scalar of the wrong kind, an unknown letter, or an end in the middle of a place.
-/
namespace Scriptlet.Template

/-! ## Reading a place -/

/-- What is left of a template, and the scalar if it has not been taken yet. -/
structure Rest where
  text : List Char
  argument : Option Scalar

abbrev Filling := StateT Rest (Except Fault)

def takeArgument : Filling Scalar := do
  let r ← get
  match r.argument with
  | some x =>
    set { r with argument := none }
    return x
  | none => throw .mismatch

/-- Takes the characters up to the first that fails the test. -/
def takeWhile (test : Char → Bool) : Filling (List Char) := do
  let r ← get
  set { r with text := r.text.dropWhile test }
  return r.text.takeWhile test

/-- Takes the next character if it passes the test. -/
def takeIf (test : Char → Bool) : Filling Bool := do
  let r ← get
  match r.text with
  | c :: rest =>
    if test c then set { r with text := rest }
    return test c
  | [] => return false

/-- The letter that a place ends in. -/
def takeLetter : Filling Char := do
  let r ← get
  match r.text with
  | c :: rest =>
    set { r with text := rest }
    return c
  | [] => throw .badTemplate

/-- A width or a precision, if there is one; its absolute value stays below `bound`. -/
def takeMeasure (bound : Nat) : Filling (Option Int) := do
  if ← takeIf (· == '*') then
    match ← takeArgument with
    | .int n => if n < -bound ∨ bound ≤ n then throw .outOfRange else return some n
    | _ => throw .mismatch
  else
    let digits ← takeWhile Char.isDigit
    if digits.isEmpty then return none
    let n := Text.natOfDigits digits
    if n < bound then return some n else throw .badTemplate

/-- How a scalar is to be written. -/
structure Place where
  /-- The text stands at the left end of its width. -/
  leftward : Bool
  /-- A number that is not negative has a plus before it. -/
  plus : Bool
  /-- A number that is not negative has a blank before it. -/
  blank : Bool
  /-- The base of an integer is marked, and the point of a double is always written. -/
  marked : Bool
  /-- A number is filled up to its width with zeros. -/
  zeros : Bool
  width : Nat
  precision : Option Nat

/-- Everything between `%` and the letter.  A negative width is a width at the left; a letter `h`, `l` or `L` before the
letter says nothing. -/
def takePlace : Filling Place := do
  let flags ← takeWhile ['-', '+', ' ', '#', '0'].contains
  let width := (← takeMeasure (Nat.pow 2 63)).getD 0
  let precision ←
    if ← takeIf (· == '.') then pure (some ((← takeMeasure (Nat.pow 2 31)).getD 0).toNat) else pure none
  let _ ← takeIf ['h', 'l', 'L'].contains
  return ⟨flags.contains '-' || width < 0, flags.contains '+', flags.contains ' ', flags.contains '#',
    flags.contains '0', width.natAbs, precision⟩

/-! ## Filling a place -/

namespace Place

/-- What stands before a number: its sign, or what the flags ask for in place of one. -/
def sign (p : Place) (negative : Bool) : String :=
  if negative then "-" else if p.plus then "+" else if p.blank then " " else ""

/-- Fills up to the width: zeros go between what leads a number and its digits, blanks to one end. -/
def fill (p : Place) (zeros : Bool) (lead body : String) : Except Fault String :=
  let missing := p.width - (lead.length + body.length)
  let run (c : Char) := String.ofList (List.replicate missing c)
  if sizeLimit < p.width then .error .outOfMemory
  else if p.leftward then .ok (lead ++ body ++ run ' ')
  else if zeros then .ok (lead ++ run '0' ++ body)
  else .ok (run ' ' ++ lead ++ body)

/-- A text, cut to the precision. -/
def word (p : Place) (s : String) : Except Fault String :=
  p.fill false "" (match p.precision with
    | some n => String.ofList (s.toList.take n)
    | none => s)

/-- An integer in one of the bases, whose mark goes before the digits if the place is marked.  The precision is the least
number of digits. -/
def integer (p : Place) (mark : String) (digits : Nat → Except Fault (List Char)) (n : Int) : Except Fault String := do
  let count := p.precision.getD 0
  if Nat.pow 2 31 - 4 < count then throw .outOfRange
  let ds ← digits n.natAbs
  let body := List.replicate (count - ds.length) '0' ++ ds
  p.fill p.zeros (p.sign (n < 0) ++ if p.marked then mark else "") (String.ofList body)

def decimal (p : Place) (n : Int) : Except Fault String :=
  p.integer "" (fun n => return (← Text.ofInt n).toList) n

/-- A number in a base other than ten, in which only integers are written. -/
def based (p : Place) (mark : String) (digits : Nat → List Char) : Scalar → Except Fault String
  | .int n => p.integer mark (fun n => .ok (digits n)) n
  | _ => .error .mismatch

/-- A double in one of the styles, with six digits unless the precision says otherwise. -/
def real (p : Place) (style : Binary64.Style) (letters : String → String) (x : Scalar) : Except Fault String := do
  let x ← match x with
    | .int n => Scalar.toFloat n
    | .float x => pure x
    | _ => throw .mismatch
  p.fill p.zeros (p.sign (Binary64.signed x && !x.isNaN)) (letters (style.text p.marked (p.precision.getD 6) x))

/-- A single character, given as such or by its code point. -/
def character (p : Place) : Scalar → Except Fault String
  | .int n => if n < 0 ∨ 0x110000 ≤ n then .error .outOfRange else p.fill false "" (String.singleton (Char.ofNat n.toNat))
  | .text s => if s.length = 1 then p.fill false "" s else .error .mismatch
  | _ => .error .mismatch

/-- A scalar as it is written in source: texts are quoted. -/
def literal (p : Place) (shown : Char → Bool) : Scalar → Except Fault String
  | .text s => p.word (Text.quoted shown s)
  | x => do p.word (← x.toText)

/-- The whole part of a number; a text has none here. -/
def whole : Scalar → Except Fault Int
  | .text _ => .error .mismatch
  | x => x.toInt

/-- A scalar converted as the letter says. -/
def convert (p : Place) (letter : Char) (x : Scalar) : Except Fault String :=
  match letter with
  | 's' => do p.word (← x.toText)
  | 'r' => p.literal Text.isPrintable x
  | 'a' => p.literal Text.isPrintableAscii x
  | 'd' | 'i' | 'u' => do p.decimal (← whole x)
  | 'o' => p.based "0o" (Nat.toDigits 8) x
  | 'x' => p.based "0x" (Nat.toDigits 16) x
  | 'X' => p.based "0X" (fun n => (Nat.toDigits 16 n).map Char.toUpper) x
  | 'e' => p.real .scientific id x
  | 'E' => p.real .scientific String.toUpper x
  | 'f' => p.real .fixed id x
  | 'F' => p.real .fixed String.toUpper x
  | 'g' => p.real .general id x
  | 'G' => p.real .general String.toUpper x
  | 'c' => p.character x
  | _ => .error .badTemplate

end Place

/-! ## The whole template -/

/-- What takes the stead of a `%` that has just been read.  A name in parentheses would ask for a table, which no scalar
is. -/
def fillMark : Filling String := do
  match (← get).text with
  | '%' :: _ =>
    let _ ← takeLetter
    return "%"
  | '(' :: _ => throw .mismatch
  | _ =>
    let place ← takePlace
    let letter ← takeLetter
    place.convert letter (← takeArgument)

/-- Fills a template; every round takes a character, and `fuel` bounds the rounds. -/
def fillFrom : (fuel : Nat) → Filling String
  | 0 => return ""
  | fuel + 1 => do
    let plain ← takeWhile (· != '%')
    if ← takeIf (· == '%') then
      let filled ← fillMark
      return String.ofList plain ++ filled ++ (← fillFrom fuel)
    else return String.ofList plain

/-- Fills the scalar into the template. -/
def fill (template : String) (x : Scalar) : Except Fault String := do
  let (text, rest) ← (fillFrom (template.length + 1)).run ⟨template.toList, some x⟩
  if rest.argument.isSome then throw .mismatch
  return text

end Scriptlet.Template
