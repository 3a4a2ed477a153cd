import Scriptlet.Text.Printable
/-!
# Quoted texts

A text is quoted between single quotes, or between double quotes if it holds a single quote and no double one.  The quote
itself, the backslash and the characters that are not shown are written with a backslash: line end, carriage return and
tab by a letter, the others by their code point in hexadecimal.
-/
namespace Scriptlet.Text

/-- The quote that goes around a text. -/
def quoteFor (cs : List Char) : Char := if cs.contains '\'' && !cs.contains '"' then '"' else '\''

/-- A number in hexadecimal, with zeros before it up to `count` digits. -/
def hexDigits (count n : Nat) : List Char :=
  let digits := Nat.toDigits 16 n
  List.replicate (count - digits.length) '0' ++ digits

/-- A code point behind a backslash, in the shortest of the three forms that holds it. -/
def escapePoint (n : Nat) : List Char :=
  if n < 0x100 then '\\' :: 'x' :: hexDigits 2 n
  else if n < 0x10000 then '\\' :: 'u' :: hexDigits 4 n
  else '\\' :: 'U' :: hexDigits 8 n

def quoteChar (shown : Char → Bool) (quote c : Char) : List Char :=
  if c = quote ∨ c = '\\' then ['\\', c]
  else if c = '\n' then ['\\', 'n']
  else if c = '\r' then ['\\', 'r']
  else if c = '\t' then ['\\', 't']
  else if shown c then [c]
  else escapePoint c.toNat

/-- The quoted text, in which the characters that `shown` accepts stand for themselves. -/
def quoted (shown : Char → Bool) (s : String) : String :=
  let quote := quoteFor s.toList
  String.ofList (quote :: s.toList.flatMap (quoteChar shown quote) ++ [quote])

end Scriptlet.Text
