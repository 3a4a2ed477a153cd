import Scriptlet.Position
/-!
# Excerpts: source lines with the offending stretch underlined

An excerpt shows, for every line from the start position's to the end position's, the line and below it a row of carets
from the first column of the stretch on that line to its last.  A line is cut from the text together with the newline
before it (the first line of a text has none).  Tabs are dropped from the finished excerpt.

Positions need not lie inside the text: a negative index counts from the end of the text, and one past the end means the
end.
-/
namespace Scriptlet.Excerpt

/-- The index of the last newline in `text` before `stop`, if there is one. -/
def lastNewline? (text : List Char) (stop : Nat) : Option Nat :=
  let before := text.take stop
  (before.reverse.findIdx? (· = '\n')).map fun i => before.length - 1 - i

/-- The index of the first newline in `text` at or after `start`, or the length of the text. -/
def nextNewline (text : List Char) (start : Nat) : Nat :=
  match (text.drop start).findIdx? (· = '\n') with
  | some i => start + i
  | none => text.length

/-- The end of the stretch of text that an index cuts off: from the end of the text if negative, and never outside it. -/
def clampIndex (length : Nat) (index : Int) : Nat :=
  if index < 0 then (index + length).toNat else min index.toNat length

/-- A row of carets under the columns from `first` up to `last`. -/
def carets (first last : Int) : List Char :=
  List.replicate first.toNat ' ' ++ List.replicate (last - first).toNat '^'

/-- The remaining `count` lines of an excerpt, the next one cut from `lineStart` to `lineStop`; its carets begin at
column `first`, and those of the last line end at column `last`. -/
def lines (text : List Char) (last : Int) : (count : Nat) → (lineStart lineStop : Nat) → (first : Int) → List Char
  | 0, _, _, _ => []
  | count + 1, lineStart, lineStop, first =>
    let line := (text.take lineStop).drop lineStart
    let stop := if count = 0 then last else (line.length : Int) - 1
    line ++ '\n' :: carets first stop ++ lines text last count lineStop (nextNewline text (lineStop + 1)) 0

/-- The excerpt of `text` between two positions. -/
def render (text : List Char) (start stop : Position) : List Char :=
  let lineStart := (lastNewline? text (clampIndex text.length start.index)).getD 0
  let lineStop := nextNewline text (lineStart + 1)
  let count := (stop.line - start.line + 1).toNat
  (lines text stop.column count lineStart lineStop start.column).filter (· ≠ '\t')

end Scriptlet.Excerpt
