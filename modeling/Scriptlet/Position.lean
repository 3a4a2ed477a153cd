/-!
# Positions in a source text

A position is a place in a named text: the index of a character, and the line and column it is shown under.  Line and
column are carried along, not recomputed: the scanner moves a position one character at a time with `Position.next`, and
may take one step back with `Position.back`.  Stepping back over the end of a line keeps the line number, so a column
can be `-1`; all three numbers are therefore integers.
-/
namespace Scriptlet

/-- A named text, as given to a run. -/
structure Source where
  name : String
  text : String
  deriving DecidableEq, Repr, Inhabited

/-- A place in a source: lines and columns count from zero. -/
structure Position where
  index : Int
  line : Int
  column : Int
  source : Source
  deriving DecidableEq, Repr, Inhabited

namespace Position

/-- The first character of a source. -/
def origin (source : Source) : Position := ⟨0, 0, 0, source⟩

/-- The position after the character `c` that stands here; `none` when no character is there to be read. -/
def next (p : Position) (c : Option Char) : Position :=
  if c = some '\n' then
    { p with index := p.index + 1, line := p.line + 1, column := 0 }
  else
    { p with index := p.index + 1, column := p.column + 1 }

/-- One step back on the same line. -/
def back (p : Position) : Position :=
  { p with index := p.index - 1, column := p.column - 1 }

/-- The position after the characters `cs`. -/
def advance (p : Position) (cs : List Char) : Position :=
  cs.foldl (fun q c => q.next (some c)) p

end Position

/-- A stretch of source: `stop` is the position after its last character. -/
structure Span where
  start : Position
  stop : Position
  deriving DecidableEq, Repr, Inhabited

namespace Span

/-- One character wide, from `p`. -/
def single (p : Position) : Span := ⟨p, p.next none⟩

end Span

end Scriptlet
