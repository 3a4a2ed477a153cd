/-!
# Faults

A run ends in one of three ways: with a value, with an error of the program that can be shown at its place in the source,
or with a fault.  A fault is what the language has no error for: an operation that has no rule for its operands, a number
that leaves the range of its kind, an input that has run out, a nesting that is too deep.  It ends the run at once; what
was printed and bound before stays.
-/
namespace Scriptlet

inductive Fault where
  /-- The operation has no rule for operands of these kinds. -/
  | mismatch
  /-- A remainder by zero, zero to a negative power, or a complex power whose angle is out of bounds. -/
  | zeroDivisor
  /-- A number too large for a double, an infinity made an integer, or a count beyond the machine's. -/
  | outOfRange
  /-- A NaN made an integer. -/
  | notANumber
  /-- A text that does not spell an integer. -/
  | unreadable
  /-- An integer with more digits than may be read or written. -/
  | digitLimit
  /-- A template with a place that is cut short or has no known conversion. -/
  | badTemplate
  | outOfMemory
  /-- A loop bound that is neither a number nor a text. -/
  | noPayload
  /-- A call of a function that belongs to no context. -/
  | noContext
  | unknownBuiltin
  /-- An error that cannot be shown because a position is missing. -/
  | unplaced
  | unknownOperator
  | endOfInput
  /-- A name to be removed that is not there. -/
  | missingName
  | tooDeep
  /-- A lone token where a node was expected. -/
  | loneToken
  /-- A value of no kind, which cannot be copied. -/
  | notCopyable
  /-- A loop ran longer than the limit given to the run. -/
  | exhausted
  deriving DecidableEq, Repr

namespace Fault

/-- The message that goes with the fault, for the faults that have one. -/
def message? : Fault → Option String
  | loneToken => some "No visit_Token method defined"
  | notCopyable => some "No copy method defined"
  | _ => none

end Fault

end Scriptlet
