import Scriptlet.Node.Basic
import Scriptlet.Scopes
/-!
# Values

What a program computes with is a datum.  While it is being computed with it also has a site: the stretch of source it
came from and the context it was computed in, which an error about it will show.  A variable or a list keeps the datum
alone, since whoever reads it gives it the site of the reading.

There is one exception.  Null is a single value: every choice without a branch, every block and every `print` gives that
same value, and giving it a site gives it to all its occurrences.  Its site is therefore kept with the state of the run
(`World.nullSite`), and a value whose datum is null has no site of its own.

Lists are shared: a list datum is the number of a cell that holds the elements, and adding to a list changes its cell.
-/
namespace Scriptlet

/-- The chain of active calls: a program, and above it the function called, the place it was called from, and the scope of
its local names. -/
inductive Context where
  | root (name : String) (scope : Nat)
  | call (name : String) (entry : Option Position) (scope : Nat) (caller : Context)

namespace Context

def scope : Context → Nat
  | root _ scope => scope
  | call _ _ scope _ => scope

end Context

/-- Where a value comes from. -/
structure Site where
  span : Option Span
  context : Option Context

namespace Site

/-- Nowhere. -/
def none : Site := ⟨Option.none, Option.none⟩

def start (s : Site) : Option Position := s.span.map Span.start

def stop (s : Site) : Option Position := s.span.map Span.stop

end Site

structure Function where
  name : String
  parameters : List String
  body : Body

/-- The name shown for a function that has none. -/
def anonymous : String := "<anonymous>"

/-- The name of a function, if it has one that is not empty. -/
def functionName : Option String → String
  | some name => if name.isEmpty then anonymous else name
  | none => anonymous

inductive Datum where
  | null
  | number (x : Scalar)
  | string (s : String)
  | list (cell : Nat)
  | function (f : Function)
  | builtin (name : String)
  /-- A function of no kind: it has a name and nothing to execute. -/
  | stub (name : String)
  /-- A value of no kind. -/
  | blank

namespace Datum

/-- What a number holds; null counts as zero. -/
def scalar? : Datum → Option Scalar
  | null => some (.int 0)
  | number x => some x
  | _ => none

/-- What a loop counts with: the content of a number or of a string. -/
def payload : Datum → Except Fault Scalar
  | null => .ok (.int 0)
  | number x => .ok x
  | string s => .ok (.text s)
  | _ => .error .noPayload

/-- A value to be used apart from the one it is read from: null becomes an ordinary zero. -/
def copy : Datum → Except Fault Datum
  | null => .ok (.number (.int 0))
  | stub _ | blank => .error .notCopyable
  | d => .ok d

end Datum

structure Value where
  datum : Datum
  site : Site

namespace Value

def null : Value := ⟨.null, .none⟩

def placed (datum : Datum) (span : Span) (context : Context) : Value := ⟨datum, some span, some context⟩

end Value

/-! ## Errors of a running program -/

inductive Reason where
  | undefined (name : String)
  | illegalOperation
  | divisionByZero
  | argumentCount (expected given : Nat)
  /-- A list was called with no index or with several. -/
  | noIndex
  | indexOutOfBounds
  | inputNotANumber
  deriving DecidableEq, Repr

namespace Reason

def info : Reason → String
  | undefined name => "'" ++ name ++ "' is not defined"
  | illegalOperation => "Illegal Operation"
  | divisionByZero => "Division by zero"
  | argumentCount expected given =>
    "expected " ++ toString expected ++ " arguments, but " ++ toString given ++ " were passed."
  | noIndex => "Expected valid list index"
  | indexOutOfBounds => "List index out of bounds"
  | inputNotANumber => "Given input could not be converted to number."

end Reason

end Scriptlet
