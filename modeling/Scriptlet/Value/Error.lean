import Scriptlet.Excerpt
import Scriptlet.Value.Basic
/-!
# Errors of a running program, and how they are shown

An error shows the calls that were active, outermost first, then its reason, then the excerpt of the source.  The first
line above the reason is the error's own place; each line above that is the place of a call.  An error about a value
without a site cannot be shown.
-/
namespace Scriptlet

structure RuntimeError where
  reason : Reason
  start : Option Position
  stop : Option Position
  context : Option Context

namespace RuntimeError

def title : String := "Runtime Error"

def placeLine (place : Option Position) (name : String) : Except Fault String :=
  match place with
  | some p =>
    .ok ("    File " ++ p.source.name ++ ", line " ++ toString (p.line + 1) ++ ", in " ++ name ++ "\n")
  | none => .error .unplaced

/-- The active calls, outermost first, when the innermost has come to the given place. -/
def calls (place : Option Position) : Context → Except Fault String
  | .root name _ => placeLine place name
  | .call name entry _ caller => do
    let own ← placeLine place name
    let outer ← calls entry caller
    return outer ++ own

def message (e : RuntimeError) : Except Fault String := do
  let trace ←
    match e.context with
    | some c => calls e.start c
    | none => .ok ""
  match e.start, e.stop with
  | some start, some stop =>
    return "Traceback (most recent call last):\n" ++ trace ++ title ++ ": " ++ e.reason.info ++ "\n\n" ++
      String.ofList (Excerpt.render start.source.text.toList start stop)
  | _, _ => .error .unplaced

end RuntimeError

end Scriptlet
