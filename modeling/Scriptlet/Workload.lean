import Scriptlet.Session
/-!
# Workloads

A workload gives the language something to do whose size is an integer, and reports what came of it; the limits it runs
under grant its loops as many rounds as the size asks for.  All workloads go by one name, which stands both for the source
and for the root context.  A program is run in a session of its own, with `print_ret` as its only builtin.
-/
namespace Scriptlet.Workload

def name : String := "<bench>"

def source (text : String) : Source := ⟨name, text⟩

/-- Limits under which loops may go round `size` times and once more. -/
def limitsFor (size : Int) : Limits := { Limits.standard with rounds := size.toNat + 1 }

/-- The message of an ending that is a problem of the text or an error of the program. -/
def messageOf : Ending → Option String
  | .problem p => some p.message
  | .error e => e.message.toOption
  | .value _ | .fault _ => none

/-- How the value of a run is displayed. -/
def displayOf (s : Session) : Ending → Option String
  | .value v => (s.display v.datum).toOption
  | _ => none

/-- How the value of a run is printed. -/
def textOf (s : Session) : Ending → Option String
  | .value v => (s.text v.datum).toOption
  | _ => none

/-! ## Programs -/

/-- Runs a program in a session of its own. -/
def runProgram (limits : Limits) (text : String) : Ending × Session :=
  (Session.start [.printRet] "" limits).run name (source text)

/-- What came of running a program: how its value is printed and displayed, and the message if it failed. -/
structure RunReport where
  text : Option String
  display : Option String
  message : Option String
  deriving DecidableEq, Repr

/-- Runs a program whose loops go round `size` times. -/
def runSized (size : Int) (program : String) : RunReport :=
  let (ending, s) := runProgram (limitsFor size) program
  ⟨textOf s ending, displayOf s ending, messageOf ending⟩

/-! ## A loop over a condition

No text has this form, so its tree is built here: while `i` is positive, lower it by one. -/

/-- Where the parts of the loop stand: what is compared with what, the name that is bound, and what is subtracted from
what. -/
structure Places where
  compared : Span
  zero : Span
  bound : Span
  lowered : Span
  one : Span

def countdownTest (p : Places) : Node :=
  .binary (.access ⟨"i", p.compared⟩) (.symbol .greater) (.number (.whole 0) p.zero)

def countdownStep (p : Places) : Node :=
  .assign ⟨"i", p.bound⟩ (.binary (.access ⟨"i", p.lowered⟩) (.symbol .minus) (.number (.whole 1) p.one))

/-- A session with new scopes, in which only the given names are bound; all else is as it was left. -/
def renewed (names : List (String × Datum)) (s : Session) : Session :=
  { s with world := { s.world with scopes := Session.scopesOf names } }

/-- A session with `i` bound anew. -/
def withCounter (i : Int) (s : Session) : Session :=
  { s with world := { s.world with scopes := s.world.scopes.set Session.globalScope "i" (some (.number (.int i))) } }

/-- Evaluates the loop twice in new scopes: from `n` with an inline body, which lists its values, and then, in the same
scopes, from half of `n` with a block, which gives null.  The result are the displays of the two values. -/
def countdown (names : List (String × Datum)) (first second : Places) (n : Int) (s : Session) :
    (Option String × Option String) × Session :=
  let s := withCounter n (renewed names s)
  let (listed, s) := s.evaluate name (.loop (countdownTest first) (.inline (countdownStep first)))
  let s := withCounter (n.fdiv 2) s
  let (null, s) := s.evaluate name (.loop (countdownTest second) (.block (countdownStep second)))
  ((displayOf s listed, displayOf s null), s)

/-- What so many calls show, one after the other. -/
def countdownCalls (names : List (String × Datum)) (first second : Places) (n : Int) :
    Nat → Session → List (Option String × Option String)
  | 0, _ => []
  | calls + 1, s =>
    let (shown, s) := countdown names first second n s
    shown :: countdownCalls names first second n calls s

end Scriptlet.Workload
