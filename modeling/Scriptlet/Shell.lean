import Scriptlet.Session
/-!
# The shell

The shell prompts for a line, runs it, and shows the value or the error, until the input ends or a run faults.  Blank lines
are passed over.  The value of a line with a single statement is shown as that statement's value.
-/
namespace Scriptlet.Shell

def prompt : String := "boring > "

/-- The name under which lines are shown in errors. -/
def sourceName : String := "<stdin>"

/-- The name of the root context. -/
def programName : String := "<program>"

def start (input : String) : Session := .start Builtin.all input .standard

/-- What is shown of a value: a list of one element as that element. -/
def shown (s : Session) (d : Datum) : Except Fault String :=
  match d with
  | .list cell =>
    match (s.world.lists[cell]?.getD #[]).toList with
    | [single] => s.display single
    | _ => s.display d
  | _ => s.display d

/-- What is shown of the way a run ended, or the fault that ends the shell. -/
def report (s : Session) : Ending → Except Fault String
  | .value v => shown s v.datum
  | .problem p => .ok p.message
  | .error e => e.message
  | .fault f => .error f

/-- Prompts and runs lines, at most `fuel` of them; ends with a fault. -/
def loop : (fuel : Nat) → Session → Fault × Session
  | 0, s => (.endOfInput, s)
  | fuel + 1, ⟨world, limits⟩ =>
    let (line, world) := Effect.readLine.run (world.write prompt)
    let s : Session := ⟨world, limits⟩
    match line with
    | .error (.fault f) => (f, s)
    | .error (.error _) => (.endOfInput, s)
    | .ok text =>
      if text.toList.all Text.isBlank then loop fuel s
      else
        let (ending, s) := s.run programName ⟨sourceName, text⟩
        match report s ending with
        | .ok shownText => loop fuel ⟨s.world.write (shownText ++ "\n"), s.limits⟩
        | .error f => (f, s)

/-- Runs the shell on an input: every round takes at least one character, and one more round finds the end. -/
def run (input : String) : Fault × Session := loop (input.length + 1) (start input)

end Scriptlet.Shell
