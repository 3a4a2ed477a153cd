import Scriptlet.Eval.Basic
import Scriptlet.Grammar.Production
import Scriptlet.Token.Scan
/-!
# Sessions

A session runs one text after another against the same world.  Two scopes stand below all calls: the prelude, with the
names that are always there, and above it the scope of the program's own names.  Running a text scans it, reads it as a
tree, and evaluates the tree in a root context; the first of these that does not succeed decides how the run ends.
-/
namespace Scriptlet

/-- How a run ends. -/
inductive Ending where
  | value (v : Value)
  | problem (p : Problem)
  | error (e : RuntimeError)
  | fault (f : Fault)

namespace Parse

/-- Why a text gives no tree. -/
inductive Failure where
  | problem (p : Problem)
  | fault (f : Fault)

def scan (source : Source) : Except Failure (List Token) :=
  match Scan.tokens source with
  | .ok tokens => .ok tokens
  | .error (.problem p) => .error (.problem p)
  | .error (.fault f) => .error (.fault f)

/-- The result of a reading, without the cursor. -/
def settle {α : Type} (reply : Grammar.Reply α) : Except Failure α :=
  match reply.result with
  | .ok a => .ok a
  | .error (.unexpected e span) => .error (.problem ⟨.expected e, span⟩)
  | .error .tooDeep => .error (.fault .tooDeep)

/-- The tree of a source: the list of its statements. -/
def program (limits : Limits) (source : Source) : Except Failure Node := do
  let tokens ← scan source
  settle (Grammar.program limits.reading (.start tokens))

/-- The cursor moved forward by positive numbers of tokens and back by negative ones. -/
def moved (moves : List Int) (c : Grammar.Cursor) : Grammar.Cursor :=
  moves.foldl (fun c m => if m < 0 then c.back m.natAbs else (List.range m.toNat).foldl (fun c _ => c.next) c) c

/-- The reading of one production from a text, after the cursor has been moved. -/
def production (limits : Limits) (source : Source) (moves : List Int) (p : Grammar.Production) :
    Except Failure (Grammar.Reply p.Result) := do
  let tokens ← scan source
  return Grammar.readAt limits.reading p (moved moves (.start tokens))

/-- The same for statements after which nothing may follow. -/
def closedStatements (limits : Limits) (source : Source) (moves : List Int) :
    Except Failure (Grammar.Reply Grammar.Block) := do
  let tokens ← scan source
  return Grammar.closed (Grammar.readAt limits.reading .statements) (moved moves (.start tokens))

end Parse

structure Session where
  world : World
  limits : Limits

namespace Session

/-- The number of the scope of the names that are always there. -/
def preludeScope : Nat := 0

/-- The number of the scope of the program's own names. -/
def globalScope : Nat := 1

/-- Null, the two truth values, and some builtins. -/
def preludeNames (builtins : List Builtin) : List (String × Datum) :=
  [("null", .null), ("false", .number (.int 0)), ("true", .number (.int 1))] ++
    builtins.map fun b => (b.name, .builtin b.name)

def scopesOf (names : List (String × Datum)) : Scopes Datum :=
  let base := (Scopes.empty.push none).push (some preludeScope)
  names.foldl (fun s (name, d) => s.set preludeScope name (some d)) base

/-- A fresh session with the given builtins and input. -/
def start (builtins : List Builtin) (input : String) (limits : Limits) : Session where
  world := ⟨#[], scopesOf (preludeNames builtins), .none, input.toList, ""⟩
  limits := limits

/-- A root context for the program's own names. -/
def rootContext (name : String) : Context := .root name globalScope

/-- Performs an effect, keeping what it did to the world however it ends. -/
def perform : Session → Effect Value → Ending × Session
  | ⟨world, limits⟩, effect =>
    let (result, world) := effect.run world
    let s : Session := ⟨world, limits⟩
    match result with
    | .ok v => (.value v, s)
    | .error (.error e) => (.error e, s)
    | .error (.fault f) => (.fault f, s)

/-- Evaluates a tree in a root context of the given name. -/
def evaluate (s : Session) (name : String) (node : Node) : Ending × Session :=
  s.perform (eval s.limits s.limits.evaluation node (rootContext name))

/-- Runs a text in a root context of the given name. -/
def run (s : Session) (name : String) (source : Source) : Ending × Session :=
  match Parse.program s.limits source with
  | .ok node => s.evaluate name node
  | .error (.problem p) => (.problem p, s)
  | .error (.fault f) => (.fault f, s)

/-- Hands over what has been printed. -/
def takeOutput (s : Session) : String × Session :=
  (s.world.output, { s with world := { s.world with output := "" } })

def text (s : Session) (d : Datum) : Except Fault String := s.world.text s.limits.printing d

def display (s : Session) (d : Datum) : Except Fault String := s.world.display s.limits.printing d

/-- A name bound anew to what it is bound to in the prelude; only null can be, since all else is copied when it is read. -/
def isPreludeBinding : String × Datum → Bool
  | ("null", .null) => true
  | _ => false

/-- The names that programs have bound, in order, with what they are bound to. -/
def bindings (s : Session) : List (String × Datum) :=
  match s.world.scopes.all[globalScope]? with
  | none => []
  | some scope =>
    (scope.sorted.filterMap fun (name, d) => d.map (name, ·)).filter (!isPreludeBinding ·)

end Session

end Scriptlet
