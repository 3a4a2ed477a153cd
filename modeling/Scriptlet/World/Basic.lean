import Scriptlet.Scalar.Arithmetic
import Scriptlet.Value.Error
/-!
# The state of a run

The world holds the elements of all lists, all scopes, the site of null, the input that is still to be read, and what has
been printed.  An effect changes the world and gives a value, or stops with an error or a fault; what it did to the world
before it stopped stays done.
-/
namespace Scriptlet

structure World where
  lists : Array (Array Datum)
  scopes : Scopes Datum
  nullSite : Site
  input : List Char
  output : String

/-- Prints a text. -/
def World.write (w : World) (s : String) : World := { w with output := w.output ++ s }

/-- Why an effect gives no value. -/
inductive Stop where
  | error (e : RuntimeError)
  | fault (f : Fault)

abbrev Effect (α : Type) : Type := ExceptT Stop (StateM World) α

namespace Effect

def fault {α : Type} (f : Fault) : Effect α := throw (.fault f)

def fail {α : Type} (e : RuntimeError) : Effect α := throw (.error e)

/-- A computation that touches nothing, as an effect. -/
def lift {α : Type} : Except Fault α → Effect α
  | .ok a => pure a
  | .error f => fault f

/-! ## Sites -/

/-- The site of a value. -/
def siteOf (v : Value) : Effect Site := do
  match v.datum with
  | .null => return (← get).nullSite
  | _ => return v.site

/-- Gives a value another site; for null this is the site of all nulls. -/
def resite (v : Value) (f : Site → Site) : Effect Value := do
  match v.datum with
  | .null =>
    modify fun w => { w with nullSite := f w.nullSite }
    return v
  | _ => return { v with site := f v.site }

/-! ## Lists -/

/-- The elements of a list. -/
def elements (cell : Nat) : Effect (Array Datum) := return (← get).lists[cell]?.getD #[]

/-- A new list. -/
def newList (items : Array Datum) : Effect Datum := do
  let cell := (← get).lists.size
  modify fun w => { w with lists := w.lists.push items }
  return .list cell

/-- Adds an element to a list. -/
def append (cell : Nat) (item : Datum) : Effect Unit :=
  modify fun w => { w with lists := w.lists.modify cell (·.push item) }

/-! ## Names -/

def lookup (context : Context) (name : String) : Effect (Option Datum) :=
  return (← get).scopes.get? context.scope name

def assign (context : Context) (name : String) (datum : Datum) : Effect Unit :=
  modify fun w => { w with scopes := w.scopes.set context.scope name (some datum) }

/-- A new scope below another. -/
def newScope (parent : Nat) : Effect Nat := do
  let scope := (← get).scopes.size
  modify fun w => { w with scopes := w.scopes.push (some parent) }
  return scope

/-- Gives up the newest scope. -/
def leaveScope : Effect Unit := modify fun w => { w with scopes := w.scopes.pop }

/-! ## Input and output -/

def write (s : String) : Effect Unit := modify (·.write s)

/-- Reads a line, up to a newline or the end of the input. -/
def readLine : Effect String := do
  match (← get).input with
  | [] => fault .endOfInput
  | cs =>
    modify fun w => { w with input := (cs.dropWhile (· ≠ '\n')).drop 1 }
    return String.ofList (cs.takeWhile (· ≠ '\n'))

end Effect

end Scriptlet
