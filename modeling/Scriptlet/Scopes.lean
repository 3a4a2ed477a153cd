import Scriptlet.Fault
/-!
# Scopes

A scope binds names, and may have an earlier scope as its parent.  A name is looked up in a scope, then in its parent, and
so on.  A name may also be bound to nothing: such an entry is passed over when the name is looked up, but it is there to be
removed.

Scopes are numbered in the order in which they are made, so parents have smaller numbers and a look-up ends.  The newest
scope can be given up again.
-/
namespace Scriptlet

/-- One scope: its parent, and the names it binds in the order in which they were first bound. -/
structure Scope (α : Type) where
  parent : Option Nat
  entries : List (String × Option α)

namespace Scope

variable {α : Type}

/-- The entry of a name in this scope alone. -/
def entry? (s : Scope α) (name : String) : Option (Option α) := s.entries.lookup name

/-- What a name is bound to in this scope alone. -/
def own? (s : Scope α) (name : String) : Option α := (s.entry? name).join

def setEntry (name : String) (value : Option α) : List (String × Option α) → List (String × Option α)
  | [] => [(name, value)]
  | (n, v) :: rest => if n = name then (n, value) :: rest else (n, v) :: setEntry name value rest

def set (s : Scope α) (name : String) (value : Option α) : Scope α :=
  { s with entries := setEntry name value s.entries }

def erase (s : Scope α) (name : String) : Scope α :=
  { s with entries := s.entries.filter (·.1 ≠ name) }

/-- The entries in the order of their names. -/
def sorted (s : Scope α) : List (String × Option α) :=
  s.entries.mergeSort fun a b => a.1 ≤ b.1

end Scope

/-- All scopes, by number. -/
structure Scopes (α : Type) where
  all : Array (Scope α)

namespace Scopes

variable {α : Type}

def empty : Scopes α := ⟨#[]⟩

/-- The number that the next scope will have. -/
def size (s : Scopes α) : Nat := s.all.size

/-- A new scope without entries. -/
def push (s : Scopes α) (parent : Option Nat) : Scopes α := ⟨s.all.push ⟨parent, []⟩⟩

/-- Without the newest scope. -/
def pop (s : Scopes α) : Scopes α := ⟨s.all.pop⟩

/-- Looks a name up through at most `fuel` scopes. -/
def find? (s : Scopes α) (name : String) : (fuel : Nat) → (scope : Nat) → Option α
  | 0, _ => none
  | fuel + 1, scope =>
    match s.all[scope]? with
    | none => none
    | some t =>
      match t.own? name, t.parent with
      | some v, _ => some v
      | none, some p => s.find? name fuel p
      | none, none => none

/-- What a name is bound to in a scope or the nearest of its ancestors; there are at most as many as its number. -/
def get? (s : Scopes α) (scope : Nat) (name : String) : Option α := s.find? name (scope + 1) scope

def set (s : Scopes α) (scope : Nat) (name : String) (value : Option α) : Scopes α :=
  ⟨s.all.modify scope (·.set name value)⟩

/-- Removes the entry that a scope itself has for a name. -/
def remove (s : Scopes α) (scope : Nat) (name : String) : Except Fault (Scopes α) :=
  match s.all[scope]? with
  | some t => if (t.entry? name).isSome then .ok ⟨s.all.modify scope (·.erase name)⟩ else .error .missingName
  | none => .error .missingName

end Scopes

end Scriptlet
