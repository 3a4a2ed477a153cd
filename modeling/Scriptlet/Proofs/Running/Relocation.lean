import Scriptlet.Proofs.Relocation
import Scriptlet.Session
/-!
# Moving the positions of values and worlds

A run meets positions in the bodies of functions, in the sites of values, in the chain of calls and in errors.  `relocate`
moves all of them, and `bare` forgets them: two states are equal up to positions if they are the same when bare.

Moving positions leaves everything else of a world as it is, and commutes with what a run does to scopes.
-/
namespace Scriptlet

section Relocation

variable (φ : Position → Position)

def Function.relocate (f : Function) : Function := { f with body := f.body.relocate φ }

def Datum.relocate : Datum → Datum
  | .function f => .function (f.relocate φ)
  | d => d

def Context.relocate : Context → Context
  | .root name scope => .root name scope
  | .call name entry scope caller => .call name (entry.map φ) scope caller.relocate

def Site.relocate (s : Site) : Site := ⟨s.span.map (Span.relocate φ), s.context.map (Context.relocate φ)⟩

def Value.relocate (v : Value) : Value := ⟨v.datum.relocate φ, v.site.relocate φ⟩

def RuntimeError.relocate (e : RuntimeError) : RuntimeError :=
  ⟨e.reason, e.start.map φ, e.stop.map φ, e.context.map (Context.relocate φ)⟩

def Stop.relocate : Stop → Stop
  | .error e => .error (e.relocate φ)
  | .fault f => .fault f

end Relocation

/-- A scope with what its names are bound to put through a function. -/
def Scope.map {α β : Type} (f : α → β) (s : Scope α) : Scope β :=
  ⟨s.parent, s.entries.map fun e => (e.1, e.2.map f)⟩

def Scopes.map {α β : Type} (f : α → β) (s : Scopes α) : Scopes β := ⟨s.all.map (Scope.map f)⟩

def World.relocate (φ : Position → Position) (w : World) : World :=
  ⟨w.lists.map (·.map (Datum.relocate φ)), w.scopes.map (Datum.relocate φ), w.nullSite.relocate φ, w.input, w.output⟩

/-! ## What does not move -/

section Parts

variable {φ : Position → Position}

@[simp] theorem Context.scope_relocate (c : Context) : (c.relocate φ).scope = c.scope := by
  cases c <;> rfl

@[simp] theorem Site.start_relocate (s : Site) : (s.relocate φ).start = s.start.map φ := by
  cases s with
  | mk span context => cases span <;> rfl

@[simp] theorem Site.stop_relocate (s : Site) : (s.relocate φ).stop = s.stop.map φ := by
  cases s with
  | mk span context => cases span <;> rfl

@[simp] theorem Site.context_relocate (s : Site) : (s.relocate φ).context = s.context.map (Context.relocate φ) := rfl

end Parts

/-! ## Without positions -/

def Datum.bare (d : Datum) : Datum := d.relocate fun _ => .forgotten

/-- The value without its positions: what is left of its site is the chain of calls. -/
def Value.bare (v : Value) : Value := v.relocate fun _ => .forgotten

def RuntimeError.bare (e : RuntimeError) : RuntimeError := e.relocate fun _ => .forgotten

/-- The world without its positions: two states are equal up to positions if this is the same of both. -/
def World.bare (w : World) : World := w.relocate fun _ => .forgotten

end Scriptlet
