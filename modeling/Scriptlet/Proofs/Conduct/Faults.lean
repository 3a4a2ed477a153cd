import Scriptlet.Proofs.Conduct.Sessions
import Scriptlet.Shell
/-!
# How a run can end

A run ends with a value, with a problem of its text, with an error of the program, or with a fault.  A fault is never internal:
the evaluation does not lose track of what it works on.  What is left are the resources that can run out, and the operations
that have no rule for their operands (`run_faults`).

Of the three operators that divide, two look at the divisor first and report a zero as an error.  The remainder does not, so a
remainder by zero is a fault (`remainder_by_zero_faults`).
-/
namespace Scriptlet

/-- Something that a run needs has come to its end: depth, rounds, memory, digits or input. -/
def Fault.isResource : Fault → Bool
  | tooDeep | exhausted | outOfMemory | digitLimit | endOfInput => true
  | _ => false

/-- An operation on numbers or texts that is applied without a look at its operands has no result for them. -/
def Fault.isUnguarded : Fault → Bool
  | mismatch | zeroDivisor | outOfRange | notANumber | unreadable | badTemplate | noPayload => true
  | _ => false

theorem Fault.resource_or_unguarded {f : Fault} (h : f.isInternal = false) :
    f.isResource = true ∨ f.isUnguarded = true := by
  cases f <;> first | exact .inl rfl | exact .inr rfl | cases h

def Ending.fault? : Ending → Option Fault
  | fault f => some f
  | _ => none

theorem Ending.fault?_eq_some {e : Ending} {f : Fault} : e.fault? = some f ↔ e = .fault f := by
  cases e <;> simp [fault?]

namespace Value

/-- An operator on sound operands does not end in an internal fault. -/
theorem binary_fault {w : World} (hw : w.InOrder) (op : BinaryOp) {l r : Value} (hl : l.datum.Sound w.lists.size)
    (hr : r.datum.Sound w.lists.size) {f : Fault} {u : World} (h : (l.binary op r).run w = (.error (.fault f), u)) :
    f.isInternal = false := by
  have hensures : Ensures (Session.ground True "") w.scopes.parents w.scopes.parents w.lists.size
      ((Session.ground True "").Own (Session.rootContext "")) (l.binary op r) (l.binary op r) :=
    binary_ensures op (fun _ => hl) fun _ => hr
  have hleaves := (hensures w (Session.standing True "" hw)).2
  rw [h] at hleaves
  have hstopped : Stopped (Session.ground True "") (.fault f) u := hleaves
  simpa [Stop.isOrdinary] using (hstopped.sound trivial).2

section Zero

variable {l r : Value} {x y : Scalar} (hl : l.datum.scalar? = some x) (hr : r.datum.scalar? = some y)

include hl

theorem binary_eq_binaryNumber (op : BinaryOp) : l.binary op r = binaryNumber op x l r := by
  obtain ⟨d, site⟩ := l
  cases d with
  | null =>
    cases hl
    rfl
  | number z =>
    cases hl
    rfl
  | _ => cases hl

include hr

/-- The operators that divide report a zero. -/
theorem binary_zero_error {op : BinaryOp} (hop : op.divides = true) (hy : y.isZero = true) (w : World) :
    ∃ e : RuntimeError, (l.binary op r).run w = (.error (.error e), w) ∧ e.reason = .divisionByZero := by
  have hsite : ∀ v : Value, ∃ site, (Effect.siteOf v).run w = (.ok site, w) := by
    intro v
    unfold Effect.siteOf
    split <;> exact ⟨_, rfl⟩
  obtain ⟨s, hs⟩ := hsite l
  obtain ⟨t, ht⟩ := hsite r
  refine ⟨⟨.divisionByZero, t.start, t.stop, s.context⟩, ?_, rfl⟩
  have hzero : (op.divides && y.isZero) = true := by rw [hop, hy]; rfl
  rw [binary_eq_binaryNumber hl, binaryNumber, hr]
  simp only [if_pos hzero]
  rw [Effect.run_bind, hs]
  simp only
  rw [Effect.run_bind, ht]
  rfl

end Zero

/-- The remainder does not look at the divisor. -/
theorem mod_zero_fault {l r : Value} {a : Int} (hl : l.datum.scalar? = some (.int a))
    (hr : r.datum.scalar? = some (.int 0)) (w : World) :
    (l.binary .mod r).run w = (.error (.fault .zeroDivisor), w) := by
  rw [binary_eq_binaryNumber hl, binaryNumber, hr]
  rfl

end Value

/-- **How a run can end, in every state that can be reached.**  Its fault, if it has one, is that of a resource or of an
operation that is not guarded; the same holds of each operator.  Division reports a zero divisor as an error, for all numbers;
the remainder of integers does not. -/
theorem run_faults {s : Session} (hs : s.Reachable) :
    (∀ name source f, (s.run name source).1 = .fault f → f.isResource = true ∨ f.isUnguarded = true) ∧
    (∀ (op : BinaryOp) (l r : Value) (f : Fault) (u : World), l.datum.Sound s.world.lists.size →
      r.datum.Sound s.world.lists.size → (l.binary op r).run s.world = (.error (.fault f), u) →
      f.isResource = true ∨ f.isUnguarded = true) ∧
    (∀ (op : BinaryOp) (l r : Value) (x y : Scalar), op.divides = true → l.datum.scalar? = some x →
      r.datum.scalar? = some y → y.isZero = true →
      ∃ e : RuntimeError, (l.binary op r).run s.world = (.error (.error e), s.world) ∧ e.reason = .divisionByZero) ∧
    ∀ (l r : Value) (a : Int), l.datum.scalar? = some (.int a) → r.datum.scalar? = some (.int 0) →
      (l.binary .mod r).run s.world = (.error (.fault .zeroDivisor), s.world) := by
  refine ⟨fun name source f hf => ?_, fun op l r f u hl hr h => ?_, fun op l r x y hop hl hr hy => ?_,
    fun l r a hl hr => Value.mod_zero_fault hl hr _⟩
  · exact Fault.resource_or_unguarded ((Session.run_inOrder hs.inOrder name source).2 f hf)
  · exact Fault.resource_or_unguarded (Value.binary_fault hs.inOrder op hl hr h)
  · exact Value.binary_zero_error hl hr hop hy _

/-- A loop that is to count from a function. -/
theorem run_faults_bound : (Shell.start "").Reachable ∧
    ((Shell.start "").run Shell.programName ⟨Shell.sourceName, "for i = print to 2 do i"⟩).1 = .fault .noPayload ∧
    (Fault.noPayload.isResource = true ∨ Fault.noPayload.isUnguarded = true) := by
  have hs : (Shell.start "").Reachable := .start _ _
  have hfault : ((Shell.start "").run Shell.programName ⟨Shell.sourceName, "for i = print to 2 do i"⟩).1 =
      .fault .noPayload := Ending.fault?_eq_some.1 (by decide +kernel)
  exact ⟨hs, hfault, (run_faults hs).1 _ _ _ hfault⟩

/-- **A remainder by zero is no error but a fault**, which ends the shell. -/
theorem remainder_by_zero_faults :
    ((Shell.start "").run Shell.programName ⟨Shell.sourceName, "1 % 0"⟩).1 = .fault .zeroDivisor :=
  Ending.fault?_eq_some.1 (by decide +kernel)

end Scriptlet
