import Scriptlet.Proofs.History.Sessions
import Scriptlet.Shell
/-!
# Which errors can be shown

An error shows its place and the places of the calls that were active.  A problem of a text always has a place, and the calls
always have.  An error of a running program may lack an end of its own place, and then it cannot be shown: the minus one of an
opposite comes from nowhere, and null has no place.  Nothing else is ever missing: `errors_shown`.

So an error can always be shown if no operand can be null and no minus stands before what can be called.
-/
namespace Scriptlet

namespace RuntimeError

/-- Calls from places can be shown, from a place. -/
theorem exists_calls {c : Context} (hc : c.isPlaced = true) (p : Position) : ∃ text, calls (some p) c = .ok text := by
  induction c generalizing p with
  | root name scope => exact ⟨_, rfl⟩
  | call name entry scope caller ih =>
    rw [Context.isPlaced, Bool.and_eq_true] at hc
    obtain ⟨hentry, hcaller⟩ := hc
    obtain ⟨q, rfl⟩ := Option.isSome_iff_exists.1 hentry
    obtain ⟨outer, houter⟩ := ih hcaller q
    simp only [calls, houter]
    exact ⟨_, rfl⟩

/-- Calls cannot be shown for one reason only. -/
theorem calls_error {c : Context} {place : Option Position} {f : Fault} (h : calls place c = .error f) : f = .unplaced := by
  have hline : ∀ {place : Option Position} {name : String} {f : Fault}, placeLine place name = .error f → f = .unplaced := by
    intro place name f h
    cases place with
    | none =>
      cases h
      rfl
    | some p => cases h
  induction c generalizing place f with
  | root name scope => exact hline h
  | call name entry scope caller ih =>
    unfold calls at h
    cases hown : placeLine place name with
    | error g =>
      rw [hown] at h
      cases h
      exact hline hown
    | ok own =>
      rw [hown] at h
      cases houter : calls entry caller with
      | error g =>
        simp only [houter] at h
        cases h
        exact ih houter
      | ok outer =>
        simp only [houter] at h
        cases h

theorem exists_message {e : RuntimeError} (he : e.isPlaced = true) (hc : ∀ c, e.context = some c → c.isPlaced = true) :
    ∃ text, e.message = .ok text := by
  obtain ⟨reason, start, stop, context⟩ := e
  simp only [isPlaced, Bool.and_eq_true] at he
  obtain ⟨p, rfl⟩ := Option.isSome_iff_exists.1 he.1
  obtain ⟨q, rfl⟩ := Option.isSome_iff_exists.1 he.2
  unfold message
  cases context with
  | none => exact ⟨_, rfl⟩
  | some c =>
    obtain ⟨trace, htrace⟩ := exists_calls (hc c rfl) p
    simp only [htrace]
    exact ⟨_, rfl⟩

theorem message_unplaced {e : RuntimeError} (he : e.isPlaced = false) : e.message = .error .unplaced := by
  obtain ⟨reason, start, stop, context⟩ := e
  cases context with
  | none => cases start <;> cases stop <;> first | rfl | cases he
  | some c =>
    unfold message
    cases htrace : calls start c with
    | error f =>
      cases calls_error htrace
      simp only [htrace]
      rfl
    | ok trace =>
      simp only [htrace]
      cases start <;> cases stop <;> first | rfl | cases he

end RuntimeError

namespace Ending

/-- The run ended with something to show as an error. -/
def isError : Ending → Bool
  | .problem _ | .error _ => true
  | _ => false

/-- The place of the error is known. -/
def isPlaced : Ending → Bool
  | .error e => e.isPlaced
  | _ => true

end Ending

/-- In a settled session an error has calls that were made from places; it lacks a place only if it is about operands, and never
if all trees are tidy. -/
theorem World.Settled.run_error {tidy : Bool} {s : Session} (hs : s.world.Settled tidy) {name : String} {source : Source}
    (hfair : Parse.isFair tidy s.limits source = true) {e : RuntimeError} (he : (s.run name source).1 = .error e) :
    (∀ c, e.context = some c → c.isPlaced = true) ∧
      (e.isPlaced = true ∨ e.reason.isAboutOperands = true ∧ tidy = false) := by
  obtain ⟨j, k, -, hending⟩ := Session.run_agree hs.meets rfl name hfair
  rw [he] at hending
  cases hending with
  | error h => exact ⟨hs.isPlaced h.context, h.placed⟩

/-- **Which errors can be shown.**  However many texts have been run before, an error is shown exactly if both ends of its place
are known; a problem's always are.  All calls of an error were made from places.  An end of the place is unknown only if an
operator has no rule for its operands, and never if neither this text nor one before it has an operand that can be null or a
minus before what can be called. -/
theorem errors_shown {s : Session} (hs : s.Reachable) (name : String) (source : Source)
    (herror : (s.run name source).1.isError = true) :
    ((s.run name source).1.isPlaced = true → ∃ text, Shell.report (s.run name source).2 (s.run name source).1 = .ok text) ∧
    ((s.run name source).1.isPlaced = false →
      Shell.report (s.run name source).2 (s.run name source).1 = .error .unplaced) ∧
    (∀ e, (s.run name source).1 = .error e → (∀ c, e.context = some c → c.isPlaced = true) ∧
      (e.isPlaced = false → e.reason.isAboutOperands = true)) ∧
    (s.ReachableBy true → Parse.isFair true s.limits source = true → (s.run name source).1.isPlaced = true) := by
  have hrun : ∀ e, (s.run name source).1 = .error e → _ :=
    fun e he => hs.byKnownSigns.settled.run_error (Parse.isFair_false _ _) he
  have htidy : ∀ e, (s.run name source).1 = .error e → s.ReachableBy true → Parse.isFair true s.limits source = true →
      e.isPlaced = true := by
    intro e he hs hfair
    rcases (hs.settled.run_error hfair he).2 with hplaced | ⟨-, hfalse⟩
    · exact hplaced
    · cases hfalse
  generalize (s.run name source).1 = ending, (s.run name source).2 = t at *
  cases ending with
  | value v | fault f => cases herror
  | problem p =>
    refine ⟨fun _ => ⟨_, rfl⟩, fun h => ?_, fun e he => ?_, fun _ _ => rfl⟩
    · cases h
    · cases he
  | error e =>
    obtain ⟨hcalls, hplaced⟩ := hrun e rfl
    refine ⟨fun h => RuntimeError.exists_message h hcalls, RuntimeError.message_unplaced, ?_, htidy e rfl⟩
    rintro _ ⟨rfl⟩
    refine ⟨hcalls, fun h => ?_⟩
    rcases hplaced with hplaced | ⟨hreason, -⟩
    · rw [h] at hplaced
      cases hplaced
    · exact hreason

/-- A function with a division by zero in it. -/
def halfSource : Source := ⟨Shell.sourceName, "fn half(x) -> x / (1 - 1)"⟩

/-- The function is called in a loop. -/
def halvesSource : Source := ⟨Shell.sourceName, "for i = 0 to 3 do half(i)"⟩

theorem errors_shown_in_call : ∃ s, s = ((Shell.start "").run Shell.programName halfSource).2 ∧ s.Reachable ∧
    s.ReachableBy true ∧ (s.run Shell.programName halvesSource).1.isError = true ∧
    ∃ text, Shell.report (s.run Shell.programName halvesSource).2 (s.run Shell.programName halvesSource).1 = .ok text := by
  have hs : ((Shell.start "").run Shell.programName halfSource).2.Reachable := .run _ _ (.start _ _)
  have htidy : ((Shell.start "").run Shell.programName halfSource).2.ReachableBy true :=
    .run _ (.start _ _) (by decide +kernel)
  have herror : (((Shell.start "").run Shell.programName halfSource).2.run Shell.programName halvesSource).1.isError =
      true := by decide +kernel
  obtain ⟨hshown, -, -, hplaced⟩ := errors_shown hs Shell.programName halvesSource herror
  exact ⟨_, rfl, hs, htidy, herror, hshown (hplaced htidy (by decide +kernel))⟩

/-- **An error about the opposite of a function cannot be shown.** -/
theorem opposite_of_function_unshown :
    ((Shell.start "").run Shell.programName ⟨Shell.sourceName, "-print"⟩).1.isError = true ∧
    Shell.report ((Shell.start "").run Shell.programName ⟨Shell.sourceName, "-print"⟩).2
      ((Shell.start "").run Shell.programName ⟨Shell.sourceName, "-print"⟩).1 = .error .unplaced := by
  decide +kernel

end Scriptlet
