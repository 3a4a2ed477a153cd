import Scriptlet.Proofs.Loops.Returns
import Scriptlet.Workload
/-!
# Counting down

The loop that lowers `i` while it is positive ends for every `i`, and its values are the numbers below `i` from the highest
down to zero (`returns_countdown`).  A call evaluates it twice, the second time in the scopes and from the world that the
first has left; what is shown does not depend on that world, nor on the calls before (`countdown_descends`).
-/
namespace Scriptlet

/-! ## A counter set anew -/

theorem Scope.setEntry_setEntry {α : Type} (name : String) (v v' : Option α) (entries : List (String × Option α)) :
    setEntry name v (setEntry name v' entries) = setEntry name v entries := by
  induction entries with
  | nil => simp [setEntry]
  | cons e entries ih =>
    obtain ⟨x, _⟩ := e
    by_cases hx : x = name
    · simp [setEntry, hx]
    · simp [setEntry, hx, ih]

theorem World.bound_bound (w : World) (c : Context) (name : String) (d e : Datum) :
    (w.bound c name d).bound c name e = w.bound c name e := by
  have hset (s : Scope Datum) (v v' : Option Datum) : (s.set name v').set name v = s.set name v := by
    simp only [Scope.set, Scope.setEntry_setEntry]
  simp only [World.bound, Scopes.set, World.mk.injEq, Scopes.mk.injEq, true_and, and_true]
  apply Array.ext
  · simp only [Array.size_modify]
  · intro k _ _
    simp only [Array.getElem_modify]
    split <;> simp only [hset]

/-- Names are bound in the prelude, and there are two scopes whatever they are. -/
theorem Session.size_scopesOf (names : List (String × Datum)) : (scopesOf names).size = 2 :=
  List.foldlRecOn (motive := fun s : Scopes Datum => s.size = 2) names _ rfl fun _ hs _ _ => (Scopes.size_set _ _ _).trans hs

namespace Workload

open Eval

/-! ## The loop -/

section Loop

variable {limits : Limits} {depth : Nat} {c : Context} {w : World} (hscope : c.scope < w.scopes.size) (p : Places) (i : Int)

include hscope

theorem returns_counter (span : Span) :
    (eval limits (depth + 1) (.access ⟨"i", span⟩) c).Returns (w.counting c "i" i) (.number (.int i))
      (w.counting c "i" i) := by
  have hi : (w.counting c "i" i).value? c "i" = some (.number (.int i)) := by
    rw [World.counting_eq_bound, World.value?_bound hscope, if_pos rfl]
  exact returns_access hi rfl

theorem returns_countdownTest :
    (eval limits (depth + 2) (countdownTest p) c).Returns (w.counting c "i" i) (.number (.ofBool (decide (0 < i))))
      (w.counting c "i" i) := by
  have hgt : BinaryOp.gt.onScalars (.int i) (.int 0) = .ok (.ofBool (decide (0 < i))) := by
    rw [BinaryOp.onScalars, gt_int]
    rfl
  refine returns_binary rfl (returns_counter hscope i _) (returns_number _ _) (fun v v' hv hv' => ?_) (by simp)
  exact Value.binary_ints rfl hv hv' hgt

theorem returns_countdownStep :
    (eval limits (depth + 3) (countdownStep p) c).Returns (w.counting c "i" i) (.number (.int (i - 1)))
      (w.counting c "i" (i - 1)) := by
  have hless : (eval limits (depth + 2)
      (.binary (.access ⟨"i", p.lowered⟩) (.symbol .minus) (.number (.whole 1) p.one)) c).Returns (w.counting c "i" i)
        (.number (.int (i - 1))) (w.counting c "i" i) := by
    apply returns_binary rfl (returns_counter hscope i _) (returns_number _ _) _ (by simp)
    intro v v' hv hv'
    exact Value.binary_ints rfl hv hv' rfl
  have hassign := returns_assign ⟨"i", p.bound⟩ hless
  rw [World.counting_eq_bound, World.bound_bound] at hassign
  exact hassign

/-- **The loop lowers `i` to zero**, unless it is below zero from the start, in as many rounds as `i` says. -/
theorem returns_countdown {body : Body} {d : Int → Datum} {n : Int} (hrounds : n.toNat < limits.rounds)
    (hbody : ∀ i, (runBody (eval limits (depth + 3)) body c).Returns (w.counting c "i" i) (d i) (w.counting c "i" (i - 1))) :
    let result := loopResult ((List.range n.toNat).map fun k : Nat => d (n - k)) (w.counting c "i" (n - n.toNat)) body
    (eval limits (depth + 4) (.loop (countdownTest p) body) c).Returns (w.counting c "i" n) result.1 result.2 := by
  have htest : ∀ k ≤ n.toNat, (eval limits (depth + 3) (countdownTest p) c >>= Value.isTrue).run (w.counting c "i" (n - k)) =
      (.ok (decide (k < n.toNat)), w.counting c "i" (n - k)) := by
    intro k hk
    have hpositive : 0 < n - k ↔ k < n.toNat := by omega
    rw [run_test (returns_countdownTest hscope p (n - k)), decide_eq_decide.2 hpositive]
  have hround : ∀ k < n.toNat, (runBody (eval limits (depth + 3)) body c).Returns (w.counting c "i" (n - k)) (d (n - k))
      (w.counting c "i" (n - (k + 1 : Nat))) := by
    intro k _
    have hnext := hbody (n - k)
    rwa [Int.sub_sub] at hnext
  have hloop := returns_loop (u := fun k => w.counting c "i" (n - k)) hrounds htest hround
  rw [Int.natCast_zero, Int.sub_zero] at hloop
  exact hloop

end Loop

/-! ## What is shown -/

/-- The numbers below `n`, from the highest down to zero. -/
def below (n : Int) : List Int := (List.range n.toNat).map fun k : Nat => n - 1 - k

/-- How the numbers below `n` are displayed; there is no text for a number beyond the limit on digits. -/
def descending (n : Int) : Option String :=
  if n ≤ Nat.pow 10 Text.digitLimit then some ("[" ++ String.intercalate ", " ((below n).map toString) ++ "]") else none

theorem display_below {w : World} {cell : Nat} {n : Int}
    (hcell : w.lists[cell]? = some ((below n).map fun i => .number (.int i)).toArray) (depth : Nat) :
    (w.display (depth + 2) (.list cell)).toOption = descending n := by
  unfold descending
  rw [World.display_list]
  by_cases hn : n ≤ Nat.pow 10 Text.digitLimit
  · have hwritable : ∀ i ∈ below n, i.natAbs < Nat.pow 10 Text.digitLimit := by
      intro i hi
      obtain ⟨k, hk, rfl⟩ := List.mem_map.1 hi
      rw [List.mem_range] at hk
      omega
    rw [if_pos hn, World.text_numbers hcell depth hwritable]
    rfl
  · -- The first of the numbers cannot be written.
    obtain ⟨m, hm⟩ : ∃ m, n.toNat = m + 1 := ⟨n.toNat - 1, by omega⟩
    have hbeyond : Nat.pow 10 Text.digitLimit ≤ (n - 1 - (0 : Nat)).natAbs := by omega
    unfold below at hcell
    rw [hm, List.range_succ_eq_map, List.map_cons] at hcell
    rw [if_neg hn, World.text_numbers_beyond hcell depth hbeyond]
    rfl

/-! ## Calls -/

/-- Limits that are enough for the loop from `n`. -/
structure Suffices (n : Int) (limits : Limits) : Prop where
  rounds : n.toNat < limits.rounds
  evaluation : 4 ≤ limits.evaluation
  printing : 2 ≤ limits.printing

theorem suffices_limitsFor (n : Int) (extra : Nat) :
    Suffices n { limitsFor n with rounds := (limitsFor n).rounds + extra } where
  rounds := Nat.lt_add_right extra (Nat.lt_succ_self _)
  evaluation := (by decide : 4 ≤ Limits.standard.evaluation)
  printing := (by decide : 2 ≤ Limits.standard.printing)

/-- The half of `n` takes fewer rounds. -/
theorem Suffices.half {n : Int} {limits : Limits} (h : Suffices n limits) : Suffices (n.fdiv 2) limits := by
  have hhalf : n.fdiv 2 = n / 2 := Int.fdiv_eq_ediv_of_nonneg n (by decide)
  have hrounds := h.rounds
  exact ⟨by omega, h.evaluation, h.printing⟩

section Calls

variable {s : Session} (hscope : (Session.rootContext name).scope < s.world.scopes.size) {n : Int} (h : Suffices n s.limits)
  (p : Places)

/-- The world of a session with `i` bound. -/
def counted (s : Session) (i : Int) : World := s.world.counting (Session.rootContext name) "i" i

include hscope h

theorem evaluate_countdown {body : Body} {d : Int → Datum}
    (hbody : ∀ depth i, (runBody (eval s.limits (depth + 3)) body (Session.rootContext name)).Returns (counted s i) (d i)
      (counted s (i - 1))) :
    let result := loopResult ((List.range n.toNat).map fun k : Nat => d (n - k)) (counted s (n - n.toNat)) body
    ∃ v, (withCounter n s).evaluate name (.loop (countdownTest p) body) = (.value v, ⟨result.2, s.limits⟩) ∧
      v.datum = result.1 := by
  obtain ⟨depth, hdepth⟩ := Nat.exists_eq_add_of_le' h.evaluation
  have hloop := returns_countdown hscope p h.rounds (hbody depth)
  rw [← hdepth] at hloop
  exact Session.evaluate_of_returns (s := withCounter n s) hloop

/-- With an inline body the values are listed. -/
theorem evaluate_countdown_inline :
    ∃ v, (withCounter n s).evaluate name (.loop (countdownTest p) (.inline (countdownStep p))) =
        (.value v, ⟨(counted s (n - n.toNat)).widened ((below n).map fun i => .number (.int i)).toArray, s.limits⟩) ∧
      v.datum = .list s.world.lists.size := by
  have hbelow : ((List.range n.toNat).map fun k : Nat => Datum.number (.int (n - k - 1))) =
      (below n).map fun i => .number (.int i) := by
    unfold below
    rw [List.map_map]
    apply List.map_congr_left
    intro k _
    have hk : n - k - 1 = n - 1 - k := by omega
    rw [Function.comp_apply, hk]
  have hbody (depth : Nat) (i : Int) :
      (runBody (eval s.limits (depth + 3)) (.inline (countdownStep p)) (Session.rootContext name)).Returns (counted s i)
        (.number (.int (i - 1))) (counted s (i - 1)) := returns_countdownStep hscope p i
  have hloop := evaluate_countdown hscope h p hbody
  rw [loopResult, hbelow] at hloop
  exact hloop

/-- With a block there is nothing to list. -/
theorem evaluate_countdown_block :
    ∃ v, (withCounter n s).evaluate name (.loop (countdownTest p) (.block (countdownStep p))) =
      (.value v, ⟨counted s (n - n.toNat), s.limits⟩) ∧ v.datum = .null := by
  have hbody (depth : Nat) (i : Int) :
      (runBody (eval s.limits (depth + 3)) (.block (countdownStep p)) (Session.rootContext name)).Returns (counted s i) .null
        (counted s (i - 1)) := by
    obtain ⟨v, hv, -⟩ := returns_countdownStep hscope p i
    refine ⟨.null, ?_, rfl⟩
    have hblock : runBody (eval s.limits (depth + 3)) (.block (countdownStep p)) (Session.rootContext name) =
        eval s.limits (depth + 3) (countdownStep p) (Session.rootContext name) >>= fun _ => pure .null := rfl
    rw [hblock, Effect.run_bind, counted, hv]
    rfl
  exact evaluate_countdown hscope h p hbody

end Calls

/-- One call, in whatever session. -/
theorem countdown_eq (names : List (String × Datum)) (first second : Places) {n : Int} {s : Session}
    (h : Suffices n s.limits) :
    ∃ w, countdown names first second n s = ((descending n, some "0"), ⟨w, s.limits⟩) := by
  have hscope : (Session.rootContext name).scope < (renewed names s).world.scopes.size :=
    Nat.lt_of_lt_of_eq (by decide : Session.globalScope < 2) (Session.size_scopesOf names).symm
  obtain ⟨v, hlisted, hv⟩ := evaluate_countdown_inline hscope h first
  let s₁ : Session :=
    ⟨(counted (renewed names s) (n - n.toNat)).widened ((below n).map fun i => Datum.number (.int i)).toArray, s.limits⟩
  have hscope₁ : (Session.rootContext name).scope < s₁.world.scopes.size :=
    Nat.lt_of_lt_of_eq hscope (Scopes.size_set _ _ _).symm
  obtain ⟨v₁, hnull, hv₁⟩ := evaluate_countdown_block hscope₁ h.half second
  let w := counted s₁ (n.fdiv 2 - (n.fdiv 2).toNat)
  refine ⟨w, ?_⟩
  obtain ⟨depth, hdepth⟩ := Nat.exists_eq_add_of_le' h.printing
  have hdisplay : (w.display s.limits.printing v.datum).toOption = descending n := by
    -- The second loop makes no list, so the one of the first is where it was.
    have hcell : w.lists[s.world.lists.size]? = some ((below n).map fun i => Datum.number (.int i)).toArray :=
      Array.getElem?_push_size
    rw [hv, hdepth]
    exact display_below hcell depth
  have hzero : (w.display s.limits.printing v₁.datum).toOption = some "0" := by
    rw [hv₁, hdepth]
    rfl
  have hshown (result : Ending × Session) (hresult : (withCounter (n.fdiv 2) s₁).evaluate name
      (.loop (countdownTest second) (.block (countdownStep second))) = result) : countdown names first second n s =
        ((displayOf result.2 (.value v), displayOf result.2 result.1), result.2) := by
    rw [← hresult]
    simp only [countdown, hlisted]
    rfl
  rw [hshown _ hnull]
  exact congrArg₂ (fun a b => ((a, b), _)) hdisplay hzero

/-- **The loop counts down.**  For every `n` it ends.  With an inline body, from `n`, its value is the list of the numbers
below `n` from the highest to zero, which is empty if `n` is not positive; with a block, from half of `n`, it is null.  It
is the same at every call, whatever the calls before have left behind, wherever the parts of the loop stand, whatever names
are bound beside `i`, and however many rounds more than that the limits allow.  (A number of more digits than the limit has
no text, and a list with such a number has no display.) -/
theorem countdown_descends (names : List (String × Datum)) (first second : Places) (n : Int) (w : World)
    (extra calls : Nat) :
    countdownCalls names first second n calls ⟨w, { limitsFor n with rounds := (limitsFor n).rounds + extra }⟩ =
      List.replicate calls (descending n, some "0") := by
  induction calls generalizing w with
  | zero => rfl
  | succ calls ih =>
    obtain ⟨w', hcall⟩ := countdown_eq names first second (s := ⟨w, _⟩) (suffices_limitsFor n extra)
    rw [countdownCalls, hcall, List.replicate_succ, ← ih w']

end Workload

end Scriptlet
