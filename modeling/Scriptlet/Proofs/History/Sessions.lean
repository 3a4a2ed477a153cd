import Scriptlet.Proofs.Conduct.Sessions
import Scriptlet.Proofs.History.Evaluation
/-!
# The same text in two sessions

A run begins outside all calls, before any list is made.  Two worlds that meet at the end of a run meet at the beginning of the
next one (`Past.Meets.after`), so what is said of one run can be said of many.

A world that meets itself is settled: null has no place in it, all functions in its reach are made of fair trees, and no call
without a place has left its context with null.  A fresh session is settled and a run keeps it so
(`Session.ReachableBy.settled`).
-/
namespace Scriptlet

/-! ## From one run to the next -/

namespace Past

variable {Γ : Past} {j k : Nat} {w w' : World}

/-- What a run leaves is the past of the next one, which may begin with other things printed. -/
def after (Γ : Past) {j k : Nat} {w w' : World} (h : Γ.Meets j k w w') (text text' : String) : Past where
  tidy := Γ.tidy
  left := { w with output := text }
  right := { w' with output := text' }
  links := Γ.Cell j
  within hn := by
    rw [h.cells.1, h.cells.2]
    exact Cell.lt hn
  unique := Cell.unique

theorem stack_zero {v : World} (h : v.Stack k w.scopes) : w.Stack 0 w.scopes := by
  have hbase := h.base
  have hsize := h.size
  exact ⟨by omega, rfl, h.shape, fun i hi => absurd hi (Nat.not_lt_zero i)⟩

theorem Meets.after (h : Γ.Meets j k w w') (text text' : String) :
    (Γ.after h text text').Meets 0 0 { w with output := text } { w' with output := text' } := by
  have hkept : ∀ d d', Γ.Kept j d d' → (Γ.after h text text').Kept 0 d d' :=
    fun _ _ hd => ⟨Datum.Linked.mono (fun _ _ hn => .inl hn) hd.same, hd.fits⟩
  have hleft : World.Stack { w with output := text } 0 w.scopes := stack_zero (w := { w with output := text }) h.names.left
  have hright : World.Stack { w' with output := text' } 0 w'.scopes :=
    stack_zero (w := { w' with output := text' }) h.names.right
  refine .outset hleft hright (fun hn => ?_) (fun name => ?_) h.nullSpan h.input
  · exact Option.Rel.imp (h.lists hn) fun _ _ hrows => hrows.imp hkept
  · exact Option.Rel.imp (h.names.table name) hkept

/-- A world beside itself. -/
def self (tidy : Bool) (w : World) : Past where
  tidy := tidy
  left := w
  right := w
  links n n' := n = n' ∧ n < w.lists.size
  within := by
    rintro n _ ⟨rfl, hn⟩
    exact ⟨hn, hn⟩
  unique := by
    rintro m _ n _ ⟨rfl, -⟩ ⟨rfl, -⟩
    exact Iff.rfl

theorem self_after {tidy : Bool} {u : World} (h : (self tidy w).Meets j k u u) (text : String) :
    (self tidy w).after h text text = self tidy { u with output := text } := by
  have hsize : u.lists.size = w.lists.size + j := h.cells.1
  have hlinks : (self tidy w).Cell j = fun n n' => n = n' ∧ n < u.lists.size := by
    funext n n'
    refine propext ⟨?_, ?_⟩
    · rintro (⟨rfl, hn⟩ | ⟨i, hi, rfl, rfl⟩)
      · exact ⟨rfl, by omega⟩
      · refine ⟨rfl, ?_⟩
        show w.lists.size + i < u.lists.size
        omega
    · rintro ⟨rfl, hn⟩
      by_cases hlt : n < w.lists.size
      · exact .inl ⟨rfl, hlt⟩
      · have hi : n = w.lists.size + (n - w.lists.size) := by omega
        exact .inr ⟨n - w.lists.size, by omega, hi, hi⟩
  unfold after
  simp only [hlinks]
  rfl

end Past

/-! ## Runs in two sessions -/

/-- How two runs end. -/
inductive Past.SameEnding (Γ : Past) (S : Links) : Ending → Ending → Prop
  | value {v v' : Value} (h : v.datum.Linked id S v'.datum) : Γ.SameEnding S (.value v) (.value v')
  | problem (p : Problem) : Γ.SameEnding S (.problem p) (.problem p)
  | error {e e' : RuntimeError} (h : Γ.SameError e e') : Γ.SameEnding S (.error e) (.error e')
  | fault (f : Fault) : Γ.SameEnding S (.fault f) (.fault f)

/-- The text is read as a fair tree, or not read at all. -/
def Parse.isFair (tidy : Bool) (limits : Limits) (source : Source) : Bool :=
  match Parse.program limits source with
  | .ok tree => tree.every (Node.isFair tidy)
  | .error _ => true

theorem Parse.isFair_false (limits : Limits) (source : Source) : Parse.isFair false limits source = true := by
  unfold Parse.isFair
  split
  · next tree htree => exact Parse.program_hasKnownSigns htree
  · rfl

namespace Session

variable {Γ : Past} {s s' : Session} (h : Γ.Meets 0 0 s.world s'.world) (hlimits : s'.limits = s.limits)

include h hlimits

/-- **The same tree is evaluated alike in two sessions whose worlds meet.** -/
theorem evaluate_agree (name : String) {tree : Node} (htree : tree.every (Node.isFair Γ.tidy) = true) :
    ∃ j k, Γ.Meets j k (s.evaluate name tree).2.world (s'.evaluate name tree).2.world ∧
      Γ.SameEnding (Γ.Cell j) (s.evaluate name tree).1 (s'.evaluate name tree).1 := by
  obtain ⟨w, limits⟩ := s
  obtain ⟨w', limits'⟩ := s'
  simp only at hlimits h
  subst hlimits
  have hroot : Γ.Within 0 (rootContext name) (rootContext name) := ⟨rfl, rfl, rfl, rfl⟩
  have hends := eval_agree limits' limits'.evaluation hroot htree w w' h
  unfold evaluate perform
  simp only
  generalize (eval limits' limits'.evaluation tree (rootContext name)).run w = x,
    (eval limits' limits'.evaluation tree (rootContext name)).run w' = y at hends
  obtain ⟨x, u⟩ := x
  obtain ⟨y, u'⟩ := y
  cases x with
  | ok v =>
    cases y with
    | error stop' => cases hends
    | ok v' =>
      obtain ⟨j, -, hmeets, hv⟩ := hends
      exact ⟨j, 0, hmeets, .value hv.1.datum⟩
  | error stop =>
    cases y with
    | ok v' => cases hends
    | error stop' =>
      obtain ⟨hstop, j, k, hmeets⟩ := hends
      cases stop with
      | error e =>
        cases stop' with
        | error e' => exact ⟨j, k, hmeets, .error hstop⟩
        | fault f' => cases hstop
      | fault f =>
        cases stop' with
        | error e' => cases hstop
        | fault f' =>
          cases hstop
          exact ⟨j, k, hmeets, .fault f⟩

theorem run_agree (name : String) {source : Source} (hfair : Parse.isFair Γ.tidy s.limits source = true) :
    ∃ j k, Γ.Meets j k (s.run name source).2.world (s'.run name source).2.world ∧
      Γ.SameEnding (Γ.Cell j) (s.run name source).1 (s'.run name source).1 := by
  unfold Parse.isFair at hfair
  unfold run
  rw [hlimits]
  cases hparse : Parse.program s.limits source with
  | ok tree =>
    rw [hparse] at hfair
    exact evaluate_agree h hlimits name hfair
  | error failure =>
    cases failure with
    | problem p => exact ⟨0, 0, h, .problem p⟩
    | fault f => exact ⟨0, 0, h, .fault f⟩

end Session

/-! ## Settled worlds -/

/-- The world meets itself, and what null belongs to was called from a place. -/
structure World.Settled (tidy : Bool) (w : World) : Prop where
  meets : (Past.self tidy w).Meets 0 0 w w
  placed : ∀ c, w.nullSite.context = some c → c.isPlaced = true

theorem World.Settled.isPlaced {tidy : Bool} {w : World} (h : w.Settled tidy) {o o' : Option Context}
    (ho : (Past.self tidy w).SameCalls o o') : ∀ c, o = some c → c.isPlaced = true := by
  rintro c rfl
  rcases ho with ⟨c, c', hc, -, -, hplaced⟩ | ⟨hnull, -⟩
  · cases hc
    exact hplaced
  · exact h.placed c hnull.symm

theorem World.Settled.after {tidy : Bool} {w u : World} (h : w.Settled tidy) {j k : Nat}
    (hmeets : (Past.self tidy w).Meets j k u u) (text : String) : World.Settled tidy { u with output := text } where
  meets := by
    have hafter := hmeets.after text text
    rwa [Past.self_after] at hafter
  placed := h.isPlaced hmeets.nullContext

namespace Session

/-- What is bound in a scope after some names have been bound in the prelude. -/
theorem own_of_prelude {P : Datum → Prop} (names : List (String × Datum)) {s : Scopes Datum} (hsize : preludeScope < s.size)
    (hnames : ∀ x ∈ names, P x.2) (hs : ∀ i name d, s.ownAt? i name = some d → P d) (i : Nat) (name : String) (d : Datum)
    (h : (names.foldl (fun s x => s.set preludeScope x.1 (some x.2)) s).ownAt? i name = some d) : P d := by
  induction names generalizing s with
  | nil => exact hs i name d h
  | cons x names ih =>
    refine ih (by rwa [Scopes.size_set]) (fun y hy => hnames y (List.mem_cons_of_mem x hy)) (fun i name d hown => ?_) h
    rw [Scopes.ownAt?_set hsize] at hown
    split at hown
    · cases hown
      exact hnames x List.mem_cons_self
    · exact hs i name d hown

theorem start_settled (tidy : Bool) (input : String) (limits : Limits) :
    (start Builtin.all input limits).world.Settled tidy := by
  refine ⟨?_, fun c hc => by cases hc⟩
  have hshape := (start_inOrder Builtin.all input limits).shape
  have hstack : World.Stack (start Builtin.all input limits).world 0 (start Builtin.all input limits).world.scopes := by
    refine ⟨?_, rfl, hshape, fun i hi => absurd hi (Nat.not_lt_zero i)⟩
    rw [← Scopes.length_parents]
    exact hshape.length_le
  have hkept : ∀ i name d, (start Builtin.all input limits).world.scopes.ownAt? i name = some d →
      (Past.self tidy (start Builtin.all input limits).world).Kept 0 d d := by
    refine own_of_prelude _ (by decide) ?_ ?_
    · intro x hx
      simp only [preludeNames, List.mem_append, List.mem_map] at hx
      rcases hx with hx | ⟨b, -, rfl⟩
      · simp only [List.mem_cons, List.not_mem_nil, or_false] at hx
        rcases hx with rfl | rfl | rfl <;> exact ⟨rfl, rfl⟩
      · exact ⟨rfl, rfl⟩
    · intro i name d hd
      rcases i with _ | _ | i <;> cases hd
  refine .outset hstack hstack (fun hn => ?_) (fun name => ?_) ⟨rfl, rfl⟩ rfl
  · cases hn.2
  · show Option.Rel _ ((start Builtin.all input limits).world.scopes.get? globalScope name)
      ((start Builtin.all input limits).world.scopes.get? globalScope name)
    cases hget : (start Builtin.all input limits).world.scopes.get? globalScope name with
    | none => exact .none
    | some d =>
      rw [hstack.get?_ground, Option.or_eq_some_iff] at hget
      rcases hget with hown | ⟨-, hown⟩
      · exact .some (hkept _ name d hown)
      · exact .some (hkept _ name d hown)

/-- The sessions that a fresh one becomes by runs of texts that are read as fair trees. -/
inductive ReachableBy (tidy : Bool) : Session → Prop
  | start (input : String) (limits : Limits) : ReachableBy tidy (start Builtin.all input limits)
  | run {s : Session} (name : String) {source : Source} : ReachableBy tidy s →
      Parse.isFair tidy s.limits source = true → ReachableBy tidy (s.run name source).2
  | takeOutput {s : Session} : ReachableBy tidy s → ReachableBy tidy s.takeOutput.2

theorem Reachable.byKnownSigns {s : Session} (h : s.Reachable) : s.ReachableBy false := by
  induction h with
  | start input limits => exact .start input limits
  | run name source _ ih => exact .run name ih (Parse.isFair_false _ _)
  | takeOutput _ ih => exact .takeOutput ih

/-- **Between two runs the world is settled.** -/
theorem ReachableBy.settled {tidy : Bool} {s : Session} (h : s.ReachableBy tidy) : s.world.Settled tidy := by
  induction h with
  | start input limits => exact start_settled tidy input limits
  | run name _ hfair ih =>
    obtain ⟨j, k, hmeets, -⟩ := run_agree ih.meets rfl name hfair
    exact ih.after hmeets _
  | takeOutput _ ih => exact ih.after ih.meets ""

end Session

end Scriptlet
