import Scriptlet.Proofs.Conduct.Evaluation
import Scriptlet.Proofs.Conduct.Trees
/-!
# The worlds of sessions

Between two runs the world of a session is in order: the scope of the program's own names stands on the prelude, and all data
are sound.  A fresh session is in order, and a run keeps the order however it ends (`Session.run_inOrder`), so every session
that can be reached is (`Session.Reachable.inOrder`).
-/
namespace Scriptlet

/-- The two scopes that stand below all calls are there, and all data are sound. -/
structure World.InOrder (w : World) : Prop where
  shape : [none, some Session.preludeScope] <+: w.scopes.parents
  sound : w.Sound

namespace Session

/-- The ground of a run under a name. -/
def ground (strict : Prop) (name : String) : Ground where
  strict := strict
  base := []
  shape := [none, some preludeScope]
  root := rootContext name
  base_le := Nat.zero_le _

theorem over_root (strict : Prop) (name : String) {ps : List (Option Nat)} (h : [none, some preludeScope] <+: ps) :
    (ground strict name).Over ps (rootContext name) :=
  .root h (Nat.lt_of_lt_of_le (Nat.lt_succ_self 1) h.length_le)

theorem standing (strict : Prop) (name : String) {w : World} (h : w.InOrder) :
    Standing (ground strict name) w.scopes.parents w.lists.size w :=
  ⟨rfl, h.shape, List.nil_prefix, rfl, fun _ => h.sound⟩

/-! ## A fresh session -/

theorem builtin_sound (b : Builtin) (k : Nat) : (Datum.builtin b.name).Sound k := by
  cases b <;> rfl

theorem preludeNames_sound (builtins : List Builtin) (k : Nat) : ∀ x ∈ preludeNames builtins, x.2.Sound k := by
  intro x hx
  simp only [preludeNames, List.mem_append, List.mem_map] at hx
  rcases hx with hx | ⟨b, _, rfl⟩
  · simp only [List.mem_cons, List.not_mem_nil, or_false] at hx
    rcases hx with rfl | rfl | rfl <;> trivial
  · exact builtin_sound b k

theorem start_inOrder (builtins : List Builtin) (input : String) (limits : Limits) :
    (start builtins input limits).world.InOrder := by
  have hnames : ∀ (names : List (String × Datum)) (s : Scopes Datum), (∀ x ∈ names, x.2.Sound 0) →
      (⟨#[], s, .none, input.toList, ""⟩ : World).InOrder →
      (⟨#[], names.foldl (fun s x => s.set preludeScope x.1 (some x.2)) s, .none, input.toList, ""⟩ :
        World).InOrder := by
    intro names
    induction names with
    | nil => exact fun s _ hs => hs
    | cons x names ih =>
      intro s hnames hs
      refine ih _ (fun y hy => hnames y (List.mem_cons_of_mem x hy)) ?_
      have hx : (ground True "").Fit 0 x.2 := fun _ => hnames x List.mem_cons_self
      have hset := (standing True "" hs).set (Nat.zero_le preludeScope) x.1 hx
      exact ⟨hset.parents ▸ hset.shape, hset.sound trivial⟩
  refine hnames _ _ (preludeNames_sound builtins 0) ⟨List.prefix_refl _, ⟨?_, ?_⟩⟩
  · intro i items hitems
    simp at hitems
  · intro i t ht name d hd
    rcases i with _ | _ | i
    · cases ht
      cases hd
    · cases ht
      cases hd
    · cases ht

/-! ## Runs -/

theorem evaluate_inOrder {s : Session} (h : s.world.InOrder) (name : String) {tree : Node}
    (htree : tree.isRunnable = true) : (s.evaluate name tree).2.world.InOrder ∧
      ∀ f, (s.evaluate name tree).1 = .fault f → f.isInternal = false := by
  have hensures : Ensures (ground True name) s.world.scopes.parents s.world.scopes.parents s.world.lists.size
      ((ground True name).Own (rootContext name)) (eval s.limits s.limits.evaluation tree (rootContext name))
      (eval s.limits s.limits.evaluation tree (rootContext name)) :=
    eval_ensures _ _ (over_root True name h.shape) fun _ => htree
  have hleaves := (hensures s.world (standing True name h)).2
  unfold evaluate perform
  simp only
  generalize (eval s.limits s.limits.evaluation tree (rootContext name)).run s.world = r at hleaves
  obtain ⟨x, w⟩ := r
  cases x with
  | ok v =>
    obtain ⟨k, -, hw, -⟩ := hleaves
    refine ⟨⟨hw.parents ▸ hw.shape, hw.sound trivial⟩, fun f hf => ?_⟩
    cases hf
  | error stop =>
    have hw : Stopped (ground True name) stop w := hleaves
    cases stop with
    | error e =>
      refine ⟨⟨hw.shape, (hw.sound trivial).1⟩, fun f hf => ?_⟩
      cases hf
    | fault g =>
      refine ⟨⟨hw.shape, (hw.sound trivial).1⟩, fun f hf => ?_⟩
      cases hf
      simpa [Stop.isOrdinary] using (hw.sound trivial).2

/-- **A run keeps the world in order**, however it ends, and never ends in an internal fault. -/
theorem run_inOrder {s : Session} (h : s.world.InOrder) (name : String) (source : Source) :
    (s.run name source).2.world.InOrder ∧ ∀ f, (s.run name source).1 = .fault f → f.isInternal = false := by
  unfold run
  split
  · next tree htree => exact evaluate_inOrder h name (Parse.program_isRunnable htree)
  · exact ⟨h, fun f hf => by cases hf⟩
  · next f hfault =>
    refine ⟨h, fun g hg => ?_⟩
    cases hg
    rcases Parse.program_fault hfault with rfl | rfl <;> rfl

/-- The sessions that a fresh one becomes by runs, between which its output may be handed over. -/
inductive Reachable : Session → Prop
  | start (input : String) (limits : Limits) : Reachable (start Builtin.all input limits)
  | run {s : Session} (name : String) (source : Source) : Reachable s → Reachable (s.run name source).2
  | takeOutput {s : Session} : Reachable s → Reachable s.takeOutput.2

theorem Reachable.inOrder {s : Session} (h : s.Reachable) : s.world.InOrder := by
  induction h with
  | start input limits => exact start_inOrder Builtin.all input limits
  | run name source _ ih => exact (run_inOrder ih name source).1
  | takeOutput _ ih => exact ⟨ih.shape, ⟨ih.sound.lists, ih.sound.scopes⟩⟩

end Session

end Scriptlet
