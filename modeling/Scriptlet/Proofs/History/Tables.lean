import Scriptlet.Proofs.History.Moved
import Scriptlet.Proofs.History.Shown
import Scriptlet.Proofs.Joining.Runs
/-!
# What a run depends on

The world of a session keeps more of the past than the names that are bound: lists that nothing refers to, scopes of calls that
were given up with an error, and the context that null was last given.  Of all this only the names and the lists in their reach
count, and the calls of null's context.

Two worlds have the same table (`World.SameTable`) if each name is bound to the same in both.  In two sessions with the same
table, up to positions in the bodies of functions, a text ends the same way, prints the same and leaves the same table
(`run_by_table`).  If these positions are the same, so is what is shown of the end, unless it is an error that shows the calls that
null has kept from before the run.
-/
namespace Scriptlet

/-- Every name is bound to the same in both worlds.  Lists are in cells that correspond, one to one. -/
structure World.SameTable (S : Links) (w w' : World) : Prop where
  within : ∀ {n n'}, S n n' → n < w.lists.size ∧ n' < w'.lists.size
  unique : ∀ {m m' n n'}, S m m' → S n n' → (m = n ↔ m' = n')
  lists : ∀ {n n'}, S n n' → Option.Rel (Rows (Datum.Same S)) w.lists[n]? w'.lists[n']?
  names : ∀ name, Option.Rel (Datum.Same S) (w.scopes.get? Session.globalScope name)
    (w'.scopes.get? Session.globalScope name)

namespace World.SameTable

variable {S : Links} {w w' : World}

/-- The same table, with positions in the bodies of functions moved. -/
theorem relocate (h : World.SameTable S w w') (φ : Position → Position) :
    World.SameTable S (w.relocate φ) (w'.relocate φ) where
  within hn := by
    simp only [World.relocate, Array.size_map]
    exact h.within hn
  unique := h.unique
  lists hn := by
    simp only [World.relocate, Array.getElem?_map]
    exact Option.Rel.map (h.lists hn) fun _ _ hrows => hrows.map fun _ _ hd => hd.relocate
  names name := by
    simp only [World.relocate, Scopes.get?_map]
    exact Option.Rel.map (h.names name) fun _ _ hd => hd.relocate

/-- Two worlds with the same table, as the past of a run. -/
def past (h : World.SameTable S w w') : Past := ⟨false, w, w', S, h.within, h.unique⟩

/-- **Settled worlds with the same table and the same input meet.** -/
theorem meets (h : World.SameTable S w w') (hw : w.Settled false) (hw' : w'.Settled false) (hinput : w'.input = w.input) :
    h.past.Meets 0 0 w w' := by
  have hkept : ∀ {d d' : Datum}, d.Same S d' → (Past.self false w).Kept 0 d d → h.past.Kept 0 d d' :=
    fun hsame hself => ⟨Datum.Linked.mono (fun _ _ hn => .inl hn) hsame, hself.fits⟩
  refine .outset hw.meets.names.left hw'.meets.names.left (fun {n n'} hn => ?_) (fun name => ?_)
    ⟨hw.meets.nullSpan.1, hw'.meets.nullSpan.1⟩ hinput
  · have hself := hw.meets.lists (.inl ⟨rfl, (h.within hn).1⟩)
    have hrel : Option.Rel _ w.lists[n]? w'.lists[n']? := h.lists hn
    show Option.Rel _ w.lists[n]? w'.lists[n']?
    generalize w.lists[n]? = a, w'.lists[n']? = b at hrel hself
    cases hrel with
    | none => exact .none
    | some hrows =>
      cases hself with
      | some hself =>
        have hfit := List.forall₂_same.1 hself
        exact .some (((List.forall₂_and_left _ _).2 ⟨hfit, hrows⟩).imp fun d d' hd => hkept hd.2 hd.1)
  · have hself := hw.meets.names.table name
    have hrel := h.names name
    show Option.Rel _ (w.scopes.get? Session.globalScope name) (w'.scopes.get? Session.globalScope name)
    generalize w.scopes.get? Session.globalScope name = a, w'.scopes.get? Session.globalScope name = b at hrel hself
    cases hrel with
    | none => exact .none
    | some hsame =>
      cases hself with
      | some hself => exact .some (hkept hsame hself)

end World.SameTable

theorem World.display_zeroed (w : World) (depth : Nat) (d : Datum) : w.display depth d.zeroed = w.display depth d := by
  unfold World.display
  rw [w.text_zeroed]
  cases d <;> rfl

namespace Past.Meets

variable {Γ : Past} {j k : Nat} {w w' : World} (h : Γ.Meets j k w w')

include h

/-- **Worlds that meet have the same table.** -/
theorem sameTable : World.SameTable (Γ.Cell j) w w' where
  within hn := by
    rw [h.cells.1, h.cells.2]
    exact Cell.lt hn
  unique := Cell.unique
  lists hn := Option.Rel.imp (h.lists hn) fun _ _ hrows => hrows.imp fun _ _ hd => hd.same
  names name := Option.Rel.imp (h.names.table name) fun _ _ hd => hd.same

theorem display_eq (depth : Nat) {d d' : Datum} (hd : d.Same (Γ.Cell j) d') : w'.display depth d' = w.display depth d := by
  have htext := h.text_eq depth hd
  rw [← w'.text_zeroed, ← w.text_zeroed] at htext
  rw [← w'.display_zeroed, ← w.display_zeroed]
  unfold World.display
  rw [htext]
  unfold Datum.Same at hd
  generalize d.zeroed = e, d'.zeroed = e' at hd
  cases e with
  | list n =>
    obtain ⟨n', rfl, -⟩ := hd
    rfl
  | _ =>
    cases hd
    rfl

/-- What the shell shows of values that correspond. -/
theorem shown_eq {limits : Limits} {d d' : Datum} (hd : d.Linked id (Γ.Cell j) d') :
    Shell.shown ⟨w', limits⟩ d' = Shell.shown ⟨w, limits⟩ d := by
  have hdisplay := fun (d d' : Datum) (hd : d.Same (Γ.Cell j) d') => h.display_eq limits.printing hd
  cases d with
  | list n =>
    obtain ⟨n', rfl, hn⟩ := hd
    have hwhole := hdisplay (.list n) (.list n') ⟨n', rfl, hn⟩
    have hitems : List.Forall₂ (Γ.Kept j) (w.lists[n]?.getD #[]).toList (w'.lists[n']?.getD #[]).toList := h.elements hn
    unfold Shell.shown
    simp only
    generalize (w.lists[n]?.getD #[]).toList = xs, (w'.lists[n']?.getD #[]).toList = ys at hitems
    cases hitems with
    | nil => exact hwhole
    | cons hx hrest =>
      cases hrest with
      | nil => exact hdisplay _ _ hx.same
      | cons _ _ => exact hwhole
  | _ =>
    cases hd
    exact hdisplay _ _ rfl

end Past.Meets

/-- Errors with the same reason, place and calls are shown alike. -/
theorem RuntimeError.message_eq {e e' : RuntimeError} (hreason : e'.reason = e.reason) (hstart : e'.start = e.start)
    (hstop : e'.stop = e.stop) (hcalls : e.context.map Context.trace = e'.context.map Context.trace) :
    e'.message = e.message := by
  obtain ⟨reason, start, stop, context⟩ := e
  obtain ⟨reason', start', stop', context'⟩ := e'
  simp only at hreason hstart hstop hcalls
  subst hreason hstart hstop
  cases context with
  | none =>
    cases context' with
    | none => rfl
    | some c' => cases hcalls
  | some c =>
    cases context' with
    | none => cases hcalls
    | some c' => simp only [message, calls_eq_of_trace (Option.some.inj hcalls)]

/-- Two runs end the same way: with values that correspond, or with the same problem, fault, or error at the same place. -/
inductive Ending.Same (S : Links) : Ending → Ending → Prop
  | value {v v' : Value} (h : v.datum.Linked id S v'.datum) : Same S (.value v) (.value v')
  | problem (p : Problem) : Same S (.problem p) (.problem p)
  | error {e e' : RuntimeError} (hreason : e'.reason = e.reason) (hstart : e'.start = e.start) (hstop : e'.stop = e.stop) :
      Same S (.error e) (.error e')
  | fault (f : Fault) : Same S (.fault f) (.fault f)

theorem Past.SameEnding.same {Γ : Past} {S : Links} {ending ending' : Ending} (h : Γ.SameEnding S ending ending') :
    Ending.Same S ending ending' := by
  cases h with
  | value hv => exact .value hv
  | problem p => exact .problem p
  | error he => exact .error he.reason he.start he.stop
  | fault f => exact .fault f

theorem Session.run_limits (s : Session) (name : String) (source : Source) : (s.run name source).2.limits = s.limits := by
  unfold Session.run
  split
  · next tree _ => exact s.evaluate_limits name tree
  · rfl
  · rfl

/-- What is shown of two runs that end alike is the same if null belonged to the same calls in both, or if the error does not
belong to null. -/
theorem Past.SameEnding.report_eq {Γ : Past} {j k : Nat} {t t' : Session} (h : Γ.Meets j k t.world t'.world)
    (hlimits : t'.limits = t.limits) {ending ending' : Ending} (hending : Γ.SameEnding (Γ.Cell j) ending ending')
    (hnull : Γ.left.nullSite.context.map Context.trace = Γ.right.nullSite.context.map Context.trace ∨
      ∀ e, ending = .error e → e.context ≠ Γ.left.nullSite.context) :
    Shell.report t' ending' = Shell.report t ending := by
  obtain ⟨w, limits⟩ := t
  obtain ⟨w', limits'⟩ := t'
  simp only at hlimits h
  subst hlimits
  cases hending with
  | value hv => exact h.shown_eq hv
  | problem p => rfl
  | fault f => rfl
  | @error e e' he =>
    refine RuntimeError.message_eq he.reason he.start he.stop ?_
    rcases he.context with ⟨c, c', hc, hc', htrace, -⟩ | ⟨hc, hc'⟩
    · rw [hc, hc', Option.map_some, Option.map_some, htrace]
    · rw [hc, hc']
      rcases hnull with hnull | hnull
      · exact hnull
      · exact absurd hc (hnull e rfl)

/-- A text has a problem whatever the session, since the problem is found before anything is evaluated. -/
theorem Session.run_problem_iff {s : Session} {name : String} {source : Source} {p : Problem} :
    (s.run name source).1 = .problem p ↔ Parse.program s.limits source = .error (.problem p) := by
  unfold run
  cases Parse.program s.limits source with
  | ok tree =>
    refine ⟨fun h => ?_, fun h => by cases h⟩
    unfold evaluate perform at h
    simp only at h
    generalize (eval s.limits s.limits.evaluation tree (rootContext name)).run s.world = x at h
    obtain ⟨(e | f) | v, w⟩ := x <;> cases h
  | error failure =>
    cases failure with
    | problem q => simp
    | fault f => simp

/-- What is shown of two runs that end alike up to positions, but not with an error. -/
theorem Past.SameEnding.report_eq_relocate {Γ : Past} {φ : Position → Position} {j k : Nat} {t t' : Session}
    (h : Γ.Meets j k (t.relocate φ).world (t'.relocate φ).world) (hlimits : t'.limits = t.limits) {ending ending' : Ending}
    (hending : Γ.SameEnding (Γ.Cell j) (ending.relocate φ) (ending'.relocate φ))
    (hproblem : ∀ p, ending = .problem p → ending' = .problem p) (herror : ∀ e, ending ≠ .error e) :
    Shell.report t' ending' = Shell.report t ending := by
  cases ending with
  | value v =>
    cases ending' with
    | value v' =>
      cases hending with
      | value hv =>
        calc Shell.shown t' v'.datum
            = Shell.shown (t'.relocate φ) (v'.datum.relocate φ) := (Shell.shown_relocate t' v'.datum).symm
          _ = Shell.shown ⟨(t'.relocate φ).world, t.limits⟩ (v'.datum.relocate φ) := by rw [← hlimits]; rfl
          _ = Shell.shown (t.relocate φ) (v.datum.relocate φ) := h.shown_eq hv
          _ = Shell.shown t v.datum := Shell.shown_relocate t v.datum
    | problem p | error e | fault f => cases hending
  | problem p =>
    rw [hproblem p rfl]
    rfl
  | error e => exact absurd rfl (herror e)
  | fault f =>
    cases ending' with
    | fault f' =>
      cases hending
      rfl
    | value v | problem p | error e => cases hending

/-! ## Tables of integers and builtins -/

/-- An integer or a builtin; null counts as zero. -/
def Datum.atom? : Datum → Option (Int ⊕ String)
  | .null => some (.inl 0)
  | .number (.int n) => some (.inl n)
  | .builtin name => some (.inr name)
  | _ => none

theorem Datum.zeroed_of_atom? {d : Datum} {a : Int ⊕ String} (h : d.atom? = some a) :
    d.zeroed = a.elim (fun n => .number (.int n)) .builtin := by
  unfold Datum.atom? at h
  split at h <;> cases h <;> rfl

theorem Datum.same_of_atom? {S : Links} {d d' : Datum} {a : Int ⊕ String} (h : d.atom? = some a) (h' : d'.atom? = some a) :
    d.Same S d' := by
  unfold Datum.Same
  rw [Datum.zeroed_of_atom? h, Datum.zeroed_of_atom? h']
  cases a <;> rfl

/-- A name with the integer or builtin that it is bound to. -/
def entryAtom (e : String × Option Datum) : String × Option (Int ⊕ String) := (e.1, e.2.bind Datum.atom?)

theorem entries_same_of_atoms {S : Links} {es es' : List (String × Option Datum)} (h : es.map entryAtom = es'.map entryAtom)
    (hsome : ∀ a ∈ es.map entryAtom, a.2.isSome = true) : List.Forall₂ (EntryLinked (Datum.Same S)) es es' := by
  induction es generalizing es' with
  | nil =>
    cases es' with
    | nil => exact .nil
    | cons e' es' => cases h
  | cons e es ih =>
    cases es' with
    | nil => cases h
    | cons e' es' =>
      obtain ⟨hhead, htail⟩ := List.cons.inj h
      obtain ⟨hname, hatom⟩ := Prod.mk.inj hhead
      refine .cons ⟨hname.symm, ?_⟩ (ih htail fun a ha => hsome a (List.mem_cons_of_mem _ ha))
      obtain ⟨a, ha⟩ := Option.isSome_iff_exists.1 (hsome _ List.mem_cons_self)
      obtain ⟨d, hd, hda⟩ := Option.bind_eq_some_iff.1 ha
      obtain ⟨d', hd', hda'⟩ := Option.bind_eq_some_iff.1 (hatom.symm.trans ha)
      rw [hd, hd']
      exact .some (Datum.same_of_atom? hda hda')

/-- The names of a scope with the integers and builtins that they are bound to. -/
def World.atoms (w : World) (scope : Nat) : List (String × Option (Int ⊕ String)) :=
  (w.scopes.all[scope]?.elim [] Scope.entries).map entryAtom

/-- **Tables that bind the same names to the same integers and builtins are the same.** -/
theorem World.Settled.sameTable_of_atoms {w w' : World} (hw : w.Settled false) (hw' : w'.Settled false)
    (h : ∀ scope ∈ [Session.globalScope, Session.preludeScope],
      w.atoms scope = w'.atoms scope ∧ ∀ a ∈ w.atoms scope, a.2.isSome = true) :
    World.SameTable (fun _ _ => False) w w' := by
  refine ⟨False.elim, False.elim, False.elim, fun name => ?_⟩
  have hown : ∀ scope ∈ [Session.globalScope, Session.preludeScope],
      Option.Rel (Datum.Same fun _ _ => False) (w.scopes.ownAt? scope name) (w'.scopes.ownAt? scope name) := by
    intro scope hscope
    have hentries : ∀ s : Scopes Datum, s.ownAt? scope name =
        ((s.all[scope]?.elim [] Scope.entries).lookup name).join := by
      intro s
      unfold Scopes.ownAt?
      cases s.all[scope]? <;> rfl
    rw [hentries, hentries]
    exact lookup_linked name (entries_same_of_atoms (h scope hscope).1 (h scope hscope).2)
  rw [hw.meets.names.left.get?_ground, hw'.meets.names.left.get?_ground]
  exact Option.Rel.or (hown Session.globalScope (by simp)) (hown Session.preludeScope (by simp))

/-! ## Runs -/

/-- **What a run depends on.**  Let two sessions, each reached in its own way, have the same table and the same input left, up to
positions in the bodies of functions.  Then a text ends the same way, prints the same and leaves the same table and the same
input, and the same is shown of the end if it is not an error.  If the tables have the same positions as well, an error is at the
same place in both and the same is shown of it, unless the calls that null belongs to are different in the two sessions and the
error shows them. -/
theorem run_by_table {s s' : Session} (hs : s.Reachable) (hs' : s'.Reachable) (hlimits : s'.limits = s.limits)
    (hinput : s'.world.input = s.world.input) {S : Links} (htable : World.SameTable S s.bare.world s'.bare.world) (name : String)
    (source : Source) :
    (∃ T, World.SameTable T (s.run name source).2.bare.world (s'.run name source).2.bare.world ∧
      Ending.Same T (s.run name source).1.bare (s'.run name source).1.bare) ∧
    (s'.run name source).2.world.input = (s.run name source).2.world.input ∧
    (∃ text, (s.run name source).2.world.output = s.world.output ++ text ∧
      (s'.run name source).2.world.output = s'.world.output ++ text) ∧
    ((∀ e, (s.run name source).1 ≠ .error e) → Shell.report (s'.run name source).2 (s'.run name source).1 =
      Shell.report (s.run name source).2 (s.run name source).1) ∧
    (World.SameTable S s.world s'.world →
      (∃ T, World.SameTable T (s.run name source).2.world (s'.run name source).2.world ∧
        Ending.Same T (s.run name source).1 (s'.run name source).1) ∧
      ((s.world.nullSite.context.map Context.trace = s'.world.nullSite.context.map Context.trace ∨
          ∀ e, (s.run name source).1 = .error e → e.context ≠ s.world.nullSite.context) →
        Shell.report (s'.run name source).2 (s'.run name source).1 =
          Shell.report (s.run name source).2 (s.run name source).1)) := by
  have hsettled := hs.byKnownSigns.settled
  have hsettled' := hs'.byKnownSigns.settled
  have hlimits₁ : (s'.run name source).2.limits = (s.run name source).2.limits := by
    rw [Session.run_limits, Session.run_limits, hlimits]
  -- Up to positions the two sessions meet, and so do they after the run.
  obtain ⟨j, k, hrun, hending⟩ := Session.run_agree_relocate rfl
    (htable.meets hsettled.relocate hsettled'.relocate hinput) hlimits name source
  refine ⟨⟨_, hrun.sameTable, hending.same⟩, hrun.input, hrun.output, ?_, fun hplaces => ?_⟩
  · refine hending.report_eq_relocate hrun hlimits₁ fun p hp => ?_
    rw [Session.run_problem_iff] at hp ⊢
    rwa [hlimits]
  · obtain ⟨j, k, hrun, hending⟩ := Session.run_agree (hplaces.meets hsettled hsettled' hinput) hlimits name
      (Parse.isFair_false _ source)
    exact ⟨⟨_, hrun.sameTable, hending.same⟩, hending.report_eq hrun hlimits₁⟩

/-- The shell's session after some texts. -/
def Shell.after (texts : List String) : Session :=
  texts.foldl (fun s text => (s.run programName ⟨sourceName, text⟩).2) (start "")

theorem Shell.after_reachable (texts : List String) : (after texts).Reachable ∧ (after texts).limits = .standard :=
  List.foldlRecOn (motive := fun s : Session => s.Reachable ∧ s.limits = .standard) texts _ ⟨.start _ _, rfl⟩
    fun _ hs _ _ => ⟨.run _ _ hs.1, (Session.run_limits _ _ _).trans hs.2⟩

theorem Shell.after_limits_eq (texts texts' : List String) : (after texts').limits = (after texts).limits :=
  (after_reachable texts').2.trans (after_reachable texts).2.symm

theorem Shell.after_sameTable {texts texts' : List String}
    (h : ∀ scope ∈ [Session.globalScope, Session.preludeScope],
      (after texts).world.atoms scope = (after texts').world.atoms scope ∧
        ∀ a ∈ (after texts).world.atoms scope, a.2.isSome = true) :
    World.SameTable (fun _ _ => False) (after texts).world (after texts').world :=
  (after_reachable texts).1.byKnownSigns.settled.sameTable_of_atoms (after_reachable texts').1.byKnownSigns.settled h

/-- If the run ended with an error, the error has a context. -/
def Ending.hasContext : Ending → Bool
  | .error e => e.context.isSome
  | _ => true

/-- One past is a single assignment; the other also has a call that failed and one that null was given to. -/
theorem run_by_table_two_pasts : ∃ s s' : Session, s = Shell.after ["var x = 1"] ∧
    s' = Shell.after ["var x = 1", "print(1, 2)", "print(if 0 then 1)"] ∧ s.Reachable ∧ s'.Reachable ∧
    World.SameTable (fun _ _ => False) s.world s'.world ∧
    s.world.nullSite.context.map Context.trace ≠ s'.world.nullSite.context.map Context.trace ∧
    Shell.report (s'.run Shell.programName ⟨Shell.sourceName, "x / 0"⟩).2
        (s'.run Shell.programName ⟨Shell.sourceName, "x / 0"⟩).1 =
      Shell.report (s.run Shell.programName ⟨Shell.sourceName, "x / 0"⟩).2
        (s.run Shell.programName ⟨Shell.sourceName, "x / 0"⟩).1 := by
  have htable : World.SameTable (fun _ _ => False) (Shell.after ["var x = 1"]).world
      (Shell.after ["var x = 1", "print(1, 2)", "print(if 0 then 1)"]).world := Shell.after_sameTable (by decide +kernel)
  obtain ⟨-, -, -, -, hplaces⟩ := run_by_table (Shell.after_reachable _).1 (Shell.after_reachable _).1
    (Shell.after_limits_eq _ _) (by decide +kernel) (htable.relocate _) Shell.programName ⟨Shell.sourceName, "x / 0"⟩
  refine ⟨_, _, rfl, rfl, (Shell.after_reachable _).1, (Shell.after_reachable _).1, htable, by decide +kernel,
    (hplaces htable).2 (.inr fun e he hnull => ?_)⟩
  have hcontext : ((Shell.after ["var x = 1"]).run Shell.programName ⟨Shell.sourceName, "x / 0"⟩).1.hasContext = true := by
    decide +kernel
  have hnone : (Shell.after ["var x = 1"]).world.nullSite.context.isSome = false := by decide +kernel
  rw [he] at hcontext
  rw [← hnull] at hnone
  exact absurd (hcontext.symm.trans hnone) (by decide)

/-- **Null keeps the calls it was given to**: after a call that prints null, a division of null by zero shows that call. -/
theorem null_keeps_calls : ∃ s s' : Session, s = Shell.after [] ∧ s' = Shell.after ["print(if 0 then 1)"] ∧
    s.Reachable ∧ s'.Reachable ∧ World.SameTable (fun _ _ => False) s.world s'.world ∧
    Shell.report (s'.run Shell.programName ⟨Shell.sourceName, "(if 0 then 1) / 0"⟩).2
        (s'.run Shell.programName ⟨Shell.sourceName, "(if 0 then 1) / 0"⟩).1 ≠
      Shell.report (s.run Shell.programName ⟨Shell.sourceName, "(if 0 then 1) / 0"⟩).2
        (s.run Shell.programName ⟨Shell.sourceName, "(if 0 then 1) / 0"⟩).1 :=
  ⟨_, _, rfl, rfl, (Shell.after_reachable _).1, (Shell.after_reachable _).1, Shell.after_sameTable (by decide +kernel),
    by decide +kernel⟩

end Scriptlet
