import Scriptlet.Proofs.Conduct.Sessions
import Scriptlet.Proofs.Joining.Programs
import Scriptlet.Proofs.Running.Layout
import Scriptlet.Shell
/-!
# Running a program in one go or in pieces

Two texts that run one after the other, each to a value, run to a value when they are put together with a newline between
them, and do the same (`run_join`).  The two ways differ in the cells of lists: with two runs, the list of the values of the
first text is there while the second runs.  Nothing can get hold of that list, so it stays as it is, and the cells that are
made later correspond.

The worlds of the two ways correspond in the sense of `World.Linked`, with the list of the first values kept.  Before and
after the second text the links are cut down to cells that exist (`World.Linked.below`), so that each world can make a list
of its own; this is where it matters that no datum of a session points to a cell that does not exist.
-/
namespace Scriptlet

variable {φ : Position → Position} {kept : Nat → Option (Array Datum)} {S : Links}

/-! ## Links between cells that exist -/

/-- The links from the cells below a number. -/
def Links.below (S : Links) (k : Nat) : Links := fun n n' => S n n' ∧ n < k

/-- Only cells that exist are linked. -/
def Links.Within (S : Links) (w w' : World) : Prop := ∀ n n', S n n' → n < w.lists.size ∧ n' < w'.lists.size

theorem Links.Within.push {w w' : World} (h : S.Within w w') (items : Array Datum) :
    S.Within w { w' with lists := w'.lists.push items } := by
  intro n n' hn
  have hlt := h n n' hn
  simp only [Array.size_push]
  omega

theorem Datum.Linked.below {d d' : Datum} (h : Datum.Linked φ S d d') {k : Nat} (hd : d.Sound k) :
    Datum.Linked φ (S.below k) d d' := by
  cases d with
  | list n =>
    obtain ⟨n', rfl, hn⟩ := h
    exact ⟨n', rfl, hn, hd⟩
  | _ => exact h

theorem Rows.below {xs ys : Array Datum} (h : Rows (Datum.Linked φ S) xs ys) {k : Nat}
    (hxs : ∀ d ∈ xs.toList, d.Sound k) : Rows (Datum.Linked φ (S.below k)) xs ys :=
  ((List.forall₂_and_left _ _).2 ⟨hxs, h⟩).imp fun _ _ hd => hd.2.below hd.1

theorem Scopes.Linked.below {s s' : Scopes Datum} (h : s.Linked (Datum.Linked φ S) s') {k : Nat}
    (hs : ∀ (i : Nat) (t : Scope Datum), s.all[i]? = some t → ∀ name d, (name, some d) ∈ t.entries → d.Sound k) :
    s.Linked (Datum.Linked φ (S.below k)) s' := by
  have hscopes : ∀ t ∈ s.all.toList, ∀ name d, (name, some d) ∈ t.entries → d.Sound k := by
    intro t ht
    obtain ⟨i, hi⟩ := List.mem_iff_getElem?.1 ht
    exact hs i t (by rwa [Array.getElem?_toList] at hi)
  refine ((List.forall₂_and_left _ _).2 ⟨hscopes, h⟩).imp fun t t' ht => ⟨ht.2.1, ?_⟩
  have hentries : ∀ e ∈ t.entries, ∀ d, e.2 = some d → d.Sound k := fun e he d hd => ht.1 e.1 d (hd ▸ he)
  refine ((List.forall₂_and_left _ _).2 ⟨hentries, ht.2.2⟩).imp fun e e' he => ⟨he.2.1, ?_⟩
  obtain ⟨hsound, _, hrel⟩ := he
  generalize e.2 = o, e'.2 = o' at hsound hrel
  cases hrel with
  | none => exact .none
  | some hd => exact .some (hd.below (hsound _ rfl))

/-- One cell is kept, with such elements. -/
def keptAt (n : Nat) (items : Array Datum) (m : Nat) : Option (Array Datum) := if m = n then some items else none

theorem keptAt_eq_some {n m : Nat} {items row : Array Datum} : keptAt n items m = some row ↔ m = n ∧ row = items := by
  rw [keptAt, Option.ite_none_right_eq_some, Option.some.injEq, eq_comm (a := items)]

namespace World.Linked

variable {w w' : World} (h : World.Linked φ kept S w w')

include h

/-- **Nothing is lost if only cells that exist are linked**, in a world where no datum points to another cell. -/
theorem below (hw : w.Sound) : World.Linked φ kept (S.below w.lists.size) w w' where
  lists {n n'} hn := by
    have hrel := h.lists hn.1
    have hsound := hw.lists n
    generalize w.lists[n]? = o, w'.lists[n']? = o' at hrel hsound
    cases hrel with
    | none => exact .none
    | some hrows => exact .some (hrows.below (hsound _ rfl))
  unique hm hn := h.unique hm.1 hn.1
  fresh hn := h.fresh hn.1
  kept hn := ⟨(h.kept hn).1, fun n hlink => (h.kept hn).2 n hlink.1⟩
  scopes := h.scopes.below hw.scopes
  nullSite := h.nullSite
  input := h.input
  output := h.output

theorem within_below : (S.below w.lists.size).Within w w' := by
  rintro n n' ⟨hn, hlt⟩
  have hrel := h.lists hn
  rw [Array.getElem?_eq_getElem hlt] at hrel
  refine ⟨hlt, Nat.lt_of_not_le fun hge => ?_⟩
  rw [Array.getElem?_eq_none hge] at hrel
  cases hrel

variable (hS : S.Within w w')

include hS

/-- The first world makes a list of its own. -/
theorem pushLeft (items : Array Datum) : World.Linked φ kept S { w with lists := w.lists.push items } w' := by
  refine { h with lists := ?_, fresh := ?_ }
  · intro n n' hn
    have hlt := (hS n n' hn).1
    simp only [Array.getElem?_push, if_neg (Nat.ne_of_lt hlt)]
    exact h.lists hn
  · intro n n' hn i
    have hlt := hS n n' hn
    simp only [Array.size_push]
    omega

/-- The second world makes a list of its own, which may be one that is kept. -/
theorem pushRight (items : Array Datum) (kept' : Nat → Option (Array Datum))
    (hkept : ∀ n row, kept' n = some row → kept n = some row ∨ n = w'.lists.size ∧ row = items) :
    World.Linked φ kept' S w { w' with lists := w'.lists.push items } := by
  refine { h with lists := ?_, fresh := ?_, kept := ?_ }
  · intro n n' hn
    have hlt := (hS n n' hn).2
    simp only [Array.getElem?_push, if_neg (Nat.ne_of_lt hlt)]
    exact h.lists hn
  · intro n n' hn i
    have hlt := hS n n' hn
    simp only [Array.size_push]
    omega
  · intro n row hrow
    rw [Array.getElem?_push]
    rcases hkept n row hrow with hrow | ⟨rfl, rfl⟩
    · obtain ⟨hitems, hnone⟩ := h.kept hrow
      have hlt := (Array.getElem?_eq_some_iff.1 hitems).1
      exact ⟨by rw [if_neg (Nat.ne_of_lt hlt), hitems], hnone⟩
    · exact ⟨if_pos rfl, fun n hn => Nat.lt_irrefl _ (hS n _ hn).2⟩

end World.Linked

/-! ## Bindings -/

theorem Scope.Linked.sorted {α β : Type} {R : α → β → Prop} {t : Scope α} {t' : Scope β} (h : Scope.Linked R t t') :
    List.Forall₂ (EntryLinked R) t.sorted t'.sorted := by
  obtain ⟨hlength, hzip⟩ := List.forall₂_iff_zip.1 h.2
  -- Both are sorted by sorting the pairs of entries that correspond.
  have hfst := List.map_mergeSort (r := fun p q => decide (p.1.1 ≤ q.1.1)) (s := fun a b => decide (a.1 ≤ b.1))
    (f := Prod.fst) (l := t.entries.zip t'.entries) fun _ _ _ _ => rfl
  have hsnd := List.map_mergeSort (r := fun p q => decide (p.1.1 ≤ q.1.1)) (s := fun a b => decide (a.1 ≤ b.1))
    (f := Prod.snd) (l := t.entries.zip t'.entries) fun p hp q hq => by rw [(hzip hp).1, (hzip hq).1]
  rw [List.map_fst_zip (Nat.le_of_eq hlength)] at hfst
  rw [List.map_snd_zip (Nat.le_of_eq hlength.symm)] at hsnd
  rw [Scope.sorted, Scope.sorted, ← hfst, ← hsnd, List.forall₂_map_left_iff, List.forall₂_map_right_iff,
    List.forall₂_same]
  exact fun p hp => hzip (List.mem_mergeSort.1 hp)

/-- Names that are bound to data that correspond. -/
def BindingLinked (φ : Position → Position) (S : Links) (b b' : String × Datum) : Prop :=
  b'.1 = b.1 ∧ b.2.Linked φ S b'.2

theorem BindingLinked.isPreludeBinding_eq {b b' : String × Datum} (h : BindingLinked φ S b b') :
    Session.isPreludeBinding b' = Session.isPreludeBinding b := by
  obtain ⟨name, d⟩ := b
  obtain ⟨name', d'⟩ := b'
  obtain ⟨hname, hd⟩ := h
  simp only at hname hd
  subst hname
  cases d with
  | list n =>
    obtain ⟨n', rfl, _⟩ := hd
    simp [Session.isPreludeBinding]
  | _ =>
    cases hd
    exact Session.isPreludeBinding_relocate φ (name', _)

/-- In worlds that correspond the same names are bound, to data that correspond. -/
theorem Session.bindings_linked {s s' : Session} (h : World.Linked φ kept S s.world s'.world) :
    List.Forall₂ (BindingLinked φ S) s.bindings s'.bindings := by
  have hscope := Rows.getElem? h.scopes globalScope
  unfold Session.bindings
  generalize s.world.scopes.all[globalScope]? = o, s'.world.scopes.all[globalScope]? = o' at hscope
  cases hscope with
  | none => exact .nil
  | some ht =>
    refine List.rel_filter (fun b b' hb => ?_) (List.rel_filterMap (fun e e' he => ?_) ht.sorted)
    · simp only [hb.isPreludeBinding_eq]
    · obtain ⟨name, o⟩ := e
      obtain ⟨name', o'⟩ := e'
      obtain ⟨rfl, hrel⟩ := he
      cases hrel with
      | none => exact .none
      | some hd => exact .some ⟨rfl, hd⟩

/-! ## Evaluation in two parts -/

theorem Tracks.exists_ok {α β : Type} {R : Links → α → β → Prop} {e : Effect α} {e' : Effect β} {w w' u' : World} {b : β}
    (h : Tracks φ kept S R e e') (hw : World.Linked φ kept S w w') (hrun : e'.run w' = (.ok b, u')) :
    ∃ a u T, e.run w = (.ok a, u) ∧ S.Grows T ∧ World.Linked φ kept T u u' ∧ R T a b := by
  obtain ⟨T, hT, hu, hr⟩ := h w w' hw
  rw [hrun] at hu hr
  generalize e.run w = x at hu hr
  obtain ⟨x, u⟩ := x
  cases x with
  | error stop => cases hr
  | ok a => exact ⟨a, u, T, rfl, hT, hu, hr⟩

theorem Eval.evalAll_append {sub : Node → Context → Effect Value} {c : Context} {ns ms : List Node} {vs us : List Value}
    {w w₁ w₂ : World} (h : (evalAll sub c ns).run w = (.ok vs, w₁)) (h' : (evalAll sub c ms).run w₁ = (.ok us, w₂)) :
    (evalAll sub c (ns ++ ms)).run w = (.ok (vs ++ us), w₂) := by
  induction ns generalizing w vs with
  | nil =>
    cases h
    exact h'
  | cons n ns ih =>
    rw [evalAll, Effect.run_bind] at h
    rw [List.cons_append, evalAll, Effect.run_bind]
    generalize (sub n c).run w = x at h ⊢
    obtain ⟨x, w'⟩ := x
    cases x with
    | error stop => cases h
    | ok v =>
      simp only [Effect.run_bind] at h ⊢
      generalize hrest : (evalAll sub c ns).run w' = y at h
      obtain ⟨y, w''⟩ := y
      cases y with
      | error stop => cases h
      | ok vs' =>
        cases h
        rw [ih hrest]
        rfl

/-- An evaluation of statements to a value. -/
theorem Session.evaluate_list {s s' : Session} {name : String} {ns : List Node} {span : Span} {v : Value} :
    s.evaluate name (.list ns span) = (.value v, s') ↔ ∃ d vs w, s.limits.evaluation = d + 1 ∧
      (Eval.evalAll (eval s.limits d) (rootContext name) ns).run s.world = (.ok vs, w) ∧
      v = .placed (.list w.lists.size) span (rootContext name) ∧
      s' = ⟨{ w with lists := w.lists.push (vs.map Value.datum).toArray }, s.limits⟩ := by
  obtain ⟨world, limits⟩ := s
  unfold Session.evaluate Session.perform
  simp only
  cases limits.evaluation with
  | zero =>
    constructor
    · nofun
    · rintro ⟨d, _, _, hd, _⟩
      cases hd
  | succ d =>
    rw [eval_list]
    constructor
    · intro h
      generalize hrun : (Eval.evalAll (eval limits d) (rootContext name) ns).run world = x at h
      obtain ⟨x, w⟩ := x
      rcases x with (e | f) | vs
      · cases h
      · cases h
      · cases h
        exact ⟨d, vs, w, rfl, hrun, rfl, rfl⟩
    · rintro ⟨_, vs, w, hd, hrun, rfl, rfl⟩
      cases hd
      rw [hrun]

/-- Statements that have been evaluated leave a sound world, and their values are sound in it. -/
theorem Eval.evalAll_sound {limits : Limits} {d : Nat} {name : String} {ns : List Node} {vs : List Value} {w w' : World}
    (hw : w.InOrder) (hns : ∀ n ∈ ns, n.isRunnable = true)
    (h : (evalAll (eval limits d) (Session.rootContext name) ns).run w = (.ok vs, w')) :
    w'.Sound ∧ ∀ x ∈ vs.map Value.datum, x.Sound w'.lists.size := by
  have hroot := Session.over_root True name hw.shape
  have hensures := evalAll_ensures (k := w.lists.size) (fun k n hn => eval_ensures limits d hroot hn) (fun _ => hns)
  have hleaves := (hensures w (Session.standing True name hw)).2
  rw [h] at hleaves
  obtain ⟨k, _, hw', hvs⟩ := hleaves
  refine ⟨hw'.sound trivial, fun x hx => ?_⟩
  obtain ⟨v, hv, rfl⟩ := List.mem_map.1 hx
  exact hw'.cells ▸ hvs v hv trivial

/-- The elements of a list, in the session as it is. -/
def Session.elements? (s : Session) (v : Value) : Option (Array Datum) :=
  match v.datum with
  | .list n => s.world.lists[n]?
  | _ => none

/-- Statements that are evaluated in two parts, the second in the session that the first has left, can be evaluated in one
go, and then have the same values and do the same. -/
theorem Session.evaluate_join {s s₁ s₂ : Session} (hs : s.world.InOrder) {name : String} {ns ms : List Node}
    (hrunnable : ∀ n ∈ ns ++ ms, n.isRunnable = true) (span : Span) {span₁ span₂ : Span} {v₁ v₂ : Value}
    (h₁ : (s.relocate φ).evaluate name (.list (ns.map (Node.relocate φ)) span₁) = (.value v₁, s₁))
    (h₂ : s₁.evaluate name (.list (ms.map (Node.relocate φ)) span₂) = (.value v₂, s₂)) :
    ∃ v s' S, s.evaluate name (.list (ns ++ ms) span) = (.value v, s') ∧
      World.Linked φ (fun _ => none) S s'.world s₂.world ∧
      ∃ items items₁ items₂, s'.elements? v = some items ∧ s₂.elements? v₁ = some items₁ ∧
        s₂.elements? v₂ = some items₂ ∧ Rows (Datum.Linked φ S) items (items₁ ++ items₂) := by
  obtain ⟨d, vs₁', w₁', hd, hrun₁, rfl, rfl⟩ := evaluate_list.1 h₁
  obtain ⟨_, vs₂', w₂', hd₂, hrun₂, rfl, rfl⟩ := evaluate_list.1 h₂
  cases hd.symm.trans hd₂
  -- The first part is the same in both ways.
  have htracks : ∀ {kept : Nat → Option (Array Datum)} {S : Links} (l : List Node),
      Tracks φ kept S (fun S => List.Forall₂ (Value.Linked φ S)) (Eval.evalAll (eval s.limits d) (rootContext name) l)
        (Eval.evalAll (eval s.limits d) (rootContext name) (l.map (Node.relocate φ))) :=
    fun l => Eval.evalAll_tracks (fun _ n c => eval_tracks s.limits d n c) (rootContext name) l
  obtain ⟨vs₁, w₁, T, hvs₁, hT, hw₁, hlinked₁⟩ := (htracks ns).exists_ok (World.linked_eq_iff.2 rfl) hrun₁
  have hsound₁ := Eval.evalAll_sound hs (fun n hn => hrunnable n (List.mem_append_left ms hn)) hvs₁
  -- With two runs, the list of its values is there when the second part begins.
  have hbegin := (hw₁.below hsound₁.1).pushRight hw₁.within_below (vs₁'.map Value.datum).toArray
    (keptAt w₁'.lists.size (vs₁'.map Value.datum).toArray) fun _ _ hrow => .inr (keptAt_eq_some.1 hrow)
  obtain ⟨vs₂, w₂, U, hvs₂, hU, hw₂, hlinked₂⟩ := (htracks ms).exists_ok hbegin hrun₂
  have hvs := Eval.evalAll_append hvs₁ hvs₂
  have hsound₂ := Eval.evalAll_sound hs hrunnable hvs
  have hend := ((hw₂.below hsound₂.1).pushRight hw₂.within_below (vs₂'.map Value.datum).toArray _ fun _ _ hrow =>
    .inl hrow).pushLeft (hw₂.within_below.push _) ((vs₁ ++ vs₂).map Value.datum).toArray
  refine ⟨_, _, U.below w₂.lists.size, evaluate_list.2 ⟨d, _, w₂, hd, hvs, rfl, rfl⟩, { hend with kept := nofun },
    _, _, _, Array.getElem?_push_size, (hend.kept (keptAt_eq_some.2 ⟨rfl, rfl⟩)).1, Array.getElem?_push_size, ?_⟩
  have hrows := (((Rows.of_values hlinked₁).below hsound₁.2).mono hU).append (.of_values hlinked₂)
  rw [List.append_toArray, ← List.map_append] at hrows
  exact hrows.below hsound₂.2

/-! ## Runs -/

theorem Session.run_eq_value {s s' : Session} {name : String} {source : Source} {v : Value} :
    s.run name source = (.value v, s') ↔
      ∃ tree, Parse.program s.limits source = .ok tree ∧ s.evaluate name tree = (.value v, s') := by
  unfold Session.run
  cases Parse.program s.limits source with
  | ok tree => simp
  | error e => cases e <;> simp

theorem Session.evaluate_limits (s : Session) (name : String) (tree : Node) :
    (s.evaluate name tree).2.limits = s.limits := by
  obtain ⟨w, limits⟩ := s
  unfold Session.evaluate Session.perform
  simp only
  generalize (eval limits limits.evaluation tree (rootContext name)).run w = x
  obtain ⟨x, u⟩ := x
  rcases x with (e | f) | v <;> rfl

theorem Session.evaluate_bare {s s' : Session} {name : String} {tree : Node} {v : Value}
    (h : s.evaluate name tree = (.value v, s')) : s.bare.evaluate name tree.bare = (.value v.bare, s'.bare) := by
  have hbare := s.evaluate_relocate (fun _ => .forgotten) name tree
  rw [h] at hbare
  exact hbare

/-- **Running a program in one go agrees with running it in pieces.**  If two texts run to values one after the other, and
the first leaves no block open that `end` would close, then the two with a newline between them run to a value too.  The
elements of its list are those of the two lists as they are at the end; the same has been printed and the same is left of
the input, and the same names are bound to the same things.  All this is up to positions and the numbers of cells: these
correspond by links under which the whole worlds are the same. -/
theorem run_join {s s₁ s₂ : Session} (hs : s.Reachable) {name text₁ text₂ file₁ file₂ file₃ : String} {v₁ v₂ : Value}
    (h₁ : s.run name ⟨file₁, text₁⟩ = (.value v₁, s₁)) (h₂ : s₁.run name ⟨file₂, text₂⟩ = (.value v₂, s₂))
    (hclosed : ∀ tree, Parse.program s.limits ⟨file₃, text₁ ++ "\n" ++ "end"⟩ ≠ .ok tree) (file : String) :
    ∃ v s' S, s.run name ⟨file, text₁ ++ "\n" ++ text₂⟩ = (.value v, s') ∧
      World.Linked (fun _ => .forgotten) (fun _ => none) S s'.world s₂.bare.world ∧
      (∃ items items₁ items₂, s'.elements? v = some items ∧ s₂.bare.elements? v₁.bare = some items₁ ∧
        s₂.bare.elements? v₂.bare = some items₂ ∧ Rows (Datum.Linked (fun _ => .forgotten) S) items (items₁ ++ items₂)) ∧
      s'.world.output = s₂.world.output ∧ s'.world.input = s₂.world.input ∧
      List.Forall₂ (BindingLinked (fun _ => .forgotten) S) s'.bindings s₂.bare.bindings := by
  obtain ⟨tree₁, hparse₁, heval₁⟩ := Session.run_eq_value.1 h₁
  obtain ⟨tree₂, hparse₂, heval₂⟩ := Session.run_eq_value.1 h₂
  have hbare₁ := Session.evaluate_bare heval₁
  have hbare₂ := Session.evaluate_bare heval₂
  have hlimits := s.evaluate_limits name tree₁
  rw [heval₁] at hlimits
  rw [hlimits] at hparse₂
  obtain ⟨tree, items₁, items₂, hparse, htree₁, htree₂, htree⟩ := Parse.program_join hparse₁ hparse₂ hclosed file
  rw [htree₁] at hbare₁
  rw [htree₂] at hbare₂
  have hrunnable := Parse.program_isRunnable hparse
  cases tree with
  | list ns span =>
    obtain ⟨hns, _⟩ := Node.list.inj htree
    rw [Node.relocateAll_eq_map] at hns
    obtain ⟨ns₁, ns₂, rfl, rfl, rfl⟩ := List.map_eq_append_iff.1 hns
    obtain ⟨v, s', S, heval, hworld, helements⟩ := Session.evaluate_join hs.inOrder
      (Node.allRunnable_iff.1 hrunnable) span hbare₁ hbare₂
    refine ⟨v, s', S, Session.run_eq_value.2 ⟨_, hparse, heval⟩, hworld, helements, ?_, ?_, ?_⟩
    · exact hworld.output.symm
    · exact hworld.input.symm
    · exact Session.bindings_linked hworld
  | _ => cases htree

def Ending.isValue : Ending → Bool
  | .value _ => true
  | _ => false

theorem Ending.exists_value {r : Ending × Session} (h : r.1.isValue = true) : ∃ v, r = (.value v, r.2) := by
  obtain ⟨e, s⟩ := r
  cases e with
  | value v => exact ⟨v, rfl⟩
  | _ => cases h

def firstText : String := "var xs = [[]]"

/-- This changes the list that the first text has made, prints it and binds it to another name. -/
def secondText : String := "xs(0) + input()\nvar ys = [xs, xs]; print(ys)"

theorem run_join_shared : (Shell.start "5\n").Reachable ∧ ∃ v₁ v₂ s₁ s₂,
    (Shell.start "5\n").run Shell.programName ⟨"first", firstText⟩ = (.value v₁, s₁) ∧
    s₁.run Shell.programName ⟨"second", secondText⟩ = (.value v₂, s₂) ∧
    (∀ tree, Parse.program (Shell.start "5\n").limits ⟨"", firstText ++ "\n" ++ "end"⟩ ≠ .ok tree) ∧
    ∃ v s', (Shell.start "5\n").run Shell.programName ⟨"whole", firstText ++ "\n" ++ secondText⟩ = (.value v, s') ∧
      s'.world.output = s₂.world.output ∧ s'.world.input = s₂.world.input := by
  have hs : (Shell.start "5\n").Reachable := .start _ _
  obtain ⟨v₁, h₁⟩ := Ending.exists_value
    (r := (Shell.start "5\n").run Shell.programName ⟨"first", firstText⟩) (by decide +kernel)
  obtain ⟨v₂, h₂⟩ := Ending.exists_value
    (r := ((Shell.start "5\n").run Shell.programName ⟨"first", firstText⟩).2.run Shell.programName ⟨"second", secondText⟩)
    (by decide +kernel)
  have hclosed : ∀ tree, Parse.program (Shell.start "5\n").limits ⟨"", firstText ++ "\n" ++ "end"⟩ ≠ .ok tree := by
    intro tree htree
    have hfails : (Parse.program (Shell.start "5\n").limits ⟨"", firstText ++ "\n" ++ "end"⟩).toBool = false := by
      decide +kernel
    rw [htree] at hfails
    cases hfails
  obtain ⟨v, s', S, hrun, _, _, houtput, hinput, _⟩ := run_join hs h₁ h₂ hclosed "whole"
  exact ⟨hs, v₁, v₂, _, _, h₁, h₂, hclosed, v, s', hrun, houtput, hinput⟩

end Scriptlet
