import Scriptlet.Proofs.History.Moved
import Scriptlet.Proofs.Loops.Returns
import Scriptlet.Proofs.Sharing.CollectingPrograms
/-!
# A list shared through a loop

A program that collects numbers in a list is followed from its tree to the report: the tree is evaluated (`eval_tree`), and
the value is printed and displayed.

What carries the loop is that the list is one only (`Holds`).  The name, the copies made whenever it is read, the sum that
is bound to the name again and the value of the statement that made it all stand for that list, so each of them shows in
the end whatever was added; taking it twice makes another list each time, which is not seen (`collecting_shared`).
-/
namespace Scriptlet

namespace Workload

open Grammar Eval Nested

/-! ## Taking twice -/

theorem copies_two (tooLong : Fault) (size : Nat) :
    size * 2 ≤ sizeLimit ∧ (∃ m, Scalar.copies tooLong size 2 = .ok m) ∨
      ¬ size * 2 ≤ sizeLimit ∧ ∃ f, Scalar.copies tooLong size 2 = .error f := by
  have hword : ¬ ((2 : Int) < -Nat.pow 2 63 ∨ Nat.pow 2 63 ≤ (2 : Int)) := by decide
  have hlimit : sizeLimit < Nat.pow 2 63 := by decide
  have htwo : (2 : Int).toNat = 2 := rfl
  unfold Scalar.copies
  rw [if_neg hword, htwo]
  by_cases hfits : size * 2 ≤ sizeLimit
  · rw [if_neg (by omega), if_neg (by omega)]
    refine .inl ⟨hfits, ?_⟩
    split <;> exact ⟨_, rfl⟩
  · refine .inr ⟨hfits, ?_⟩
    split
    · exact ⟨_, rfl⟩
    · rw [if_pos (by omega)]
      exact ⟨_, rfl⟩

theorem repeatText_two (s : String) :
    s.length * 2 ≤ sizeLimit ∧ (∃ t, Scalar.repeatText s (.int 2) = .ok t) ∨
      ¬ s.length * 2 ≤ sizeLimit ∧ ∃ f, Scalar.repeatText s (.int 2) = .error f := by
  rcases copies_two .outOfRange s.length with ⟨hfits, m, hm⟩ | ⟨hfits, f, hf⟩
  · exact .inl ⟨hfits, _, by rw [Scalar.repeatText, hm]; rfl⟩
  · exact .inr ⟨hfits, f, by rw [Scalar.repeatText, hf]; rfl⟩

theorem repeatItems_two (items : Array Datum) :
    items.size * 2 ≤ sizeLimit ∧ (∃ copies, Value.repeatItems items (.int 2) = .ok copies) ∨
      ¬ items.size * 2 ≤ sizeLimit ∧ ∃ f, Value.repeatItems items (.int 2) = .error f := by
  rcases copies_two .outOfMemory items.size with ⟨hfits, m, hm⟩ | ⟨hfits, f, hf⟩
  · exact .inl ⟨hfits, _, by rw [Value.repeatItems, hm]; rfl⟩
  · exact .inr ⟨hfits, f, by rw [Value.repeatItems, hf]; rfl⟩

/-! ## The evaluation -/

/-- The numbers in the list after so many extensions. -/
def gathered (counts : Nat) : List Int := 1 :: (List.range counts).map Int.ofNat

/-- The list after so many extensions. -/
def gatheredItems (counts : Nat) : Array Datum := ((gathered counts).map fun i => .number (.int i)).toArray

/-- The string after so many extensions. -/
def grown (letters : Nat) : String := "ab" ++ String.ofList (List.replicate letters 'x')

theorem grown_succ (letters : Nat) : grown (letters + 1) = grown letters ++ "x" := by
  unfold grown
  rw [List.replicate_succ', String.ofList_append, String.append_assoc]

theorem length_grown (letters : Nat) : (grown letters).length = letters + 2 := by
  have htwo : "ab".length = 2 := rfl
  simp [grown, htwo, Nat.add_comm]

theorem size_gatheredItems (counts : Nat) : (gatheredItems counts).size = counts + 1 := by
  simp [gatheredItems, gathered]

theorem push_gatheredItems (counts : Nat) :
    (gatheredItems counts).push (.number (.int counts)) = gatheredItems (counts + 1) := by
  simp [gatheredItems, gathered, List.range_succ]

/-- The string and the list have been extended so often.  There is one list to which `L` is bound, and it holds all counts
so far; what other lists there are is left open. -/
structure Holds (c : Context) (letters counts : Nat) (w : World) : Prop where
  scope : c.scope < w.scopes.size
  cell : w.lists[0]? = some (gatheredItems counts)
  text : w.value? c "s" = some (.string (grown letters))
  list : w.value? c "L" = some (.list 0)

/-- So far a round has come in which the counter is `k`. -/
structure Underway (c : Context) (k : Nat) (s : Stage) (w : World) : Prop extends Holds c s.letters s.counts w where
  counter : w.value? c "i" = some (.number (.int k))
  kept : ∀ x ∈ s.texts, ∃ t, w.value? c x = some (.string t)

section Evaluation

variable {limits : Limits} {depth : Nat} {c : Context} {w : World} {k letters counts : Nat} {s : Stage}

namespace Holds

/-- Other names can be bound to anything. -/
theorem bound (h : Holds c letters counts w) {x : String} (hs : "s" ≠ x) (hl : "L" ≠ x) (d : Datum) :
    Holds c letters counts (w.bound c x d) where
  scope := Nat.lt_of_lt_of_eq h.scope (World.size_bound _ _ _ _).symm
  cell := h.cell
  text := by rw [World.value?_bound h.scope, if_neg hs, h.text]
  list := by rw [World.value?_bound h.scope, if_neg hl, h.list]

/-- Another list can be made. -/
theorem widened (h : Holds c letters counts w) (items : Array Datum) : Holds c letters counts (w.widened items) where
  scope := h.scope
  cell := by
    have hsize : 0 < w.lists.size := (Array.getElem?_eq_some_iff.1 h.cell).1
    show (w.lists.push items)[0]? = _
    rw [Array.getElem?_push_lt hsize, ← Array.getElem?_eq_getElem hsize, h.cell]
  text := h.text
  list := h.list

end Holds

theorem Line.counts_after (l : Line) (s : Stage) (ls : List Line) :
    (l.after s).counts + ls.count .extend = s.counts + (l :: ls).count .extend := by
  cases l with
  | extend => simp only [after, List.count_cons_self]; omega
  | _ => simp [after]

theorem Line.counts_le_after (l : Line) (s : Stage) : s.counts ≤ (l.after s).counts := by
  cases l with
  | extend => exact Nat.le_succ _
  | _ => exact Nat.le_refl _

namespace Underway

theorem widened (h : Underway c k s w) (items : Array Datum) : Underway c k s (w.widened items) :=
  ⟨h.toHolds.widened items, h.counter, h.kept⟩

theorem returns_text (h : Underway c k s w) :
    (eval limits (depth + 1) (.access ⟨"s", .forgotten⟩) c).Returns w (.string (grown s.letters)) w :=
  returns_access h.text rfl

theorem returns_list (h : Underway c k s w) :
    (eval limits (depth + 1) (.access ⟨"L", .forgotten⟩) c).Returns w (.list 0) w :=
  returns_access h.list rfl

/-- A look leaves everything as it was, and sees a string if it takes one twice; or there is no memory for what is taken
twice. -/
theorem look (h : Underway c k s w) {what : Look} (hknown : what.isKnown s = true) :
    what.fits s = true ∧ (∃ d u, (eval limits (depth + 2) what.node c).Returns w d u ∧ Underway c k s u ∧
        (what = .textTwice → ∃ t, d = .string t)) ∨
      ¬ what.fits s = true ∧ (eval limits (depth + 2) what.node c).Breaks w := by
  have htwo : (eval limits (depth + 1) (.number (.whole 2) .forgotten) c).Returns w (.number (.int 2)) w :=
    returns_number _ _
  cases what with
  | textTwice =>
    have hcases (v v' : Value) (hv : v.datum = .string (grown s.letters)) (hv' : v'.datum = .number (.int 2)) :=
      Value.binary_mul_string_cases (w := w) hv' hv
    rcases repeatText_two (grown s.letters) with ⟨hfits, t, ht⟩ | ⟨hfits, f, hf⟩
    · rw [length_grown] at hfits
      refine .inl ⟨decide_eq_true hfits, .string t, w, ?_, h, fun _ => ⟨t, rfl⟩⟩
      exact returns_binary rfl h.returns_text htwo (fun v v' hv hv' => (hcases v v' hv hv').1 t ht) (by simp)
    · rw [length_grown] at hfits
      refine .inr ⟨by simpa [Look.fits] using hfits, ?_⟩
      exact breaks_binary rfl h.returns_text htwo fun v v' hv hv' => (hcases v v' hv hv').2 f hf
  | listTwice =>
    have hcases (v v' : Value) (hv : v.datum = .list 0) (hv' : v'.datum = .number (.int 2)) :=
      Value.binary_mul_list_cases hv' hv h.cell
    rcases repeatItems_two (gatheredItems s.counts) with ⟨hfits, copies, hcopies⟩ | ⟨hfits, f, hf⟩
    · rw [size_gatheredItems] at hfits
      refine .inl ⟨decide_eq_true hfits, .list w.lists.size, w.widened copies, ?_, h.widened copies, by simp⟩
      exact returns_binary rfl h.returns_list htwo (fun v v' hv hv' => (hcases v v' hv hv').1 copies hcopies) (by simp)
    · rw [size_gatheredItems] at hfits
      refine .inr ⟨by simpa [Look.fits] using hfits, ?_⟩
      exact breaks_binary rfl h.returns_list htwo fun v v' hv hv' => (hcases v v' hv hv').2 f hf
  | notText =>
    exact .inl ⟨rfl, _, w, returns_negation rfl h.returns_text fun v hv => v.negation_string hv w, h, by simp⟩
  | notList =>
    exact .inl ⟨rfl, _, w, returns_negation rfl h.returns_list fun v hv => v.negation_list hv w, h, by simp⟩
  | firstElement =>
    exact .inl ⟨rfl, _, w, returns_index h.returns_list (returns_number _ _) h.cell rfl rfl, h, by simp⟩
  | sameAs x =>
    obtain ⟨t, ht⟩ : ∃ t, w.value? c x = some (.string t) := by
      rcases of_decide_eq_true hknown with rfl | hx
      · exact ⟨_, h.text⟩
      · exact h.kept x hx
    refine .inl ⟨rfl, .number (.ofBool (grown s.letters == t)), w, ?_, h, by simp⟩
    exact returns_binary rfl h.returns_text (returns_access ht rfl)
      (fun v v' hv hv' => Value.binary_same_strings hv hv') (by simp)

theorem keep (h : Underway c k s w) {x : String} (hfree : x ≠ "s" ∧ x ≠ "L" ∧ x ≠ "i") {what : Look} {d : Datum}
    (hd : what = .textTwice → ∃ t, d = .string t) : Underway c k ((Line.keep x what).after s) (w.bound c x d) where
  toHolds := h.toHolds.bound hfree.1.symm hfree.2.1.symm d
  counter := by rw [World.value?_bound h.scope, if_neg hfree.2.2.symm, h.counter]
  kept := by
    intro y hy
    rw [World.value?_bound h.scope]
    by_cases hyx : y = x
    · subst hyx
      rw [if_pos rfl]
      by_cases hwhat : what = .textTwice
      · obtain ⟨t, rfl⟩ := hd hwhat
        exact ⟨t, rfl⟩
      · simp [Line.after, hwhat] at hy
    · rw [if_neg hyx]
      apply h.kept
      by_cases hwhat : what = .textTwice
      · simpa [Line.after, hwhat, hyx] using hy
      · simp [Line.after, hwhat] at hy
        exact hy.1

theorem grow (h : Underway c k s w) :
    Underway c k (Line.grow.after s) (w.bound c "s" (.string (grown (s.letters + 1)))) where
  scope := Nat.lt_of_lt_of_eq h.scope (World.size_bound _ _ _ _).symm
  cell := h.cell
  text := by rw [World.value?_bound h.scope, if_pos rfl]; rfl
  list := by rw [World.value?_bound h.scope, if_neg (by decide), h.list]
  counter := by rw [World.value?_bound h.scope, if_neg (by decide), h.counter]
  kept := by
    intro x hx
    rw [World.value?_bound h.scope]
    split
    · exact ⟨_, rfl⟩
    · exact h.kept x hx

/-- The sum that is bound to `L` again is the list itself. -/
theorem extend (h : Underway c k s w) (hcounts : s.counts = k) :
    Underway c k (Line.extend.after s) ((w.extended 0 (.number (.int k))).bound c "L" (.list 0)) := by
  let u := w.extended 0 (.number (.int k))
  have hscope : c.scope < u.scopes.size := h.scope
  have hvalue (x : String) (hx : x ≠ "L") : (u.bound c "L" (.list 0)).value? c x = w.value? c x := by
    rw [World.value?_bound hscope, if_neg hx]
    rfl
  have hcell : u.lists[0]? = some (gatheredItems (s.counts + 1)) := by
    show (w.lists.modify 0 (·.push (.number (.int k))))[0]? = _
    rw [Array.getElem?_modify, if_pos rfl, h.cell, ← push_gatheredItems, hcounts]
    rfl
  have hlist : (u.bound c "L" (.list 0)).value? c "L" = some (.list 0) := by rw [World.value?_bound hscope, if_pos rfl]
  refine ⟨⟨Nat.lt_of_lt_of_eq hscope (World.size_bound _ _ _ _).symm, hcell, ?_, hlist⟩, ?_, fun x hx => ?_⟩
  · exact (hvalue "s" (by decide)).trans h.text
  · exact (hvalue "i" (by decide)).trans h.counter
  · obtain ⟨t, ht⟩ := h.kept x hx
    have hne : x ≠ "L" := by
      rintro rfl
      cases h.list.symm.trans ht
    exact ⟨t, (hvalue x hne).trans ht⟩

/-- **One line.** -/
theorem line (h : Underway c k s w) {l : Line} (horderly : l.isOrderly s = true) (hextend : l = .extend → s.counts = k) :
    l.fits s = true ∧ (∃ d u, (eval limits (depth + 3) l.node c).Returns w d u ∧ Underway c k (l.after s) u) ∨
      ¬ l.fits s = true ∧ (eval limits (depth + 3) l.node c).Breaks w := by
  cases l with
  | grow =>
    have hsum :
        (eval limits (depth + 2) (.binary (.access ⟨"s", .forgotten⟩) (.symbol .plus) (.string "x" .forgotten)) c).Returns
          w (.string (grown (s.letters + 1))) w := by
      rw [grown_succ]
      exact returns_binary rfl h.returns_text (returns_string _ _) (fun v v' hv hv' => Value.binary_strings hv hv') (by simp)
    exact .inl ⟨rfl, _, _, returns_assign ⟨"s", .forgotten⟩ hsum, h.grow⟩
  | extend =>
    have hsum :
        (eval limits (depth + 2) (.binary (.access ⟨"L", .forgotten⟩) (.symbol .plus) (.access ⟨"i", .forgotten⟩)) c).Returns
          w (.list 0) (w.extended 0 (.number (.int k))) := by
      apply returns_binary rfl h.returns_list (returns_access h.counter rfl) _ (by simp)
      intro v v' hv hv'
      exact ⟨v, hv' ▸ Value.binary_add_list hv v' _, hv⟩
    exact .inl ⟨rfl, _, _, returns_assign ⟨"L", .forgotten⟩ hsum, h.extend (hextend rfl)⟩
  | look what =>
    rcases h.look horderly with ⟨hfits, d, u, hu, hnext, -⟩ | hbreaks
    · exact .inl ⟨hfits, d, u, hu, hnext⟩
    · exact .inr hbreaks
  | keep x what =>
    rw [Line.isOrderly, Bool.and_eq_true, decide_eq_true_eq] at horderly
    rcases h.look horderly.1 with ⟨hfits, d, u, hu, hnext, hd⟩ | ⟨hfits, hbreaks⟩
    · exact .inl ⟨hfits, d, _, returns_assign ⟨x, .forgotten⟩ hu, hnext.keep horderly.2 hd⟩
    · exact .inr ⟨hfits, breaks_assign ⟨x, .forgotten⟩ hbreaks⟩

/-- **The lines of a round**, each from where the one before it has come to. -/
theorem lines (h : Underway c k s w) {ls : List Line} (horderly : passes Line.isOrderly s ls = true)
    (hextend : s.counts + ls.count .extend = k + 1) (hcounts : k ≤ s.counts) :
    passes Line.fits s ls = true ∧ (∃ ds u, ReturnsAll (eval limits (depth + 3)) c (ls.map Line.node) w ds u ∧
        Underway c k (ls.foldl (fun s l => l.after s) s) u) ∨
      ¬ passes Line.fits s ls = true ∧ (runStatements (eval limits (depth + 3)) c (ls.map Line.node)).Breaks w := by
  induction ls generalizing s w with
  | nil => exact .inl ⟨rfl, [], w, .nil, h⟩
  | cons l ls ih =>
    rw [passes, Bool.and_eq_true] at horderly ⊢
    have hfirst : l = .extend → s.counts = k := by
      rintro rfl
      rw [List.count_cons_self] at hextend
      omega
    rcases h.line horderly.1 hfirst with ⟨hfits, d, u, hu, hnext⟩ | ⟨hfits, hbreaks⟩
    · have hmore : k ≤ (l.after s).counts := Nat.le_trans hcounts (l.counts_le_after s)
      have hcount := (l.counts_after s ls).trans hextend
      rcases ih hnext horderly.2 hcount hmore with ⟨hrest, ds, u', hall, hend⟩ | ⟨hrest, hbreaks⟩
      · exact .inl ⟨⟨hfits, hrest⟩, d :: ds, u', .cons hu hall, hend⟩
      · exact .inr ⟨fun hboth => hrest hboth.2, runStatements_breaks_tail hu hbreaks⟩
    · exact .inr ⟨fun hboth => hfits hboth.1, hbreaks.bind _⟩

end Underway

/-- What has been extended in the end depends on the lines alone. -/
theorem letters_foldl (ls : List Line) (s : Stage) :
    (ls.foldl (fun s l => l.after s) s).letters = s.letters + ls.count .grow := by
  induction ls generalizing s with
  | nil => rfl
  | cons l ls ih =>
    rw [List.foldl_cons, ih]
    cases l with
    | grow => simp only [Line.after, List.count_cons_self]; omega
    | _ => simp [Line.after]

theorem counts_foldl (ls : List Line) (s : Stage) :
    (ls.foldl (fun s l => l.after s) s).counts = s.counts + ls.count .extend := by
  induction ls generalizing s with
  | nil => rfl
  | cons l ls ih => rw [List.foldl_cons, ih, Line.counts_after]

/-- Whether lines are in order does not depend on what was extended before. -/
theorem passes_isOrderly_eq {s t : Stage} (h : s.texts = t.texts) (ls : List Line) :
    passes Line.isOrderly s ls = passes Line.isOrderly t ls := by
  induction ls generalizing s t with
  | nil => rfl
  | cons l ls ih =>
    have hknown (what : Look) : what.isKnown s = what.isKnown t := by
      cases what <;> simp [Look.isKnown, h]
    have hfirst : l.isOrderly s = l.isOrderly t := by
      cases l <;> simp [Line.isOrderly, hknown]
    have hafter : (l.after s).texts = (l.after t).texts := by
      cases l <;> simp [Line.after, h]
    rw [passes, passes, hfirst, ih hafter]

variable (p : Collecting)

/-- **A round** extends the one list and the string, whatever else it looks at. -/
theorem Holds.round (h : Holds c k k w) :
    let round := runBody (eval limits (depth + 3)) (.block (.list ((linePhrases p.body).map Prod.snd) .forgotten)) c
    passes Line.fits ⟨k, k, []⟩ p.body = true ∧
        (∃ d u, round.Returns (w.counting c "i" (0 + k)) d u ∧ Holds c (k + 1) (k + 1) u) ∨
      ¬ passes Line.fits ⟨k, k, []⟩ p.body = true ∧ round.Breaks (w.counting c "i" (0 + k)) := by
  have hstart : Underway c k ⟨k, k, []⟩ (w.bound c "i" (.number (.int k))) := by
    refine ⟨h.bound (by decide) (by decide) _, ?_, fun x hx => absurd hx List.not_mem_nil⟩
    rw [World.value?_bound h.scope, if_pos rfl]
  have horderly : passes Line.isOrderly ⟨k, k, []⟩ p.body = true :=
    (passes_isOrderly_eq (s := ⟨k, k, []⟩) (t := ⟨0, 0, []⟩) rfl p.body).trans p.orderly
  have hlines := @Underway.lines limits depth _ _ _ _ hstart _ horderly (by rw [p.extendsOnce]) (Nat.le_refl k)
  rw [Int.zero_add, World.counting_eq_bound, map_snd_linePhrases]
  rcases hlines with ⟨hfits, ds, u, hall, hend⟩ | ⟨hfits, hbreaks⟩
  · refine .inl ⟨hfits, _, u, returns_block _ hall, ?_⟩
    have hholds := hend.toHolds
    rw [letters_foldl, counts_foldl, p.growsOnce, p.extendsOnce] at hholds
    exact hholds
  · exact .inr ⟨hfits, hbreaks.bind _⟩

theorem returns_int (n : Int) : (eval limits (depth + 2) (intNode n) c).Returns w (.number (.int n)) w := by
  cases n with
  | ofNat n => exact returns_number (.whole n) _
  | negSucc n => exact returns_opposite rfl (returns_number (.whole (n + 1)) _)

/-- **The whole loop**, from any world in which the list is as it was made. -/
theorem Holds.loop {n : Int} (h : Holds c 0 0 w) (hrounds : n.toNat < limits.rounds) :
    let loop := eval limits (depth + 4) (loopNode p.body n) c
    p.Fits n.toNat ∧ (∃ u, loop.Returns w .null u ∧ Holds c n.toNat n.toNat u) ∨ ¬ p.Fits n.toNat ∧ loop.Breaks w := by
  have hzero : (eval limits (depth + 3) (.number (.whole 0) .forgotten) c).Returns w (.number (.int 0)) w :=
    returns_number _ _
  have hloop := eval_count_keeps ⟨"i", .forgotten⟩ (I := fun k => Holds c k k) hzero (returns_int n)
    (by rwa [Int.sub_zero]) h fun k u hu => hu.round p
  rw [Int.sub_zero] at hloop
  exact hloop

/-- A world in which the string and the list have been made. -/
def stocked (c : Context) (w : World) : World :=
  ((w.bound c "s" (.string "ab")).widened #[.number (.int 1)]).bound c "L" (.list 0)

theorem holds_stocked (hscope : c.scope < w.scopes.size) (hlists : w.lists = #[]) : Holds c 0 0 (stocked c w) := by
  let u := (w.bound c "s" (.string "ab")).widened #[.number (.int 1)]
  have hsize : c.scope < u.scopes.size := Nat.lt_of_lt_of_eq hscope (World.size_bound _ _ _ _).symm
  have hs : u.value? c "s" = some (.string "ab") := by
    show (w.bound c "s" (.string "ab")).value? c "s" = _
    rw [World.value?_bound hscope, if_pos rfl]
  have hstocked : stocked c w = u.bound c "L" (.list 0) := rfl
  constructor
  · exact Nat.lt_of_lt_of_eq hsize (World.size_bound _ _ _ _).symm
  · show (w.lists.push #[.number (.int 1)])[0]? = _
    rw [hlists]
    rfl
  · rw [hstocked, World.value?_bound hsize, if_neg (by decide)]
    exact hs
  · rw [hstocked, World.value?_bound hsize, if_pos rfl]

/-- The world at the end of the program: two lists more, of which the first is an element of the second. -/
def finished (k : Nat) (u : World) : World :=
  (u.widened #[.string (grown k), .list 0]).widened #[.string "ab", .list 0, .null, .list u.lists.size]

/-- The value of the program is a new list, in which the first value of `L` and the last one, an element of an element, are
the one list that was extended; or memory was not enough. -/
theorem eval_tree {n : Int} (hscope : c.scope < w.scopes.size) (hlists : w.lists = #[]) (hrounds : n.toNat < limits.rounds) :
    let program := eval limits (depth + 5) (tree p.body n) c
    p.Fits n.toNat ∧ (∃ u, program.Returns w (.list (u.lists.size + 1)) (finished n.toNat u) ∧ Holds c n.toNat n.toNat u) ∨
      ¬ p.Fits n.toNat ∧ program.Breaks w := by
  let w₁ := w.bound c "s" (.string "ab")
  have hlists₁ : w₁.lists = #[] := hlists
  have hstring :
      (eval limits (depth + 4) (.assign ⟨"s", .forgotten⟩ (.string "ab" .forgotten)) c).Returns w (.string "ab") w₁ :=
    returns_assign _ (returns_string _ _)
  have hlist :
      (eval limits (depth + 4) (.assign ⟨"L", .forgotten⟩ (.list [.number (.whole 1) .forgotten] .forgotten)) c).Returns
        w₁ (.list 0) (stocked c w) := by
    have hone : ReturnsAll (eval limits (depth + 2)) c [.number (.whole 1) .forgotten] w₁ [.number (.int 1)] w₁ :=
      .cons (returns_number _ _) .nil
    have hnew := returns_list .forgotten hone
    rw [hlists₁] at hnew
    exact returns_assign _ hnew
  rcases @Holds.loop _ depth _ _ p _ (holds_stocked hscope hlists) hrounds with ⟨hfits, u, hloop, hend⟩ | ⟨hfits, hbreaks⟩
  · refine .inl ⟨hfits, u, ?_, hend⟩
    have hpair : (eval limits (depth + 4) pairNode c).Returns u (.list u.lists.size)
        (u.widened #[.string (grown n.toNat), .list 0]) :=
      returns_list .forgotten (.cons (returns_access hend.text rfl) (.cons (returns_access hend.list rfl) .nil))
    have htree := returns_list .forgotten (.cons hstring (.cons hlist (.cons hloop (.cons hpair .nil))))
    have hsize : (u.widened #[.string (grown n.toNat), .list 0]).lists.size = u.lists.size + 1 := Array.size_push _
    rw [hsize] at htree
    exact htree
  · have hall := (ReturnsAll.cons hstring (.cons hlist .nil)).breaks hbreaks [pairNode]
    exact .inr ⟨hfits, hall.bind _⟩

end Evaluation

/-! ## The report -/

theorem intercalate_cons_eq (sep t : String) (ts : List String) :
    String.intercalate sep (t :: ts) = t ++ String.join (ts.map (sep ++ ·)) := by
  induction ts generalizing t with
  | nil => simp
  | cons u us ih =>
    rw [String.intercalate_cons_cons, ih, List.map_cons, String.join_cons, String.append_assoc, String.append_assoc]

/-- How the list is printed after `k` rounds. -/
def gatheredText (k : Nat) : String := "1" ++ String.join ((List.range k).map fun i => ", " ++ toString i)

theorem intercalate_gathered (k : Nat) : String.intercalate ", " ((gathered k).map toString) = gatheredText k := by
  unfold gathered gatheredText
  rw [List.map_cons, intercalate_cons_eq, List.map_map, List.map_map]
  rfl

/-- How the value of the program is printed after `k` rounds. -/
def collectedText (k : Nat) : String :=
  "ab, " ++ gatheredText k ++ ", 0, ab" ++ String.ofList (List.replicate k 'x') ++ ", " ++ gatheredText k

theorem intercalate_collected (k : Nat) :
    String.intercalate ", " ["ab", gatheredText k, "0", String.intercalate ", " [grown k, gatheredText k]] =
      collectedText k := by
  have hfirst : "ab, " = "ab" ++ ", " := rfl
  have hmiddle : ", 0, ab" = ", " ++ "0" ++ ", " ++ "ab" := rfl
  unfold collectedText grown
  rw [hfirst, hmiddle]
  simp only [String.intercalate_cons_cons, String.intercalate_singleton, String.append_assoc, -String.reduceAppend]

theorem lt_pow_digitLimit {k : Nat} (hk : k < 10) : k < Nat.pow 10 Text.digitLimit := by
  have hpow (m : Nat) (hm : m ≠ 0) : k < Nat.pow 10 m := Nat.lt_of_lt_of_le hk (Nat.le_self_pow hm 10)
  exact hpow Text.digitLimit (by decide)

theorem natAbs_gathered {k : Nat} (hk : k < Nat.pow 10 Text.digitLimit) {i : Int} (hi : i ∈ gathered k) :
    i.natAbs < Nat.pow 10 Text.digitLimit := by
  rcases List.mem_cons.1 hi with rfl | hi
  · exact lt_pow_digitLimit (by decide)
  · obtain ⟨j, hj, rfl⟩ := List.mem_map.1 hi
    exact Nat.lt_trans (List.mem_range.1 hj) hk

theorem Holds.text_finished {c : Context} {k : Nat} {u : World} (h : Holds c k k u) (hk : k < Nat.pow 10 Text.digitLimit)
    (depth : Nat) : (finished k u).text (depth + 4) (.list (u.lists.size + 1)) = .ok (collectedText k) := by
  let w := finished k u
  have hshared (depth : Nat) : w.text (depth + 2) (.list 0) = .ok (gatheredText k) := by
    have hcell : w.lists[0]? = some (gatheredItems k) := ((h.widened _).widened _).cell
    rw [World.text_numbers hcell depth fun i hi => natAbs_gathered hk hi, intercalate_gathered]
  have hpair : w.text (depth + 3) (.list u.lists.size) = .ok (String.intercalate ", " [grown k, gatheredText k]) := by
    have hcell : w.lists[u.lists.size]? = some #[.string (grown k), .list 0] := by
      show ((u.lists.push _).push _)[_]? = _
      rw [Array.getElem?_push_lt (by simp), ← Array.getElem?_eq_getElem, Array.getElem?_push_size]
    have hitems : [Datum.string (grown k), .list 0].mapM (w.text (depth + 2)) = .ok [grown k, gatheredText k] := by
      simp only [List.mapM_cons, hshared]
      rfl
    rw [World.text_list hcell hitems]
    rfl
  have hcell : w.lists[u.lists.size + 1]? = some #[.string "ab", .list 0, .null, .list u.lists.size] := by
    have hsize : u.lists.size + 1 = (u.lists.push #[.string (grown k), .list 0]).size := (Array.size_push _).symm
    rw [hsize]
    exact Array.getElem?_push_size
  have hitems : [Datum.string "ab", .list 0, .null, .list u.lists.size].mapM (w.text (depth + 3)) =
      .ok ["ab", gatheredText k, "0", String.intercalate ", " [grown k, gatheredText k]] := by
    simp only [List.mapM_cons, hshared, hpair]
    rfl
  rw [World.text_list hcell hitems, ← intercalate_collected]
  rfl

end Workload

namespace Session

variable {s s' : Session} {name : String} {tree : Node}

/-- In a session without positions, what comes of a tree without its positions is what comes of the tree, but for them. -/
theorem exists_evaluate_of_bare (hs : s.bare = s) {ending : Ending} (h : s.evaluate name tree.bare = (ending, s')) :
    ∃ ending₁ s₁, s.evaluate name tree = (ending₁, s₁) ∧ ending₁.bare = ending ∧ s₁.bare = s' := by
  have hmoved : s.bare.evaluate name tree.bare = _ := s.evaluate_relocate (fun _ => .forgotten) name tree
  rw [hs, h] at hmoved
  obtain ⟨hending, hsession⟩ := Prod.mk.inj hmoved
  exact ⟨_, _, rfl, hending.symm, hsession.symm⟩

/-- A list is the same list, and is printed alike. -/
theorem evaluate_of_bare (hs : s.bare = s) {v : Value} {cell : Nat} (h : s.evaluate name tree.bare = (.value v, s'))
    (hv : v.datum = .list cell) :
    ∃ v₁ s₁, s.evaluate name tree = (.value v₁, s₁) ∧ v₁.datum = .list cell ∧ s₁.limits = s'.limits ∧
      ∀ depth, s₁.world.text depth (.list cell) = s'.world.text depth (.list cell) := by
  obtain ⟨ending, s₁, hevaluate, hending, rfl⟩ := exists_evaluate_of_bare hs h
  cases ending with
  | value v₁ =>
    have hdatum : v₁.datum.relocate (fun _ => .forgotten) = .list cell := by
      rw [← hv, ← Ending.value.inj hending]
      rfl
    have hlist : v₁.datum = .list cell := by
      cases hd : v₁.datum <;> rw [hd] at hdatum <;> cases hdatum
      rfl
    exact ⟨v₁, s₁, hevaluate, hlist, rfl, fun depth => (s₁.world.text_relocate depth (.list cell)).symm⟩
  | _ => cases hending

/-- A fault is the same fault. -/
theorem fault_of_bare (hs : s.bare = s) {f : Fault} (h : s.evaluate name tree.bare = (.fault f, s')) :
    ∃ s₁, s.evaluate name tree = (.fault f, s₁) := by
  obtain ⟨ending, s₁, hevaluate, hending, -⟩ := exists_evaluate_of_bare hs h
  cases ending with
  | fault g =>
    cases hending
    exact ⟨s₁, hevaluate⟩
  | _ => cases hending

end Session

namespace Workload

/-- The session that the program is run in. -/
def fresh (n : Int) : Session := .start [.printRet] "" (limitsFor n)

theorem fresh_bare (n : Int) : (fresh n).bare = fresh n := by
  have hlists : (fresh n).world.lists = #[] := rfl
  have hscopes : (fresh n).world.scopes.all.map (Scope.map (Datum.relocate fun _ => .forgotten)) =
      (fresh n).world.scopes.all := by
    apply Array.toList_inj.1
    rw [Array.toList_map]
    rfl
  unfold Session.bare Session.relocate World.relocate Scopes.map
  rw [hscopes, hlists, Array.map_empty]
  rfl

namespace Collecting

variable (p : Collecting) {n : Int}

/-- The program ends with the list, or memory is not enough. -/
theorem run_text (hn : n.natAbs < Nat.pow 10 Text.digitLimit) :
    p.Fits n.toNat ∧ (∃ v s cell, runProgram (limitsFor n) (p.text n) = (.value v, s) ∧ v.datum = .list cell ∧
        s.text (.list cell) = .ok (collectedText n.toNat)) ∨
      ¬ p.Fits n.toNat ∧ ∃ f s, runProgram (limitsFor n) (p.text n) = (.fault f, s) := by
  have hscans : Scan.Scans (source (p.text n)).text.toList _ := p.scans_text hn
  obtain ⟨tree, htree, hbare⟩ := (parse_bare_iff hscans).2 (p.program_tree n hn (Nat.le_refl _))
  have hrun : runProgram (limitsFor n) (p.text n) = (fresh n).evaluate name tree := by
    have hparse : Parse.program (fresh n).limits (source (p.text n)) = .ok tree := htree
    show (fresh n).run name (source (p.text n)) = _
    rw [Session.run, hparse]
  have hscope : (Session.rootContext name).scope < (fresh n).world.scopes.size :=
    (by decide : Session.globalScope < (Session.start [.printRet] "" .standard).world.scopes.size)
  have hrounds : n.toNat < (fresh n).limits.rounds := Nat.lt_succ_self _
  obtain ⟨depth, hdepth⟩ : ∃ depth, (fresh n).limits.evaluation = depth + 5 := ⟨_, rfl⟩
  have heval := @eval_tree _ depth _ _ p _ hscope rfl hrounds
  rw [← hdepth, ← hbare] at heval
  rw [hrun]
  rcases heval with ⟨hfits, u, hreturns, hu⟩ | ⟨hfits, hbreaks⟩
  · obtain ⟨v, hv, hd⟩ := Session.evaluate_of_returns hreturns
    obtain ⟨v₁, s₁, hevaluate, hlist, hlimits, htexts⟩ := Session.evaluate_of_bare (fresh_bare n) hv hd
    refine .inl ⟨hfits, v₁, s₁, _, hevaluate, hlist, ?_⟩
    have hk : n.toNat < Nat.pow 10 Text.digitLimit := Nat.lt_of_le_of_lt (by omega) hn
    rw [Session.text, htexts, hlimits]
    exact hu.text_finished hk _
  · obtain ⟨f, s, hfault⟩ := Session.evaluate_of_breaks hbreaks
    obtain ⟨s₁, hevaluate⟩ := Session.fault_of_bare (fresh_bare n) hfault
    exact .inr ⟨hfits, f, s₁, hevaluate⟩

theorem run_text_beyond (hn : Nat.pow 10 Text.digitLimit ≤ n.natAbs) :
    runProgram (limitsFor n) (p.text n) = (.fault .digitLimit, fresh n) := by
  have htokens : Scan.tokens (source (p.text n)) = .error (.fault .digitLimit) :=
    p.faults_text hn _ _ (Nat.le_of_eq String.length_toList)
  unfold runProgram Session.run Parse.program Parse.scan
  rw [htokens]
  rfl

theorem report_of_fault {f : Fault} {s : Session} (h : runProgram (limitsFor n) (p.text n) = (.fault f, s)) :
    p.report n = ⟨none, none, none⟩ := by
  rw [report, runSized, h]
  rfl

end Collecting

/-- **A list that is shared shows everywhere what was added to it.**  The program is run for every bound `n`, whatever its
lines and its layout are.  Each of its rounds, one for each number below `n`, adds the number to the list and a letter to
the string.  In the end the value of the statement that made the list, long before the loop, is printed like the list at
the end of the program, inside another one; the string of the first statement is as it was.  (A bound of more digits than
the limit cannot be read, and copies that are too long for memory cannot be made; then nothing is reported.) -/
theorem collecting_shared (p : Collecting) (n : Int) :
    p.report n =
      if n.natAbs < Nat.pow 10 Text.digitLimit ∧ p.Fits n.toNat then
        ⟨some (collectedText n.toNat), some ("[" ++ collectedText n.toNat ++ "]"), none⟩
      else ⟨none, none, none⟩ := by
  by_cases hn : n.natAbs < Nat.pow 10 Text.digitLimit
  · rcases p.run_text hn with ⟨hfits, v, s, cell, hrun, hv, htext⟩ | ⟨hfits, f, s, hfault⟩
    · have hdisplay : (s.display (.list cell)).toOption = some ("[" ++ collectedText n.toNat ++ "]") := by
        rw [Session.display, World.display_list, ← Session.text, htext]
        rfl
      rw [if_pos ⟨hn, hfits⟩, Collecting.report, runSized, hrun]
      simp only [textOf, displayOf, messageOf, hv, htext, hdisplay]
      rfl
    · rw [if_neg fun h => hfits h.2, p.report_of_fault hfault]
  · rw [if_neg fun h => hn h.1, p.report_of_fault (p.run_text_beyond (Nat.not_lt.1 hn))]

/-- What stands behind the bound in `thirteenLines`, up to the middle of the loop. -/
def firstLines : String := "do\n  var s = s + \"x\"\n  var L = L + i\n  var s2 = s * 2\n  s == s2"

/-- And from there on. -/
def lastLines : String := "\n  not s\n  not L\n  L * 2\n  L(0)\nend\n[s, L]\n"

/-- A program of thirteen lines with a line of each kind. -/
def thirteenLines : Collecting where
  body := [.grow, .extend, .keep "s2" .textTwice, .look (.sameAs "s2"), .look .notText, .look .notList, .look .listTwice,
    .look .firstElement]
  growsOnce := rfl
  extendsOnce := rfl
  orderly := rfl
  before := 0
  after := 1
  opening := "var s = \"ab\"\nvar L = [1]\nfor i = 0 to"
  closing := firstLines ++ lastLines
  opens := (@Scan.scans_iff ⟨name, "var s = \"ab\"\nvar L = [1]\nfor i = 0 to"⟩ _).2 ⟨_, rfl, rfl⟩
  closes := by
    have hfirst : Scan.Scans firstLines.toList (.keyword .do_ :: .newline :: (Scriptlet.lines
        ([.grow, .extend, .keep "s2" .textTwice].map Line.lexemes) ++ (Look.sameAs "s2").lexemes)) :=
      (@Scan.scans_iff ⟨name, firstLines⟩ _).2 ⟨_, rfl, rfl⟩
    have hlast : Scan.Scans lastLines.toList (.newline :: (Scriptlet.lines
        ([.look .notText, .look .notList, .look .listTwice, .look .firstElement].map Line.lexemes) ++
          [.keyword .end_, .newline, .symbol .openSquare, .name "s", .symbol .comma, .name "L", .symbol .closeSquare,
           .newline])) :=
      (@Scan.scans_iff ⟨name, lastLines⟩ _).2 ⟨_, rfl, rfl⟩
    rw [String.toList_append]
    exact hfirst.append (x := '\n') (.inr (.inr (.inr rfl))) hlast
  readable := by decide

theorem collecting_shared_thirteenLines : thirteenLines.report 3 =
    ⟨some "ab, 1, 0, 1, 2, 0, abxxx, 1, 0, 1, 2", some "[ab, 1, 0, 1, 2, 0, abxxx, 1, 0, 1, 2]", none⟩ := by
  have hdigits : (3 : Int).natAbs < Nat.pow 10 Text.digitLimit := lt_pow_digitLimit (by decide)
  have hfits : thirteenLines.Fits 3 := by decide
  have htext : collectedText 3 = "ab, 1, 0, 1, 2, 0, abxxx, 1, 0, 1, 2" := by decide
  have hshared := collecting_shared thirteenLines 3
  rw [if_pos ⟨hdigits, hfits⟩] at hshared
  rw [hshared]
  show RunReport.mk (some (collectedText 3)) _ _ = _
  rw [htext]
  rfl

end Workload

end Scriptlet
