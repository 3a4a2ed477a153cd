import Scriptlet.Proofs.Scan.Lines
/-!
# Lines of a text

A text is cut at its newlines into lines (`linesOf`).  The line and the column of an index, counted over the characters before
it, are a line of this list and a place in it (`position_at`), and no two indices share both (`line_column_unique`).  So the
characters between two positions are found line by line (`inStretch_iff`).
-/
namespace Scriptlet

/-- The lines of a text, without the newlines between them. -/
def linesOf (text : List Char) : List (List Char) := text.splitOn '\n'

/-- Each of the lines after a newline. -/
def joined (lines : List (List Char)) : List Char := lines.flatMap ('\n' :: ·)

theorem joined_append (ls ms : List (List Char)) : joined (ls ++ ms) = joined ls ++ joined ms := List.flatMap_append

theorem joined_cons (l : List Char) (ls : List (List Char)) : joined (l :: ls) = '\n' :: (l ++ joined ls) := List.flatMap_cons

/-- The index in a text at which the line of a number begins: each line before it takes a newline more than its length. -/
def lineStart (lines : List (List Char)) (k : Nat) : Nat := (joined (lines.take k)).length

theorem linesOf_newline (cs : List Char) : linesOf ('\n' :: cs) = [] :: linesOf cs := by
  rw [linesOf, List.splitOn_cons_eq_if_modifyHead, if_pos (beq_self_eq_true _), linesOf]

theorem linesOf_cons {c : Char} (hc : c ≠ '\n') (cs : List Char) :
    linesOf (c :: cs) = (linesOf cs).modifyHead (c :: ·) := by
  rw [linesOf, List.splitOn_cons_eq_if_modifyHead, if_neg (by simpa using hc), linesOf]

theorem exists_linesOf (cs : List Char) : ∃ line rest, linesOf cs = line :: rest :=
  List.exists_cons_of_ne_nil (List.splitOn_ne_nil _ _)

theorem newline_not_mem_linesOf {cs line : List Char} (h : line ∈ linesOf cs) : '\n' ∉ line := by
  induction cs generalizing line with
  | nil =>
    rw [linesOf, List.splitOn_nil, List.mem_singleton] at h
    simp [h]
  | cons c cs ih =>
    by_cases hc : c = '\n'
    · subst hc
      rw [linesOf_newline] at h
      rcases List.mem_cons.1 h with rfl | h
      · simp
      · exact ih h
    · obtain ⟨first, rest, hlines⟩ := exists_linesOf cs
      rw [linesOf_cons hc, hlines, List.modifyHead_cons] at h
      rw [hlines] at ih
      rcases List.mem_cons.1 h with rfl | h
      · have hfirst := ih List.mem_cons_self
        simp [hfirst, Ne.symm hc]
      · exact ih (List.mem_cons_of_mem _ h)

theorem lineStart_zero (lines : List (List Char)) : lineStart lines 0 = 0 := rfl

theorem lineStart_cons (line : List Char) (lines : List (List Char)) (k : Nat) :
    lineStart (line :: lines) (k + 1) = line.length + 1 + lineStart lines k := by
  rw [lineStart, List.take_succ_cons, joined_cons, List.length_cons, List.length_append, lineStart]
  omega

theorem lineStart_succ {lines : List (List Char)} {k : Nat} {line : List Char} (h : lines[k]? = some line) :
    lineStart lines (k + 1) = lineStart lines k + line.length + 1 := by
  rw [lineStart, List.take_add_one, h, joined_append, List.length_append, lineStart, Nat.add_assoc]
  simp [joined]

theorem lineStart_mono (lines : List (List Char)) {k m : Nat} (h : k ≤ m) : lineStart lines k ≤ lineStart lines m := by
  rw [← Nat.add_sub_cancel' h, lineStart, lineStart, List.take_add, joined_append, List.length_append]
  exact Nat.le_add_right _ _

theorem columnAfter_cons (c : Char) (cs : List Char) : columnAfter (c :: cs) =
    if c ≠ '\n' ∧ lineAfter cs = 0 then columnAfter cs + 1 else columnAfter cs := by
  have hall : (cs.reverse.takeWhile (· ≠ '\n')).length = cs.reverse.length ↔ lineAfter cs = 0 := by
    rw [lineAfter, List.count_eq_zero]
    constructor
    · intro hlength hmem
      have hself := (List.takeWhile_prefix _).eq_of_length hlength
      have hne := List.all_eq_true.1 (hself ▸ List.all_takeWhile) '\n' (List.mem_reverse.2 hmem)
      simp at hne
    · intro hmem
      have hne : ∀ c ∈ cs.reverse, decide (c ≠ '\n') = true := by
        intro c hc
        simp only [decide_eq_true_eq]
        rintro rfl
        exact hmem (List.mem_reverse.1 hc)
      have hself := Scan.takeWhile_append hne (show Scan.StopsAt _ [] by simp [Scan.StopsAt])
      rw [List.append_nil] at hself
      rw [hself]
  rw [columnAfter, columnAfter, List.reverse_cons, List.takeWhile_append]
  by_cases hline : lineAfter cs = 0
  · rw [if_pos (hall.2 hline), List.length_append, hall.2 hline]
    by_cases hc : c = '\n' <;> simp [hc, hline]
  · rw [if_neg (fun h => hline (hall.1 h)), if_neg (fun h => hline h.2)]

/-- **Where a position is**: after so many characters, at a column of the line with the number. -/
theorem position_in_line (before after : List Char) : ∃ line, (linesOf (before ++ after))[lineAfter before]? = some line ∧
    columnAfter before ≤ line.length ∧
    lineStart (linesOf (before ++ after)) (lineAfter before) + columnAfter before = before.length := by
  induction before with
  | nil =>
    obtain ⟨line, rest, hlines⟩ := exists_linesOf after
    exact ⟨line, by simp [hlines, lineAfter], Nat.zero_le _, rfl⟩
  | cons c before ih =>
    obtain ⟨line, hline, hcolumn, hindex⟩ := ih
    by_cases hc : c = '\n'
    · subst hc
      have hafter : lineAfter ('\n' :: before) = lineAfter before + 1 := by simp [lineAfter]
      rw [List.cons_append, linesOf_newline, hafter, columnAfter_cons, if_neg (by simp), lineStart_cons]
      refine ⟨line, hline, hcolumn, ?_⟩
      simp only [List.length_nil, List.length_cons]
      omega
    · have hafter : lineAfter (c :: before) = lineAfter before := by simp [lineAfter, hc]
      obtain ⟨first, rest, hlines⟩ := exists_linesOf (before ++ after)
      rw [List.cons_append, linesOf_cons hc, hafter, columnAfter_cons, hlines, List.modifyHead_cons]
      rw [hlines] at hline hindex
      cases hk : lineAfter before with
      | zero =>
        rw [hk] at hline hindex
        cases hline
        rw [if_pos ⟨hc, rfl⟩]
        refine ⟨c :: line, rfl, Nat.succ_le_succ hcolumn, ?_⟩
        simp only [lineStart_zero, List.length_cons] at hindex ⊢
        omega
      | succ k =>
        rw [hk] at hline hindex
        rw [if_neg (by simp)]
        refine ⟨line, hline, hcolumn, ?_⟩
        simp only [lineStart_cons, List.length_cons] at hindex ⊢
        omega

theorem position_at {text : List Char} {i : Nat} (hi : i ≤ text.length) :
    ∃ line, (linesOf text)[lineAfter (text.take i)]? = some line ∧ columnAfter (text.take i) ≤ line.length ∧
      lineStart (linesOf text) (lineAfter (text.take i)) + columnAfter (text.take i) = i := by
  have hposition := position_in_line (text.take i) (text.drop i)
  rwa [List.take_append_drop, List.length_take_of_le hi] at hposition

theorem intercalate_cons_eq_joined (line : List Char) (lines : List (List Char)) :
    ['\n'].intercalate (line :: lines) = line ++ joined lines := by
  induction lines generalizing line with
  | nil => simp [joined]
  | cons l ls ih => rw [List.intercalate_cons_cons, ih l]; simp [joined]

theorem joined_eq_intercalate {lines : List (List Char)} (h : lines ≠ []) :
    joined lines = '\n' :: ['\n'].intercalate lines := by
  obtain ⟨line, rest, rfl⟩ := List.exists_cons_of_ne_nil h
  rw [intercalate_cons_eq_joined, joined, List.flatMap_cons]
  rfl

theorem eq_joined {text line : List Char} {lines : List (List Char)} (h : linesOf text = line :: lines) :
    text = line ++ joined lines := by
  rw [← intercalate_cons_eq_joined, ← h]
  exact (List.intercalate_splitOn '\n').symm

theorem lineStart_eq_length (line : List Char) (lines : List (List Char)) (k : Nat) :
    lineStart (line :: lines) (k + 1) = (line ++ joined (lines.take k)).length + 1 := by
  rw [lineStart_cons, List.length_append, lineStart]
  omega

/-- A text around one of its lines. -/
theorem split_at_line {text line : List Char} {k : Nat} (h : (linesOf text)[k]? = some line) :
    ∃ before rest, text = before ++ (line ++ joined rest) ∧ before.length = lineStart (linesOf text) k := by
  obtain ⟨first, more, hlines⟩ := exists_linesOf text
  rw [hlines] at h ⊢
  have htext := eq_joined hlines
  cases k with
  | zero =>
    cases h
    exact ⟨[], more, htext, rfl⟩
  | succ k =>
    obtain ⟨hk, hline⟩ := List.getElem?_eq_some_iff.1 h
    have hk : k < more.length := Nat.lt_of_succ_lt_succ hk
    have hmore : more = more.take k ++ line :: more.drop (k + 1) := by
      rw [← hline, List.getElem_cons_succ, ← List.drop_eq_getElem_cons hk, List.take_append_drop]
    refine ⟨first ++ joined (more.take k) ++ ['\n'], more.drop (k + 1), ?_, ?_⟩
    · rw [htext]
      conv => lhs; rw [hmore, joined_append, joined_cons]
      simp
    · rw [lineStart_eq_length, List.length_append]
      rfl

theorem line_column_unique {lines : List (List Char)} {k k' j j' : Nat} {line line' : List Char} (h : lines[k]? = some line)
    (h' : lines[k']? = some line') (hj : j ≤ line.length) (hj' : j' ≤ line'.length)
    (heq : lineStart lines k + j = lineStart lines k' + j') : k = k' ∧ j = j' := by
  have hsucc := lineStart_succ h
  have hsucc' := lineStart_succ h'
  rcases Nat.lt_trichotomy k k' with hlt | rfl | hlt
  · have := lineStart_mono lines (show k + 1 ≤ k' from hlt)
    omega
  · exact ⟨rfl, by omega⟩
  · have := lineStart_mono lines (show k' + 1 ≤ k from hlt)
    omega

/-- **A column of a line holds the character with its index.** -/
theorem getElem?_lineStart {text line : List Char} {k j : Nat} (h : (linesOf text)[k]? = some line) (hj : j ≤ line.length) :
    (∃ c, text[lineStart (linesOf text) k + j]? = some c ∧ c ≠ '\n') ↔ j < line.length := by
  obtain ⟨before, rest, htext, hbefore⟩ := split_at_line h
  have hline := newline_not_mem_linesOf (List.mem_of_getElem? h)
  rw [← hbefore, htext, List.getElem?_append_right (Nat.le_add_right _ _), Nat.add_sub_cancel_left]
  constructor
  · rintro ⟨c, hc, hne⟩
    rcases Nat.lt_or_eq_of_le hj with hlt | rfl
    · exact hlt
    · rw [List.getElem?_append_right (Nat.le_refl _), Nat.sub_self] at hc
      cases rest with
      | nil => cases hc
      | cons l ls =>
        rw [joined_cons] at hc
        cases hc
        exact absurd rfl hne
  · intro hlt
    rw [List.getElem?_append_left hlt, List.getElem?_eq_getElem hlt]
    exact ⟨_, rfl, fun heq => hline (heq ▸ List.getElem_mem hlt)⟩

/-- In the column `j` of the line `k` stands a character, not a newline, that is between the positions. -/
def InStretch (text : List Char) (start stop : Position) (k j : Nat) : Prop :=
  ∃ (i : Nat) (c : Char), start.index ≤ i ∧ i < stop.index ∧ text[i]? = some c ∧ c ≠ '\n' ∧
    lineAfter (text.take i) = k ∧ columnAfter (text.take i) = j

theorem inStretch_iff {text line : List Char} {k : Nat} (h : (linesOf text)[k]? = some line) {start stop : Position} {j : Nat} :
    InStretch text start stop k j ↔ j < line.length ∧ start.index ≤ (lineStart (linesOf text) k + j : Nat) ∧
      (lineStart (linesOf text) k + j : Nat) < stop.index := by
  constructor
  · rintro ⟨i, c, hstart, hstop, hc, hne, rfl, rfl⟩
    obtain ⟨hi, -⟩ := List.getElem?_eq_some_iff.1 hc
    obtain ⟨line', hline', hcolumn, hindex⟩ := position_at (Nat.le_of_lt hi)
    cases h.symm.trans hline'
    rw [hindex]
    refine ⟨(getElem?_lineStart h hcolumn).1 ?_, hstart, hstop⟩
    rw [hindex]
    exact ⟨c, hc, hne⟩
  · rintro ⟨hj, hstart, hstop⟩
    obtain ⟨c, hc, hne⟩ := (getElem?_lineStart h (Nat.le_of_lt hj)).2 hj
    obtain ⟨hi, -⟩ := List.getElem?_eq_some_iff.1 hc
    obtain ⟨line', hline', hcolumn, hindex⟩ := position_at (Nat.le_of_lt hi)
    obtain ⟨hk, hj⟩ := line_column_unique hline' h hcolumn (Nat.le_of_lt hj) hindex
    exact ⟨_, c, hstart, hstop, hc, hne, hk, hj⟩

end Scriptlet
