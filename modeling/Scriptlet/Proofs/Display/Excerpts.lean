import Scriptlet.Excerpt
import Scriptlet.Proofs.Display.TextLines
/-!
# What an excerpt underlines

A line is cut from the text together with the newline before it, and its row of carets goes to its length less one: to the last
column, for the newline is not shown in the row (`lines_succ`).  The first line of a text has no newline before it.  Its row
ends one column early where the stretch goes on to a later line (`render_top`).  If it is empty the search for its end, which
begins one character later, finds the end of the second line, and all that is shown is one line too low (`render_top_empty`).

In all other cases the excerpt marks just the characters of the stretch (`render_underlines`).
-/
namespace Scriptlet

namespace Excerpt

theorem findIdx?_eq (p : Char → Bool) (cs : List Char) :
    cs.findIdx? p = if cs.any p then some (cs.takeWhile (!p ·)).length else none := by
  induction cs with
  | nil => rfl
  | cons c cs ih =>
    rw [List.findIdx?_cons, ih]
    cases hc : p c <;> cases ha : cs.any p <;> simp [hc, ha]

theorem lastNewline?_eq (text : List Char) (i : Nat) : lastNewline? text i = if lineAfter (text.take i) = 0 then none
    else some ((text.take i).length - 1 - columnAfter (text.take i)) := by
  have hany : (text.take i).reverse.any (fun c => decide (c = '\n')) = true ↔ lineAfter (text.take i) ≠ 0 := by
    rw [lineAfter, Nat.ne_zero_iff_zero_lt, List.count_pos_iff]
    simp
  simp only [lastNewline?, findIdx?_eq]
  by_cases hline : lineAfter (text.take i) = 0
  · rw [if_neg (fun h => hany.1 h hline), if_pos hline]
    rfl
  · rw [if_pos (hany.2 hline), if_neg hline]
    simp [columnAfter]

/-- Within a text a line goes on to the next newline, or to the end. -/
theorem nextNewline_eq (before : List Char) {line : List Char} (hline : '\n' ∉ line) (rest : List (List Char)) :
    nextNewline (before ++ (line ++ joined rest)) before.length = before.length + line.length := by
  have hpass : ∀ c ∈ line, (!decide (c = '\n')) = true := by
    intro c hc
    simp only [Bool.not_eq_true', decide_eq_false_iff_not]
    rintro rfl
    exact hline hc
  have hstop : Scan.StopsAt (fun c => !decide (c = '\n')) (joined rest) := by
    cases rest with
    | nil => simp [Scan.StopsAt, joined]
    | cons l ls =>
      rw [joined_cons]
      rintro c ⟨⟩
      rfl
  rw [nextNewline, List.drop_left, findIdx?_eq, Scan.takeWhile_append hpass hstop]
  cases rest with
  | nil =>
    have hany : ¬(line ++ joined []).any (fun c => decide (c = '\n')) = true := by
      simp [joined]
      exact hline
    rw [if_neg hany]
    simp [joined]
  | cons l ls => simp [joined]

/-- An excerpt shows a line exactly if its last line is not before its first. -/
theorem newline_mem_render {text : List Char} {start stop : Position} :
    '\n' ∈ render text start stop ↔ start.line ≤ stop.line := by
  rw [render, List.mem_filter]
  cases hcount : (stop.line - start.line + 1).toNat with
  | zero =>
    rw [lines]
    exact ⟨fun h => absurd h.1 List.not_mem_nil, fun h => by omega⟩
  | succ count =>
    rw [lines]
    refine ⟨fun _ => by omega, fun _ => ⟨List.mem_append_left _ (List.mem_append_right _ List.mem_cons_self), by decide⟩⟩

/-- The rows of carets under lines that the stretch covers from a column of the first one on. -/
def fullRows (first : Int) : List (List Char) → List (List Char)
  | [] => []
  | line :: rest => carets first line.length :: fullRows 0 rest

/-- A line and the row under it. -/
def underlined (line row : List Char) : List Char := line ++ '\n' :: row

theorem lines_succ (before : List Char) {line : List Char} (hline : '\n' ∉ line) (rest : List (List Char)) (last : Int)
    (count : Nat) (first : Int) :
    lines (before ++ joined (line :: rest)) last (count + 1) before.length
        (nextNewline (before ++ joined (line :: rest)) (before.length + 1)) first =
      '\n' :: underlined line (carets first (if count = 0 then last else line.length)) ++
        lines (before ++ joined (line :: rest)) last count (before ++ '\n' :: line).length
          (nextNewline (before ++ joined (line :: rest)) ((before ++ '\n' :: line).length + 1)) 0 := by
  have hsplit : before ++ joined (line :: rest) = (before ++ ['\n']) ++ (line ++ joined rest) := by simp [joined_cons]
  have hstop : nextNewline (before ++ joined (line :: rest)) (before.length + 1) = (before ++ '\n' :: line).length := by
    have hnext := nextNewline_eq (before ++ ['\n']) hline rest
    rw [hsplit]
    simpa [Nat.add_assoc, Nat.add_comm, Nat.add_left_comm] using hnext
  have hcut : ((before ++ joined (line :: rest)).take (before ++ '\n' :: line).length).drop before.length = '\n' :: line := by
    have hassoc : before ++ joined (line :: rest) = (before ++ '\n' :: line) ++ joined rest := by simp [joined_cons]
    rw [hassoc, List.take_left, List.drop_left]
  rw [hstop, lines, hcut]
  simp [underlined]

/-- Lines that are not the last to be shown are underlined to their ends. -/
theorem lines_full (last : Int) (count : Nat) (rest : List (List Char)) :
    ∀ (xs : List (List Char)) (before : List Char) (first : Int), (∀ l ∈ xs, '\n' ∉ l) →
    lines (before ++ joined (xs ++ rest)) last (xs.length + (count + 1)) before.length
        (nextNewline (before ++ joined (xs ++ rest)) (before.length + 1)) first =
      joined (List.zipWith underlined xs (fullRows first xs)) ++
        lines (before ++ joined (xs ++ rest)) last (count + 1) (before ++ joined xs).length
          (nextNewline (before ++ joined (xs ++ rest)) ((before ++ joined xs).length + 1)) (if xs = [] then first else 0)
  | [], before, first, _ => by simp [joined, fullRows]
  | x :: xs, before, first, hxs => by
    obtain ⟨hx, hxs⟩ := List.forall_mem_cons.1 hxs
    have hcount : (x :: xs).length + (count + 1) = (xs.length + (count + 1)) + 1 := by
      rw [List.length_cons]
      omega
    have hsplit : before ++ joined (x :: (xs ++ rest)) = (before ++ '\n' :: x) ++ joined (xs ++ rest) := by
      simp [joined_cons]
    have hjoined : before ++ joined (x :: xs) = (before ++ '\n' :: x) ++ joined xs := by simp [joined_cons]
    rw [hcount, List.cons_append, lines_succ before hx, if_neg (by omega), hsplit,
      lines_full last count rest xs (before ++ '\n' :: x) 0 hxs, hjoined, fullRows, List.zipWith_cons_cons, joined_cons]
    simp

theorem length_fullRows (first : Int) (xs : List (List Char)) : (fullRows first xs).length = xs.length := by
  induction xs generalizing first with
  | nil => rfl
  | cons x xs ih => rw [fullRows, List.length_cons, List.length_cons, ih]

/-- After the lines of the text nothing is shown but the row. -/
theorem lines_last (before : List Char) {rest : List (List Char)} (hrest : ∀ l ∈ rest, '\n' ∉ l) (last first : Int) :
    lines (before ++ joined rest) last 1 before.length (nextNewline (before ++ joined rest) (before.length + 1)) first =
      rest.head?.elim [] ('\n' :: ·) ++ '\n' :: carets first last := by
  cases rest with
  | nil =>
    have hend : nextNewline (before ++ joined []) (before.length + 1) = before.length := by
      have hdrop : (before ++ joined []).drop (before.length + 1) = [] := List.drop_eq_nil_of_le (by simp [joined])
      rw [nextNewline, hdrop]
      simp [joined]
    rw [hend, lines, lines, List.take_left, List.drop_length]
    simp
  | cons line rest =>
    rw [lines_succ before (hrest line List.mem_cons_self), lines]
    simp [underlined]

/-- The rows under some lines of which the last is underlined to a column. -/
def rowsTo (first last : Int) (xs : List (List Char)) : List (List Char) :=
  fullRows first xs ++ [carets (if xs = [] then first else 0) last]

theorem lines_to (before : List Char) {xs : List (List Char)} {y : List Char} (rest : List (List Char))
    (hxs : ∀ l ∈ xs ++ [y], '\n' ∉ l) (first last : Int) :
    lines (before ++ joined (xs ++ y :: rest)) last (xs.length + 1) before.length
        (nextNewline (before ++ joined (xs ++ y :: rest)) (before.length + 1)) first =
      joined (List.zipWith underlined (xs ++ [y]) (rowsTo first last xs)) := by
  obtain ⟨hxs, hy⟩ := List.forall_mem_append.1 hxs
  have hsplit : before ++ joined (xs ++ y :: rest) = (before ++ joined xs) ++ joined (y :: rest) := by
    rw [joined_append, List.append_assoc]
  rw [lines_full last 0 (y :: rest) xs before first hxs, hsplit,
    lines_succ (before ++ joined xs) (hy y List.mem_cons_self), if_pos rfl, lines, List.append_nil, rowsTo,
    List.zipWith_append (length_fullRows first xs).symm, joined_append]
  simp [joined]

/-! ## Which columns are marked -/

theorem getElem?_fullRows (first : Int) (xs : List (List Char)) (k : Nat) :
    (fullRows first xs)[k]? = xs[k]?.map fun line => carets (if k = 0 then first else 0) line.length := by
  induction xs generalizing first k with
  | nil => simp [fullRows]
  | cons x xs ih =>
    cases k with
    | zero => rfl
    | succ k =>
      rw [fullRows, List.getElem?_cons_succ, List.getElem?_cons_succ, ih]
      simp

theorem getElem?_rowsTo {first last : Int} {xs : List (List Char)} {y row : List Char} {k : Nat}
    (h : (rowsTo first last xs)[k]? = some row) : ∃ line, (xs ++ [y])[k]? = some line ∧
      row = carets (if k = 0 then first else 0) (if k = xs.length then last else line.length) := by
  rw [rowsTo, List.getElem?_append, length_fullRows] at h
  split at h
  · next hk =>
    rw [getElem?_fullRows] at h
    obtain ⟨line, hline, rfl⟩ := Option.map_eq_some_iff.1 h
    exact ⟨line, by rw [List.getElem?_append_left hk, hline], by rw [if_neg (Nat.ne_of_lt hk)]⟩
  · next hk =>
    obtain ⟨hk', hrow⟩ := List.getElem?_eq_some_iff.1 h
    have hk' : k = xs.length := by
      rw [List.length_singleton] at hk'
      omega
    subst hk'
    refine ⟨y, by simp, ?_⟩
    rw [if_pos rfl, ← hrow]
    cases xs <;> simp

/-- A row has carets in the marked columns and is blank elsewhere. -/
def Marks (row : List Char) (marked : Nat → Prop) : Prop :=
  (∀ c ∈ row, c = ' ' ∨ c = '^') ∧ ∀ j, row[j]? = some '^' ↔ marked j

theorem marks_carets {first last : Int} (h : 0 ≤ first) {marked : Nat → Prop}
    (hmarked : ∀ j : Nat, (first ≤ j ∧ (j : Int) < last) ↔ marked j) : Marks (carets first last) marked := by
  refine ⟨fun c hc => ?_, fun j => ?_⟩
  · rcases List.mem_append.1 hc with hc | hc
    · exact .inl (List.eq_of_mem_replicate hc)
    · exact .inr (List.eq_of_mem_replicate hc)
  · rw [← hmarked j, carets, List.getElem?_append, List.length_replicate]
    split <;> simp [List.getElem?_replicate] <;> omega

/-- What is shown are the lines in order, each with a row under it that marks columns of that line. -/
def Shows (lines : List (List Char)) (marked : Nat → Nat → Prop) (shown : List Char) : Prop :=
  ∃ rows : List (List Char), rows.length = lines.length ∧
    shown = ['\n'].intercalate (List.zipWith underlined lines rows) ∧
    ∀ k row, rows[k]? = some row → Marks row (marked k)

/-- The columns that are marked on a line are those of the stretch. -/
theorem columns_iff {lines : List (List Char)} {k₀ c₀ k₁ c₁ k j : Nat} {line₀ line₁ line : List Char}
    (h₀ : lines[k₀]? = some line₀) (hc₀ : c₀ ≤ line₀.length) (h₁ : lines[k₁]? = some line₁)
    (hc₁ : c₁ ≤ line₁.length) (hline : lines[k]? = some line) (hk₀ : k₀ ≤ k) (hk₁ : k ≤ k₁) :
    ((if k = k₀ then c₀ else 0) ≤ j ∧ j < if k = k₁ then c₁ else line.length) ↔ j < line.length ∧
      lineStart lines k₀ + c₀ ≤ lineStart lines k + j ∧ lineStart lines k + j < lineStart lines k₁ + c₁ := by
  have hsucc := lineStart_succ hline
  have hsucc₀ := lineStart_succ h₀
  have hstart : k ≠ k₀ → lineStart lines (k₀ + 1) ≤ lineStart lines k := fun hne => lineStart_mono lines (by omega)
  have hstop : k ≠ k₁ → lineStart lines (k + 1) ≤ lineStart lines k₁ := fun hne => lineStart_mono lines (by omega)
  by_cases hfirst : k = k₀
  · subst hfirst
    cases h₀.symm.trans hline
    by_cases hlast : k = k₁
    · subst hlast
      cases h₀.symm.trans h₁
      simp only [if_pos]
      omega
    · simp only [if_pos, if_neg hlast]
      have := hstop hlast
      omega
  · have := hstart hfirst
    by_cases hlast : k = k₁
    · subst hlast
      cases hline.symm.trans h₁
      simp only [if_neg hfirst, if_pos]
      omega
    · simp only [if_neg hfirst, if_neg hlast]
      have := hstop hlast
      omega

theorem lines_tabless {text : List Char} (h : '\t' ∉ text) (last : Int) :
    ∀ (count lineStart lineStop : Nat) (first : Int), '\t' ∉ lines text last count lineStart lineStop first
  | 0, _, _, _ => by simp [lines]
  | count + 1, lineStart, lineStop, first => by
    have hcut : '\t' ∉ (text.take lineStop).drop lineStart :=
      fun hmem => h (List.mem_of_mem_take (List.mem_of_mem_drop hmem))
    have hrow : ∀ stop, '\t' ∉ carets first stop := by simp [carets]
    have hrest := lines_tabless h last count lineStop (nextNewline text (lineStop + 1)) 0
    simp [lines, hcut, hrow, hrest]

/-! ## Excerpts between true positions -/

/-- The position is in the text, at the column `c` of the line `k`, and shows them. -/
structure Located (text : List Char) (p : Position) (k c : Nat) (line : List Char) : Prop where
  index : p.index = (lineStart (linesOf text) k + c : Nat)
  index_le : p.index ≤ text.length
  line_eq : p.line = k
  column_eq : p.column = c
  lineAfter_eq : lineAfter (text.take p.index.toNat) = k
  columnAfter_eq : columnAfter (text.take p.index.toNat) = c
  here : (linesOf text)[k]? = some line
  column_le : c ≤ line.length

theorem located_of_isTrue {text : List Char} {p : Position} (hpos : 0 ≤ p.index) (hlen : p.index ≤ text.length)
    (h : p.isTrue text = true) : ∃ k c line, Located text p k c line := by
  have hindex_le : p.index.toNat ≤ text.length := by omega
  obtain ⟨line, hline, hcolumn, hindex⟩ := position_at hindex_le
  simp only [Position.isTrue, Bool.and_eq_true, decide_eq_true_eq] at h
  exact ⟨_, _, line, by rw [hindex]; omega, hlen, h.1, h.2, rfl, rfl, hline, hcolumn⟩

theorem Located.linesOf_eq {text : List Char} {p : Position} {c : Nat} {line : List Char} (h : Located text p 0 c line) :
    ∃ more, linesOf text = line :: more := by
  obtain ⟨first, more, hlines⟩ := exists_linesOf text
  have hhere := h.here
  rw [hlines] at hhere
  cases hhere
  exact ⟨more, hlines⟩

section Cases

variable {text : List Char} {start stop : Position} {k₀ c₀ k₁ c₁ : Nat} {line₀ line₁ : List Char}
  (hstart : Located text start k₀ c₀ line₀) (hstop : Located text stop k₁ c₁ line₁)

include hstart hstop

theorem Located.le_of_lt (hlt : start.index < stop.index) : k₀ ≤ k₁ := by
  have hindex := hstart.index
  have hindex' := hstop.index
  have hsucc := lineStart_succ hstop.here
  have hcolumn := hstop.column_le
  rcases Nat.lt_or_ge k₁ k₀ with hk | hk
  · have := lineStart_mono (linesOf text) (show k₁ + 1 ≤ k₀ from hk)
    omega
  · exact hk

/-- The excerpt begins with the newline before the first line, or with the text. -/
theorem render_eq (htabs : '\t' ∉ text) (hle : k₀ ≤ k₁) :
    render text start stop = lines text c₁ (k₁ - k₀ + 1) (lineStart (linesOf text) k₀ - 1)
      (nextNewline text (lineStart (linesOf text) k₀ - 1 + 1)) c₀ := by
  have hindex := hstart.index
  have hlen := hstart.index_le
  have hclamp : clampIndex text.length start.index = start.index.toNat := by
    rw [clampIndex, if_neg (by omega)]
    omega
  have hnewline : (lastNewline? text start.index.toNat).getD 0 = lineStart (linesOf text) k₀ - 1 := by
    rw [lastNewline?_eq, hstart.lineAfter_eq, hstart.columnAfter_eq]
    split
    · next hzero =>
      rw [hzero]
      rfl
    · rw [List.length_take_of_le (by omega), Option.getD_some]
      omega
  have hcount : (stop.line - start.line + 1).toNat = k₁ - k₀ + 1 := by
    rw [hstart.line_eq, hstop.line_eq]
    omega
  simp only [render, hclamp, hnewline, hcount, hstart.column_eq, hstop.column_eq]
  rw [List.filter_eq_self]
  intro c hc
  simp only [decide_eq_true_eq]
  rintro rfl
  exact lines_tabless htabs _ _ _ _ _ hc

omit hstart hstop in
theorem shows_rowsTo (c₀ c₁ : Nat) (xs : List (List Char)) (y : List Char) {marked : Nat → Nat → Prop}
    (h : ∀ k line j, (xs ++ [y])[k]? = some line →
      (((if k = 0 then c₀ else 0) ≤ j ∧ j < if k = xs.length then c₁ else line.length) ↔ marked k j)) :
    Shows (xs ++ [y]) marked (['\n'].intercalate (List.zipWith underlined (xs ++ [y]) (rowsTo c₀ c₁ xs))) := by
  refine ⟨rowsTo c₀ c₁ xs, by simp [rowsTo, length_fullRows], rfl, fun k row hrow => ?_⟩
  obtain ⟨line, hline, rfl⟩ := getElem?_rowsTo (y := y) hrow
  refine marks_carets (by split <;> omega) fun j => ?_
  rw [← h k line j hline]
  split <;> split <;> omega

omit hstart in
/-- The lines from one number to that of a position. -/
theorem lines_split (hle : k₀ ≤ k₁) : ∃ xs rest,
    (linesOf text).drop k₀ = xs ++ line₁ :: rest ∧ xs.length = k₁ - k₀ ∧
    ((linesOf text).drop k₀).take (k₁ + 1 - k₀) = xs ++ [line₁] ∧ (∀ l ∈ xs ++ [line₁], '\n' ∉ l) ∧
    ∀ k line, (xs ++ [line₁])[k]? = some line → k ≤ k₁ - k₀ ∧ (linesOf text)[k₀ + k]? = some line := by
  obtain ⟨hk₁, hline⟩ := List.getElem?_eq_some_iff.1 hstop.here
  have hlength : (((linesOf text).drop k₀).take (k₁ - k₀)).length = k₁ - k₀ :=
    List.length_take_of_le (by rw [List.length_drop]; omega)
  have hdrop : ((linesOf text).drop k₀).drop (k₁ - k₀) = line₁ :: (linesOf text).drop (k₁ + 1) := by
    rw [List.drop_drop, Nat.add_sub_cancel' hle, List.drop_eq_getElem_cons hk₁, hline]
  have htake : ((linesOf text).drop k₀).take (k₁ + 1 - k₀) =
      ((linesOf text).drop k₀).take (k₁ - k₀) ++ [line₁] := by
    rw [show k₁ + 1 - k₀ = k₁ - k₀ + 1 by omega, List.take_add, hdrop]
    rfl
  refine ⟨_, (linesOf text).drop (k₁ + 1), ?_, hlength, htake, fun l hl => ?_, fun k line hk => ?_⟩
  · rw [← hdrop, List.take_append_drop]
  · rw [← htake] at hl
    exact newline_not_mem_linesOf (List.mem_of_mem_drop (List.mem_of_mem_take hl))
  · rw [← htake] at hk
    obtain ⟨hlt, -⟩ := List.getElem?_eq_some_iff.1 hk
    rw [List.length_take] at hlt
    refine ⟨by omega, ?_⟩
    rwa [List.getElem?_take_of_lt (by omega), List.getElem?_drop] at hk

theorem marks_iff {k j : Nat} {line : List Char} (hle : k₀ ≤ k₁) (hk : k ≤ k₁ - k₀)
    (hline : (linesOf text)[k₀ + k]? = some line) :
    ((if k = 0 then c₀ else 0) ≤ j ∧ j < if k = k₁ - k₀ then c₁ else line.length) ↔
      InStretch text start stop (k₀ + k) j := by
  have hfirst : k₀ + k = k₀ ↔ k = 0 := by omega
  have hlast : k₀ + k = k₁ ↔ k = k₁ - k₀ := by omega
  have hcolumns := columns_iff (j := j) hstart.here hstart.column_le hstop.here hstop.column_le hline (Nat.le_add_right _ _)
    (by omega)
  simp only [hfirst, hlast] at hcolumns
  rw [hcolumns, inStretch_iff hline, hstart.index, hstop.index]
  omega

/-- Below the first line of the text the excerpt is what it should be, after a newline. -/
theorem render_below (htabs : '\t' ∉ text) (hle : k₀ ≤ k₁) (hbelow : 0 < k₀) :
    ∃ shown, render text start stop = '\n' :: shown ∧
      Shows (((linesOf text).drop k₀).take (k₁ + 1 - k₀))
        (fun k j => InStretch text start stop (k₀ + k) j) shown := by
  obtain ⟨m, rfl⟩ : ∃ m, k₀ = m + 1 := ⟨k₀ - 1, by omega⟩
  obtain ⟨first, more, hlines⟩ := exists_linesOf text
  obtain ⟨xs, rest, hsplit, hlength, htake, hplain, hget⟩ := lines_split hstop hle
  have hmore : more.drop m = xs ++ line₁ :: rest := by rw [← hsplit, hlines, List.drop_succ_cons]
  have htext : text = (first ++ joined (more.take m)) ++ joined (xs ++ line₁ :: rest) := by
    rw [← hmore, List.append_assoc, ← joined_append, List.take_append_drop]
    exact eq_joined hlines
  have hbefore : lineStart (linesOf text) (m + 1) - 1 = (first ++ joined (more.take m)).length := by
    rw [hlines, lineStart_eq_length, Nat.add_sub_cancel]
  have hshown := lines_to (first ++ joined (more.take m)) rest hplain c₀ c₁
  rw [← htext, hlength, ← hbefore, ← render_eq hstart hstop htabs hle] at hshown
  refine ⟨_, hshown.trans (joined_eq_intercalate ?_), ?_⟩
  · cases xs <;> simp [rowsTo, fullRows]
  · rw [htake]
    refine shows_rowsTo c₀ c₁ xs line₁ fun k line j hline => ?_
    obtain ⟨hk, hline⟩ := hget k line hline
    rw [hlength]
    exact marks_iff hstart hstop hle hk hline

omit hstart hstop in
/-- The first line of a text has no newline before it, so it seems one character shorter. -/
theorem lines_first {line : List Char} (hne : line ≠ []) (hline : '\n' ∉ line) (rest : List (List Char)) (last : Int)
    (count : Nat) (first : Int) :
    lines (line ++ joined rest) last (count + 1) 0 (nextNewline (line ++ joined rest) 1) first =
      underlined line (carets first (if count = 0 then last else line.length - 1)) ++
        lines (line ++ joined rest) last count line.length (nextNewline (line ++ joined rest) (line.length + 1)) 0 := by
  obtain ⟨c, cs, rfl⟩ := List.exists_cons_of_ne_nil hne
  have hstop : nextNewline (c :: cs ++ joined rest) 1 = (c :: cs).length := by
    have hnext := nextNewline_eq [c] (fun hmem => hline (List.mem_cons_of_mem c hmem)) rest
    rw [List.length_singleton] at hnext
    rw [List.length_cons, Nat.add_comm cs.length 1]
    exact hnext
  rw [hstop, lines, List.take_left, List.drop_zero]
  simp [underlined]

theorem render_eq_top (htabs : '\t' ∉ text) (hk₀ : k₀ = 0) (hne : line₀ ≠ []) :
    render text start stop = underlined line₀ (carets c₀ (if k₁ = 0 then c₁ else line₀.length - 1)) ++
      lines text c₁ k₁ line₀.length (nextNewline text (line₀.length + 1)) 0 := by
  subst hk₀
  obtain ⟨more, hlines⟩ := hstart.linesOf_eq
  have htext := eq_joined hlines
  have hplain := newline_not_mem_linesOf (List.mem_of_getElem? hstart.here)
  have hrender := render_eq hstart hstop htabs (Nat.zero_le k₁)
  rwa [lineStart_zero, Nat.zero_sub, Nat.zero_add, Nat.sub_zero, htext, lines_first hne hplain, ← htext] at hrender

theorem marks_top {k j : Nat} {line : List Char} (hk₀ : k₀ = 0) (hk : k ≤ k₁) (hline : (linesOf text)[k]? = some line) :
    ((if k = 0 then c₀ else 0) ≤ j ∧ j < if k = k₁ then c₁ else line.length) ↔ InStretch text start stop k j := by
  subst hk₀
  have hmarks := marks_iff (k := k) (j := j) hstart hstop (Nat.zero_le k₁) (by omega) (by rwa [Nat.zero_add])
  rwa [Nat.sub_zero, Nat.zero_add] at hmarks

/-- A stretch on the first line alone. -/
theorem render_top_alone (htabs : '\t' ∉ text) (hk₀ : k₀ = 0) (hk₁ : k₁ = 0) (hne : line₀ ≠ []) :
    Shows ((linesOf text).take 1) (InStretch text start stop) (render text start stop) := by
  have hrender := render_eq_top hstart hstop htabs hk₀ hne
  subst hk₀ hk₁
  obtain ⟨more, hlines⟩ := hstart.linesOf_eq
  rw [hrender, if_pos rfl, lines, List.append_nil, hlines]
  refine ⟨[carets c₀ c₁], rfl, by simp, fun k row hrow => ?_⟩
  cases k with
  | zero =>
    cases hrow
    refine marks_carets (Int.natCast_nonneg c₀) fun j => ?_
    rw [← marks_top hstart hstop rfl (Nat.le_refl 0) hstart.here]
    simp
  | succ k => cases hrow

/-- On the first line of the text, if it is not empty, the last character is not underlined where the stretch goes on. -/
theorem render_top (htabs : '\t' ∉ text) (hk₀ : k₀ = 0) (hk₁ : 0 < k₁) (hne : line₀ ≠ []) :
    Shows ((linesOf text).take (k₁ + 1)) (fun k j => InStretch text start stop k j ∧ (k = 0 → j + 1 < line₀.length))
      (render text start stop) := by
  have hrender := render_eq_top hstart hstop htabs hk₀ hne
  subst hk₀
  obtain ⟨more, hlines⟩ := hstart.linesOf_eq
  obtain ⟨m, rfl⟩ : ∃ m, k₁ = m + 1 := ⟨k₁ - 1, by omega⟩
  obtain ⟨xs, rest, hsplit, hlength, htake, hbreaks, hget⟩ := lines_split hstop hk₁
  have hmore : more = xs ++ line₁ :: rest := by rw [← hsplit, hlines]; rfl
  have hlater := lines_to line₀ rest hbreaks 0 c₁
  rw [← hmore, ← eq_joined hlines, hlength, Nat.add_sub_cancel] at hlater
  have hshown : (linesOf text).take (m + 1 + 1) = line₀ :: (xs ++ [line₁]) := by
    rw [← htake, hlines]
    rfl
  rw [hshown, hrender, if_neg (Nat.succ_ne_zero m), hlater, ← intercalate_cons_eq_joined]
  refine ⟨carets c₀ (line₀.length - 1) :: rowsTo 0 c₁ xs, ?_, rfl, fun k row hrow => ?_⟩
  · simp [rowsTo, length_fullRows]
  cases k with
  | zero =>
    cases hrow
    refine marks_carets (Int.natCast_nonneg c₀) fun j => ?_
    dsimp only
    rw [← marks_top hstart hstop rfl (Nat.zero_le _) hstart.here, if_pos rfl, if_neg (Nat.succ_ne_zero m).symm]
    omega
  | succ k =>
    obtain ⟨line, hline, rfl⟩ := getElem?_rowsTo (y := line₁) hrow
    obtain ⟨hk, hline⟩ := hget k line hline
    refine marks_carets (by split <;> omega) fun j => ?_
    dsimp only
    rw [← marks_top (k := k + 1) hstart hstop rfl (by omega) (by rwa [Nat.add_comm]), hlength]
    simp
    split <;> omega

/-- If the first line of the text is empty, the excerpt shows the lines below those that it should show. -/
theorem render_top_empty (htabs : '\t' ∉ text) (hk₀ : k₀ = 0) (hempty : line₀ = []) (hk₁ : 0 < k₁) :
    ∃ shown, Shows (((linesOf text).drop 1).take k₁)
        (fun k j => ∃ line, (linesOf text)[k + 1]? = some line ∧ j < line.length) shown ∧
      render text start stop =
        '\n' :: shown ++ (linesOf text)[k₁ + 1]?.elim [] ('\n' :: ·) ++ '\n' :: List.replicate c₁ '^' := by
  subst hk₀ hempty
  obtain ⟨more, hlines⟩ := hstart.linesOf_eq
  have hc₀ : c₀ = 0 := Nat.le_zero.1 hstart.column_le
  have htext : text = [] ++ joined (more.take k₁ ++ more.drop k₁) := by
    rw [List.take_append_drop]
    exact eq_joined hlines
  have hlength : (more.take k₁).length = k₁ := by
    obtain ⟨hlt, -⟩ := List.getElem?_eq_some_iff.1 hstop.here
    rw [hlines] at hlt
    exact List.length_take_of_le (Nat.le_of_lt_succ hlt)
  have hne : more.take k₁ ≠ [] := List.ne_nil_of_length_pos (by omega)
  have hplain : ∀ l ∈ more, '\n' ∉ l := by
    intro l hl
    refine @newline_not_mem_linesOf text l ?_
    rw [hlines]
    exact List.mem_cons_of_mem _ hl
  have hrender := render_eq hstart hstop htabs (Nat.zero_le k₁)
  have hfull := lines_full c₁ 0 (more.drop k₁) (more.take k₁) [] 0 fun l hl => hplain l (List.mem_of_mem_take hl)
  rw [← htext, hlength, if_neg hne, List.nil_append] at hfull
  rw [lineStart_zero, hc₀] at hrender
  refine ⟨['\n'].intercalate (List.zipWith underlined (more.take k₁) (fullRows 0 (more.take k₁))),
    ⟨fullRows 0 (more.take k₁), ?_, ?_, fun k row hrow => ?_⟩, ?_⟩
  · rw [hlines, length_fullRows]
    rfl
  · rw [hlines]
    rfl
  · rw [getElem?_fullRows] at hrow
    obtain ⟨line, hline, rfl⟩ := Option.map_eq_some_iff.1 hrow
    refine marks_carets (by split <;> omega) fun j => ?_
    have hget : (linesOf text)[k + 1]? = some line := by
      obtain ⟨hlt, -⟩ := List.getElem?_eq_some_iff.1 hline
      rw [List.getElem?_take_of_lt (by omega)] at hline
      rw [hlines]
      exact hline
    simp [hget]
  · have hrest : ∀ l ∈ more.drop k₁, '\n' ∉ l := fun l hl => hplain l (List.mem_of_mem_drop hl)
    have hlast := lines_last (joined (more.take k₁)) hrest c₁ 0
    have hcarets : carets 0 c₁ = List.replicate c₁ '^' := by simp [carets]
    have hnext : (linesOf text)[k₁ + 1]? = (more.drop k₁).head? := by
      rw [hlines, List.getElem?_cons_succ, List.head?_drop]
    rw [← joined_append, ← List.nil_append (joined _), ← htext, hcarets] at hlast
    rw [hrender, ← joined_eq_intercalate, hnext, List.append_assoc, ← hlast]
    · exact hfull
    · intro hnil
      rcases List.zipWith_eq_nil_iff.1 hnil with hnil | hnil
      · exact hne hnil
      · exact hne (List.length_eq_zero_iff.1 (by rw [← length_fullRows 0, hnil]; rfl))

end Cases

/-- **What an excerpt underlines**: between two true positions it shows every line from the first to the last, each over a row
with a caret under each character of the stretch, if the stretch is on one line or begins below the first line of the text; one
that begins on the first line and goes on misses the last character of that line, and shows the lines below if it is empty. -/
theorem render_underlines {text : List Char} {start stop : Position} {first last : Nat} (htabs : '\t' ∉ text)
    (hpos : 0 ≤ start.index) (hlt : start.index < stop.index) (hlen : stop.index ≤ text.length)
    (hstart : start.isTrue text = true) (hstop : stop.isTrue text = true) (hfirst : start.line = first)
    (hlast : stop.line = last) :
    first ≤ last ∧ last < (linesOf text).length ∧
    (first = last ∨ 0 < first → ∃ shown, render text start stop = (if first = 0 then [] else ['\n']) ++ shown ∧
      Shows (((linesOf text).drop first).take (last + 1 - first)) (fun k => InStretch text start stop (first + k)) shown) ∧
    (first = 0 → 0 < last → ∀ top, (linesOf text)[0]? = some top →
      (top ≠ [] → Shows ((linesOf text).take (last + 1))
        (fun k j => InStretch text start stop k j ∧ (k = 0 → j + 1 < top.length)) (render text start stop)) ∧
      (top = [] → ∃ shown, Shows (((linesOf text).drop 1).take last)
          (fun k j => ∃ line, (linesOf text)[k + 1]? = some line ∧ j < line.length) shown ∧
        render text start stop = '\n' :: shown ++ (linesOf text)[last + 1]?.elim [] ('\n' :: ·) ++
          '\n' :: List.replicate stop.column.toNat '^')) := by
  obtain ⟨k₀, c₀, line₀, hstart⟩ := located_of_isTrue hpos (by omega) hstart
  obtain ⟨k₁, c₁, line₁, hstop⟩ := located_of_isTrue (by omega) hlen hstop
  obtain rfl : k₀ = first := Int.ofNat_inj.1 (hstart.line_eq.symm.trans hfirst)
  obtain rfl : k₁ = last := Int.ofNat_inj.1 (hstop.line_eq.symm.trans hlast)
  have hle := hstart.le_of_lt hstop hlt
  obtain ⟨hlength, -⟩ := List.getElem?_eq_some_iff.1 hstop.here
  refine ⟨hle, hlength, fun hcase => ?_, fun hzero hmore top htop => ?_⟩
  · rcases Nat.eq_zero_or_pos k₀ with hzero | hbelow
    · -- the stretch is not empty, so neither is the one line it is on
      obtain rfl : k₀ = k₁ := by omega
      have hne : line₀ ≠ [] := by
        have hline : line₀ = line₁ := Option.some.inj (hstart.here.symm.trans hstop.here)
        have hindex := hstart.index
        have hindex' := hstop.index
        have hcolumn := hstop.column_le
        refine List.ne_nil_of_length_pos ?_
        rw [hline]
        omega
      refine ⟨render text start stop, by simp [hzero], ?_⟩
      have hshows := render_top_alone hstart hstop htabs hzero hzero hne
      simp only [hzero, Nat.zero_add]
      exact hshows
    · obtain ⟨shown, hshown, hshows⟩ := render_below hstart hstop htabs hle hbelow
      exact ⟨shown, by rw [if_neg (by omega), hshown]; rfl, hshows⟩
  · subst hzero
    obtain rfl : line₀ = top := Option.some.inj (hstart.here.symm.trans htop)
    refine ⟨fun hne => ?_, fun hempty => ?_⟩
    · exact render_top hstart hstop htabs rfl hmore hne
    · obtain ⟨shown, hshows, hshown⟩ := render_top_empty hstart hstop htabs rfl hempty hmore
      exact ⟨shown, hshows, by rw [hshown, hstop.column_eq, Int.toNat_natCast]⟩

/-- From the second character of the second line to the end of the third. -/
theorem render_underlines_below :
    Shows ["cde".toList, "f".toList]
      (fun k => InStretch "ab\ncde\nf\ng".toList ⟨4, 1, 1, default⟩ ⟨8, 2, 1, default⟩ (1 + k))
      "cde\n ^^\nf\n^".toList := by
  obtain ⟨-, -, hshows, -⟩ := @render_underlines "ab\ncde\nf\ng".toList ⟨4, 1, 1, default⟩ ⟨8, 2, 1, default⟩ 1 2
    (by decide) (by decide) (by decide) (by decide) (by decide) (by decide) rfl rfl
  obtain ⟨shown, hshown, hshows⟩ := hshows (.inr Nat.one_pos)
  have hrender : render "ab\ncde\nf\ng".toList ⟨4, 1, 1, default⟩ ⟨8, 2, 1, default⟩ =
      '\n' :: "cde\n ^^\nf\n^".toList := by decide
  rw [hrender] at hshown
  cases hshown
  exact hshows

/-- The second character of the first line is in the stretch, but there is no caret under it. -/
theorem first_line_cut_short :
    render "ab\ncd".toList ⟨0, 0, 0, default⟩ ⟨4, 1, 1, default⟩ = "ab\n^\ncd\n^".toList ∧
      ¬Shows ["ab".toList, "cd".toList] (InStretch "ab\ncd".toList ⟨0, 0, 0, default⟩ ⟨4, 1, 1, default⟩)
        (render "ab\ncd".toList ⟨0, 0, 0, default⟩ ⟨4, 1, 1, default⟩) := by
  have hrender : render "ab\ncd".toList ⟨0, 0, 0, default⟩ ⟨4, 1, 1, default⟩ = "ab\n^\ncd\n^".toList := by decide
  refine ⟨hrender, ?_⟩
  rw [hrender]
  rintro ⟨rows, hlength, hshown, hmarks⟩
  obtain _ | ⟨row, _ | ⟨row', _ | _⟩⟩ := rows <;> cases hlength
  have hmarked : row[1]? = some '^' := ((hmarks 0 row rfl).2 1).2 ⟨1, 'b', by decide, by decide, rfl, by decide, rfl, rfl⟩
  have hnewline : ("ab\n".toList ++ (row ++ '\n' :: ("cd\n".toList ++ row')))[4]? = some '\n' := by
    have hread : "ab\n^\ncd\n^".toList = "ab\n".toList ++ (row ++ '\n' :: ("cd\n".toList ++ row')) := by
      rw [hshown]
      simp [underlined]
    rw [← hread]
    rfl
  obtain ⟨hlt, -⟩ := List.getElem?_eq_some_iff.1 hmarked
  have hcaret : ("ab\n".toList ++ (row ++ '\n' :: ("cd\n".toList ++ row')))[4]? = some '^' := by
    rw [List.getElem?_append_right (by decide)]
    exact (List.getElem?_append_left hlt).trans hmarked
  cases hnewline.symm.trans hcaret

end Excerpt

end Scriptlet
