import Scriptlet.Proofs.Scan.Partition
/-!
# Lines and columns of tokens

The position of the scanner has the line and the column of its index as long as no symbol is decided by a look at the end of a
line.  Such a look goes over the newline, and the step back leaves the line one too high and the column at `-1`: the token
turns the line (`Token.turnsLine`).  The newline that follows is shown at this place, and all that comes later is shown one line
too low.  Columns are right again from the next line on.

So the line of a token is off by the number of tokens before it that turn the line, and its column is off only if the token
directly before it does (`token_lines`).
-/
namespace Scriptlet

/-- The number of the line that begins after so many characters. -/
def lineAfter (before : List Char) : Nat := before.count '\n'

/-- The number of characters since the line began. -/
def columnAfter (before : List Char) : Nat := (before.reverse.takeWhile (· ≠ '\n')).length

theorem lineAfter_append (cs ds : List Char) : lineAfter (cs ++ ds) = lineAfter cs + lineAfter ds := List.count_append

theorem columnAfter_newline (cs : List Char) : columnAfter (cs ++ ['\n']) = 0 := by
  simp [columnAfter]

theorem columnAfter_concat (cs : List Char) {c : Char} (hc : c ≠ '\n') :
    columnAfter (cs ++ [c]) = columnAfter cs + 1 := by
  simp [columnAfter, hc]

namespace Position

/-- The position has the line and the column of its index in the text. -/
def isTrue (text : List Char) (p : Position) : Bool :=
  p.line = lineAfter (text.take p.index.toNat) && p.column = columnAfter (text.take p.index.toNat)

/-- The position after some characters is so many lines ahead; if it is also before the beginning of its line, the symbol
before it has looked over a newline. -/
structure Stands (p : Position) (before : List Char) (ahead : Nat) (turned : Bool) : Prop where
  index : p.index = before.length
  line : p.line = lineAfter before + ahead
  column : p.column = if turned then -1 else (columnAfter before : Int)

namespace Stands

variable {p : Position} {before : List Char} {ahead : Nat} {turned : Bool}

theorem next (h : p.Stands before ahead turned) {c : Char} (hc : turned = true → c = '\n') :
    (p.next (some c)).Stands (before ++ [c]) ahead false := by
  have hindex : (p.next (some c)).index = (before ++ [c]).length := by
    rw [Position.next_index, h.index, List.length_append]
    rfl
  by_cases hline : c = '\n'
  · subst hline
    refine ⟨hindex, ?_, ?_⟩
    · have hnext : (p.next (some '\n')).line = p.line + 1 := rfl
      rw [hnext, h.line, lineAfter_append]
      simp [lineAfter]
      omega
    · rw [columnAfter_newline]
      rfl
  · have hturned : turned = false := by
      rw [← Bool.not_eq_true]
      exact fun ht => hline (hc ht)
    have hne : ¬some c = some '\n' := fun hs => hline (Option.some.inj hs)
    refine ⟨hindex, ?_, ?_⟩
    · rw [Position.next, if_neg hne, lineAfter_append]
      simp [lineAfter, hline, h.line]
    · rw [Position.next, if_neg hne, columnAfter_concat before hline]
      simp [h.column, hturned]

theorem advance (h : p.Stands before ahead turned) {cs : List Char} (hne : cs ≠ [])
    (hcs : turned = true → cs.head? = some '\n') : (p.advance cs).Stands (before ++ cs) ahead false := by
  induction cs generalizing p before turned with
  | nil => exact absurd rfl hne
  | cons c cs ih =>
    have hnext := h.next (c := c) fun ht => Option.some.inj (hcs ht)
    cases cs with
    | nil => exact hnext
    | cons d cs =>
      have hrest := ih hnext (by simp) (fun ht => by cases ht)
      rw [List.append_assoc] at hrest
      exact hrest

/-- A look at a character and back changes the position only if the character is a newline. -/
theorem look (h : p.Stands before ahead false) (c : Option Char) :
    ((p.next c).back).Stands before (ahead + if c = some '\n' then 1 else 0) (c = some '\n') := by
  have hindex := h.index
  have hline := h.line
  have hcolumn := h.column
  by_cases hc : c = some '\n'
  · subst hc
    refine ⟨?_, ?_, rfl⟩
    · simp [Position.next, Position.back, hindex]
    · simp [Position.next, Position.back, hline]
      omega
  · have hback : (p.next c).back = p := by
      rw [Position.next, if_neg hc, Position.back]
      simp
    rw [hback, if_neg hc, decide_eq_false hc]
    exact h

end Stands

end Position

/-- The token is a symbol that was decided by a look at the end of the line. -/
def Token.turnsLine (text : List Char) (t : Token) : Bool :=
  t.lexeme.looksAhead && text[t.span.stop.index.toNat]? = some '\n'

namespace Scan

/-- A token that has been read after `before`, with `rest` to follow, turns the line if it has looked at a newline there. -/
theorem turnsLine_eq {p : Position} {before read rest : List Char} {t : Token} (hp : p.index = before.length)
    (hstop : t.span.stop.index = p.index + read.length) :
    t.turnsLine (before ++ (read ++ rest)) = (t.lexeme.looksAhead && rest.head? = some '\n') := by
  have hindex : t.span.stop.index.toNat = (before ++ read).length := by
    rw [hstop, hp, List.length_append]
    omega
  rw [Token.turnsLine, ← List.append_assoc, hindex, List.getElem?_append_right (Nat.le_refl _), Nat.sub_self,
    List.head?_eq_getElem?]

theorem after_stands {p : Position} {before read rest : List Char} {ahead : Nat} {turned : Bool} {t : Token}
    (h : p.Stands before ahead turned) (hne : read ≠ []) (hturned : turned = true → (read ++ rest).head? = some '\n')
    (hstop : t.span.stop.index = p.index + read.length) :
    (after p read rest t.lexeme).Stands (before ++ read)
      (ahead + if t.turnsLine (before ++ (read ++ rest)) then 1 else 0) (t.turnsLine (before ++ (read ++ rest))) := by
  have hadvance : (p.advance read).Stands (before ++ read) ahead false := by
    refine h.advance hne fun ht => ?_
    obtain ⟨c, cs, rfl⟩ := List.exists_cons_of_ne_nil hne
    exact hturned ht
  rw [turnsLine_eq h.index hstop]
  unfold after
  cases t.lexeme.looksAhead with
  | false => exact hadvance
  | true =>
    have hlook := hadvance.look rest.head?
    simpa using hlook

/-- Where the reading of one more token leaves the position; if the token turns the line, it is before a newline. -/
theorem after_stands_concat {text before read rest : List Char} {done : List Token} {p : Position} {t : Token}
    (htext : text = before ++ (read ++ rest))
    (h : p.Stands before (done.countP (·.turnsLine text)) (done.getLast?.any (·.turnsLine text))) (hne : read ≠ [])
    (hturned : done.getLast?.any (·.turnsLine text) = true → (read ++ rest).head? = some '\n')
    (hstop : t.span.stop.index = p.index + read.length) :
    (after p read rest t.lexeme).Stands (before ++ read) ((done ++ [t]).countP (·.turnsLine text))
        ((done ++ [t]).getLast?.any (·.turnsLine text)) ∧
      ((done ++ [t]).getLast?.any (·.turnsLine text) = true → rest.head? = some '\n') := by
  have hafter := after_stands h hne hturned hstop
  have hcount : (done ++ [t]).countP (·.turnsLine text) =
      done.countP (·.turnsLine text) + if t.turnsLine text then 1 else 0 := by
    rw [List.countP_append, List.countP_singleton]
  have hlast : (done ++ [t]).getLast?.any (·.turnsLine text) = t.turnsLine text := by
    rw [List.getLast?_concat]
    rfl
  rw [← htext, ← hcount, ← hlast] at hafter
  refine ⟨hafter, fun ht => ?_⟩
  rw [hlast, htext, turnsLine_eq h.index hstop, Bool.and_eq_true, decide_eq_true_eq] at ht
  exact ht.2

/-- Where a position stands after some tokens. -/
def StandsAfter (text : List Char) (done : List Token) (p : Position) : Prop :=
  p.Stands (text.take p.index.toNat) (done.countP (·.turnsLine text)) (done.getLast?.any (·.turnsLine text))

theorem standsAfter_of_append {text before cs : List Char} {done : List Token} {p : Position} (htext : text = before ++ cs)
    (h : p.Stands before (done.countP (·.turnsLine text)) (done.getLast?.any (·.turnsLine text))) :
    StandsAfter text done p := by
  have htake : text.take p.index.toNat = before := by
    rw [htext, h.index, Int.toNat_natCast, List.take_left]
  unfold StandsAfter
  rw [htake]
  exact h

/-- **Every token stands where the tokens before it have left the position.**  The induction is along the text; what has been
read is `before`, to the tokens `done`. -/
theorem Tiled.stands {p q : Position} {cs : List Char} {words : List Token} (h : Tiled p cs words q) {text : List Char} :
    ∀ (before : List Char) (done : List Token), text = before ++ cs →
      p.Stands before (done.countP (·.turnsLine text)) (done.getLast?.any (·.turnsLine text)) →
      (done.getLast?.any (·.turnsLine text) = true → cs.head? = some '\n') →
      (∀ us t vs, words = us ++ t :: vs → StandsAfter text (done ++ us) t.span.start) ∧
        StandsAfter text (done ++ words) q := by
  induction h with
  | done p =>
    intro before done htext hp _
    refine ⟨fun us t vs hsplit => ?_, ?_⟩
    · cases us <;> cases hsplit
    · rw [List.append_nil]
      exact standsAfter_of_append htext hp
  | @blank p q c cs words hblank _ ih =>
    intro before done htext hp hturned
    -- A symbol that has looked over a newline is followed by that newline.
    have hnot : done.getLast?.any (·.turnsLine text) = false := by
      rw [← Bool.not_eq_true]
      intro ht
      cases hturned ht
      exact absurd hblank (by decide)
    rw [hnot] at hp
    have hnext : (p.advance [c]).Stands (before ++ [c]) (done.countP (·.turnsLine text)) false :=
      hp.advance (by simp) fun ht => by cases ht
    rw [← hnot] at hnext
    refine ih (before ++ [c]) done (by rw [htext, List.append_assoc]; rfl) hnext fun ht => ?_
    rw [hnot] at ht
    cases ht
  | @token p q read rest t words hne hscan hstart hstop _ ih =>
    intro before done htext hp hturned
    obtain ⟨hafter, hhead⟩ := after_stands_concat htext hp hne hturned hstop
    obtain ⟨hwords, hq⟩ := ih (before ++ read) (done ++ [t]) (by rw [htext, List.append_assoc]) hafter hhead
    refine ⟨fun us u vs hsplit => ?_, ?_⟩
    · cases us with
      | nil =>
        cases hsplit
        rw [List.append_nil, hstart]
        exact standsAfter_of_append htext hp
      | cons x us =>
        cases hsplit
        have hu := hwords us u vs rfl
        rwa [List.append_assoc] at hu
    · rwa [List.append_assoc] at hq

/-- Every token of a source, with the tokens before it. -/
theorem tokens_stand {source : Source} {tokens : List Token} (h : Scan.tokens source = .ok tokens) (us : List Token)
    (t : Token) (vs : List Token) (hsplit : tokens = us ++ t :: vs) :
    StandsAfter source.text.toList us t.span.start := by
  obtain ⟨words, q, rfl, htiled⟩ := tokens_tiled h
  have horigin : (Position.origin source).Stands [] 0 false := ⟨rfl, rfl, rfl⟩
  obtain ⟨hwords, hq⟩ := htiled.stands [] [] rfl horigin fun ht => by cases ht
  rcases List.eq_nil_or_concat vs with rfl | ⟨ws, last, rfl⟩
  · obtain ⟨rfl, hlast⟩ := List.append_inj' hsplit rfl
    cases hlast
    exact hq
  · rw [List.concat_eq_append, ← List.cons_append, ← List.append_assoc] at hsplit
    obtain ⟨rfl, -⟩ := List.append_inj' hsplit rfl
    exact hwords us t ws rfl

/-- A position is right after tokens of which none turns the line. -/
theorem StandsAfter.isTrue {text : List Char} {done : List Token} {p : Position} (h : StandsAfter text done p)
    (hnone : ∀ u ∈ done, u.turnsLine text = false) : p.isTrue text = true := by
  have hcount : done.countP (·.turnsLine text) = 0 := by
    rw [List.countP_eq_zero]
    intro u hu
    simp [hnone u hu]
  have hlast : done.getLast?.any (·.turnsLine text) = false := by
    cases hu : done.getLast? with
    | none => rfl
    | some u => exact hnone u (List.mem_of_getLast? hu)
  have hline := h.line
  have hcolumn := h.column
  rw [hcount] at hline
  rw [hlast] at hcolumn
  simp only [Position.isTrue, Bool.and_eq_true, decide_eq_true_eq]
  exact ⟨by simpa using hline, by simpa using hcolumn⟩

/-- After a token that turns the line there is one with the wrong line. -/
theorem exists_not_isTrue_of_turnsLine {source : Source} {tokens : List Token} (h : Scan.tokens source = .ok tokens) {u : Token}
    (hu : u ∈ tokens) (hturns : u.turnsLine source.text.toList = true) :
    ∃ t ∈ tokens, t.span.start.isTrue source.text.toList = false := by
  obtain ⟨us, vs, hsplit⟩ := List.append_of_mem hu
  cases vs with
  | nil =>
    -- The last token is the mark of the end, which turns nothing.
    obtain ⟨words, q, rfl, -⟩ := tokens_tiled h
    obtain ⟨-, hlast⟩ := List.append_inj' hsplit rfl
    cases hlast
    cases hturns
  | cons t vs =>
    have hstands := tokens_stand h (us ++ [u]) t vs (by rw [hsplit, List.append_assoc]; rfl)
    refine ⟨t, by rw [hsplit]; simp, ?_⟩
    rw [← Bool.not_eq_true, Position.isTrue, Bool.and_eq_true, decide_eq_true_eq, decide_eq_true_eq]
    rintro ⟨htrue, -⟩
    have hline := hstands.line
    rw [htrue, List.countP_append, List.countP_singleton, if_pos hturns] at hline
    omega

/-- **How far the lines and columns of tokens can be trusted.**  The line of a token is that of its index, plus one for each
token before it that turns the line.  Its column is that of its index, unless the token directly before it turns the line; then it
is `-1`.  So all lines and columns are right exactly if no token turns the line. -/
theorem token_lines {source : Source} {tokens : List Token} (h : Scan.tokens source = .ok tokens) :
    (∀ us t vs, tokens = us ++ t :: vs →
      t.span.start.line = (lineAfter (source.text.toList.take t.span.start.index.toNat) +
        us.countP (·.turnsLine source.text.toList) : Int) ∧
      t.span.start.column = if us.getLast?.any (·.turnsLine source.text.toList) then -1
        else (columnAfter (source.text.toList.take t.span.start.index.toNat) : Int)) ∧
    ((∀ t ∈ tokens, t.span.start.isTrue source.text.toList = true) ↔
      ∀ t ∈ tokens, t.turnsLine source.text.toList = false) := by
  refine ⟨fun us t vs hsplit => ?_, fun htrue u hu => ?_, fun hnone t ht => ?_⟩
  · have hstands := tokens_stand h us t vs hsplit
    exact ⟨hstands.line, hstands.column⟩
  · rw [← Bool.not_eq_true]
    intro hturns
    obtain ⟨t, ht, hfalse⟩ := exists_not_isTrue_of_turnsLine h hu hturns
    rw [htrue t ht] at hfalse
    cases hfalse
  · obtain ⟨us, vs, hsplit⟩ := List.append_of_mem ht
    refine (tokens_stand h us t vs hsplit).isTrue fun u hu => hnone u ?_
    rw [hsplit]
    exact List.mem_append_left _ hu

/-- Three symbols, of which two stand at the end of their line, and a string over two lines. -/
def turnedSource : Source := ⟨"turned", "1 -\n2 * 3 <\n'\n' "⟩

theorem token_lines_turned : ∃ us t, Scan.tokens turnedSource = .ok (us ++ [t]) ∧
    us.countP (·.turnsLine turnedSource.text.toList) = 2 ∧ t.span.start.index = 16 ∧
    lineAfter (turnedSource.text.toList.take 16) = 3 ∧ t.span.start.line = 5 := by
  have hseen : (Scan.tokens turnedSource).toOption.map (fun tokens =>
      (tokens.dropLast.countP (·.turnsLine turnedSource.text.toList), tokens.getLast?.map (·.span.start.index))) =
        some (2, some 16) := by decide +kernel
  cases h : Scan.tokens turnedSource with
  | error e =>
    rw [h] at hseen
    cases hseen
  | ok tokens =>
    rw [h] at hseen
    obtain ⟨hcount, hindex⟩ := Prod.mk.inj (Option.some.inj hseen)
    obtain ⟨us, q, rfl, -⟩ := tokens_tiled h
    rw [List.dropLast_concat] at hcount
    rw [List.getLast?_concat] at hindex
    have hindex : q.index = 16 := Option.some.inj hindex
    have hline := ((token_lines h).1 us _ [] rfl).1
    have htrue : lineAfter (turnedSource.text.toList.take 16) = 3 := by decide +kernel
    refine ⟨us, _, rfl, hcount, hindex, htrue, ?_⟩
    rw [hline, hcount]
    show (lineAfter (turnedSource.text.toList.take q.index.toNat) : Int) + 2 = 5
    rw [hindex]
    exact congrArg (fun n : Nat => (n : Int) + 2) htrue

/-- **After a minus at the end of a line the next line has the wrong number**: the `2` is on line `1`, and is shown on `2`. -/
theorem minus_before_newline_misplaced : ∃ tokens t, Scan.tokens ⟨"<stdin>", "1 -\n2"⟩ = .ok tokens ∧ t ∈ tokens ∧
    t.span.start.index = 4 ∧ t.span.start.line = 2 ∧ lineAfter ("1 -\n2".toList.take 4) = 1 := by
  have hseen : (Scan.tokens ⟨"<stdin>", "1 -\n2"⟩).toOption.bind (fun tokens =>
      tokens[3]?.map fun t => (t.span.start.index, t.span.start.line)) = some (4, 2) := by decide +kernel
  cases h : Scan.tokens ⟨"<stdin>", "1 -\n2"⟩ with
  | error e =>
    rw [h] at hseen
    cases hseen
  | ok tokens =>
    rw [h] at hseen
    obtain ⟨t, ht, hplace⟩ := Option.map_eq_some_iff.1 hseen
    obtain ⟨hindex, hline⟩ := Prod.mk.inj hplace
    exact ⟨tokens, t, rfl, List.mem_of_getElem? ht, hindex, hline, by decide +kernel⟩

end Scan

end Scriptlet
