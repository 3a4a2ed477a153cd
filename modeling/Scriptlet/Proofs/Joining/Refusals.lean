import Scriptlet.Proofs.Joining.Programs
import Scriptlet.Proofs.Scan.Partition
/-!
# Where a text is refused after another

A program is refused for one of two reasons.  Its first statement cannot be read, and the refusal is that of the statement; or
statements are read and the text goes on after them, and then an operator is missed there.  No statement is refused for want of
an operator (`readAt_misses`), so the two can be told apart.

After another program it is different: there no statement is the first one, so one that cannot be read is handed back, and the
text goes on where it began.  A missing operator is missed again at the same token; any other refusal is replaced by a missing
operator at the first token of the text that is not a newline (`Parse.program_join_refused`).
-/
namespace Scriptlet.Grammar

open Production Reading

/-! ## What is missed -/

namespace Reading

variable {α β σ : Type}

/-- If the reading is refused, what it misses is one of these. -/
def Misses (P : Expected → Prop) (r : Reading α) : Prop :=
  ∀ c e span, (r c).result = .error (.unexpected e span) → P e

namespace Misses

variable {P : Expected → Prop}

theorem pure (a : α) : Misses P (Pure.pure a : Reading α) := fun _ _ _ h => by cases h

theorem current : Misses P Reading.current := fun _ _ _ h => by cases h

theorem lexeme : Misses P Reading.lexeme := fun _ _ _ h => by cases h

theorem take : Misses P Reading.take := fun _ _ _ h => by cases h

theorem tooDeep : Misses P (Reading.tooDeep : Reading α) := fun _ _ _ h => by cases h

theorem fail {e : Expected} (h : P e) : Misses P (Reading.fail e : Reading α) := by
  intro c e' span he
  cases he
  exact h

theorem bind {r : Reading α} {f : α → Reading β} (hr : Misses P r) (hf : ∀ a, Misses P (f a)) : Misses P (r >>= f) := by
  intro c e span h
  have hbind : (r >>= f) c = Reading.bind r f c := rfl
  rw [hbind, Reading.bind] at h
  cases hx : (r c).result with
  | error x =>
    rw [hx] at h
    cases h
    exact hr c e span hx
  | ok a =>
    rw [hx] at h
    exact hf a _ e span h

theorem ite {p : Prop} [Decidable p] {r s : Reading α} (hr : Misses P r) (hs : Misses P s) :
    Misses P (if p then r else s) := by
  split <;> assumption

theorem relabel {e : Expected} (he : P e) {r : Reading α} (hr : Misses P r) : Misses P (r.relabel e) := by
  intro c e' span h
  simp only [Reading.relabel] at h
  split at h
  · split at h
    · cases h
      exact he
    · exact hr c e' span h
  · exact hr c e' span h

/-- What is only tried is not refused. -/
theorem attempt (r : Reading α) : Misses P r.attempt := by
  intro c e span h
  simp only [Reading.attempt] at h
  split at h <;> cases h

theorem repeating {step : σ → Reading (Option σ)} (h : ∀ s, Misses P (step s)) (s : σ) : Misses P (Reading.repeating step s) := by
  suffices hrounds : ∀ fuel s, Misses P (rounds step fuel s) from fun c => hrounds c.remaining s c
  intro fuel
  induction fuel with
  | zero => exact fun s => .pure s
  | succ fuel ih =>
    refine fun s => .bind (h s) fun t => ?_
    cases t with
    | none => exact .pure s
    | some t => exact ih t

theorem newlines : Misses P Reading.newlines :=
  .repeating (fun _ => .bind .lexeme fun _ => .ite (.bind .take fun _ => .pure _) (.pure _)) 0

theorem expectKeyword {k : Keyword} (h : P (.keyword k)) : Misses P (Reading.expectKeyword k) :=
  .bind .lexeme fun _ => .ite .take (.fail h)

theorem expectSymbol (s : Symbol) {e : Expected} (h : P e) : Misses P (Reading.expectSymbol s e) :=
  .bind .lexeme fun _ => .ite .take (.fail h)

theorem expectName {e : Expected} (h : P e) : Misses P (Reading.expectName e) := by
  refine .bind .current fun token => ?_
  split
  · exact .bind .take fun _ => .pure _
  · exact .fail h

theorem commaSeparated {item : Reading α} (h : Misses P item) : Misses P (Reading.commaSeparated item) :=
  .bind h fun _ => .bind (.repeating (fun _ => .bind .lexeme fun _ =>
    .ite (.bind .take fun _ => .bind h fun _ => .pure _) (.pure _)) _) fun _ => .pure _

theorem chain {operand further : Reading Node} (ho : Misses P operand) (hf : Misses P further) (joins : Lexeme → Bool) :
    Misses P (Reading.chain operand further joins) :=
  .bind ho fun first => .repeating (fun _ => .bind .lexeme fun _ =>
    .ite (.bind .take fun _ => .bind hf fun _ => .pure _) (.pure _)) first

end Misses

end Reading

/-- A row that goes on is not refused: what cannot be read is handed back. -/
theorem further_misses (d : Nat) (s : Progress) : Misses (fun _ => False) (further d s) := by
  refine .repeating (fun s => .bind .newlines fun n => .ite (.pure _) (.bind (.attempt _) fun t => ?_)) s
  cases t with
  | read node => exact .pure _
  | handedBack k => exact .pure _

namespace Production

section Forms

variable {read : (p : Production) → Reading p.Result} (h : ∀ p, Misses (· ≠ .operator) (read p))

include h

theorem statementsForm_misses : Misses (· ≠ .operator) (statementsForm read) := by
  refine .bind .current fun _ => .bind .newlines fun _ => .bind (h .expression) fun first => ?_
  refine .bind (.repeating (fun s => .bind .newlines fun n => .ite (.pure _) (.bind (.attempt _) fun t => ?_)) _) fun row => ?_
  · cases t with
    | read node => exact .pure _
    | handedBack k => exact .pure _
  · exact .bind .current fun _ => .pure _

theorem closedBlock_misses : Misses (· ≠ .operator) (closedBlock read) :=
  .bind .take fun _ => .bind (h .statements) fun _ => .bind (.expectKeyword (by simp)) fun _ => .pure _

theorem bodyForm_misses : Misses (· ≠ .operator) (bodyForm read) :=
  .bind .lexeme fun _ => .ite (closedBlock_misses h) (.bind (h .expression) fun _ => .pure _)

theorem atomForm_misses : Misses (· ≠ .operator) (atomForm read) := by
  refine .bind .current fun token => ?_
  cases token.lexeme with
  | numeral n => exact .bind .take fun _ => .pure _
  | string s => exact .bind .take fun _ => .pure _
  | name s => exact .bind .take fun _ => .pure _
  | newline | eof => exact .fail (by simp)
  | symbol s =>
    cases s with
    | openParen =>
      exact .bind .take fun _ => .bind (h .expression) fun _ => .bind (.expectSymbol _ (by simp)) fun _ => .pure _
    | openSquare => exact h .list
    | _ => exact .fail (by simp)
  | keyword k =>
    cases k with
    | if_ => exact h .choice
    | for_ => exact h .count
    | while_ => exact h .loop
    | fn => exact h .function
    | _ => exact .fail (by simp)

theorem callForm_misses : Misses (· ≠ .operator) (callForm read) := by
  refine .bind (h .atom) fun _ => .bind .lexeme fun _ => .ite (.bind .take fun _ => .bind ?_ fun _ => .pure _) (.pure _)
  refine .bind .lexeme fun _ => .ite (.bind .take fun _ => .pure _) ?_
  exact .bind (.commaSeparated (h .expression)) fun _ => .bind (.expectSymbol _ (by simp)) fun _ => .pure _

theorem listForm_misses : Misses (· ≠ .operator) (listForm read) := by
  refine .bind .current fun _ => .bind (.expectSymbol _ (by simp)) fun _ => .bind .lexeme fun _ => .ite ?_ ?_
  · exact .bind .take fun _ => .bind (.pure _) fun _ => .bind .current fun _ => .pure _
  · refine .bind (.commaSeparated (h .expression)) fun _ => .bind (.expectSymbol _ (by simp)) fun _ => ?_
    exact .bind (.pure _) fun _ => .bind .current fun _ => .pure _

theorem choiceFrom_misses (k : Keyword) : Misses (· ≠ .operator) (choiceFrom read k) := by
  refine .bind (.expectKeyword (by simp)) fun _ => .bind (h .expression) fun _ => .bind (.expectKeyword (by simp)) fun _ => ?_
  refine .bind .lexeme fun _ => .ite ?_ ?_
  · refine .bind .take fun _ => .bind (h .statements) fun _ => .bind .lexeme fun _ => .ite ?_ ?_
    · exact .bind .take fun _ => .pure _
    · exact .bind (h .choiceTail) fun _ => .pure _
  · exact .bind (h .expression) fun _ => .bind (h .choiceTail) fun _ => .pure _

theorem countForm_misses : Misses (· ≠ .operator) (countForm read) := by
  refine .bind (.expectKeyword (by simp)) fun _ => .bind (.expectName (by simp)) fun _ => ?_
  refine .bind (.expectSymbol _ (by simp)) fun _ => .bind (h .expression) fun _ => .bind (.expectKeyword (by simp)) fun _ => ?_
  refine .bind (h .expression) fun _ => .bind .lexeme fun _ => .ite ?_ ?_
  · refine .bind .take fun _ => .bind (h .expression) fun _ => .bind (.pure _) fun _ => ?_
    exact .bind (.expectKeyword (by simp)) fun _ => .bind (bodyForm_misses h) fun _ => .pure _
  · exact .bind (.pure _) fun _ => .bind (.expectKeyword (by simp)) fun _ => .bind (bodyForm_misses h) fun _ => .pure _

omit h in
theorem parametersForm_misses : Misses (· ≠ .operator) parametersForm := by
  refine .bind .lexeme fun l => ?_
  cases l with
  | name _ => exact .bind (.commaSeparated (.expectName (by simp))) fun _ => .bind (.expectSymbol _ (by simp)) fun _ => .pure _
  | _ => exact .bind (.expectSymbol _ (by simp)) fun _ => .pure _

theorem functionForm_misses : Misses (· ≠ .operator) (functionForm read) := by
  have hrest : ∀ name, Misses (· ≠ .operator) (functionRest read name) := by
    intro name
    refine .bind parametersForm_misses fun _ => .bind .lexeme fun _ => .ite ?_ ?_
    · exact .bind .take fun _ => .bind (h .expression) fun _ => .pure _
    · exact .bind .lexeme fun _ => .ite (.bind (closedBlock_misses h) fun _ => .pure _) (.fail (by simp))
  refine .bind (.expectKeyword (by simp)) fun _ => .bind .lexeme fun l => ?_
  cases l with
  | name _ =>
    refine .bind (.expectName (by simp)) fun _ => .bind (.expectSymbol _ (by simp)) fun _ => ?_
    exact .bind (.pure _) hrest
  | _ => exact .bind (.expectSymbol _ (by simp)) fun _ => .bind (.pure _) hrest

theorem body_misses : ∀ p : Production, Misses (· ≠ .operator) (body read p)
  | .statements => statementsForm_misses h
  | .expression => by
    refine .bind .lexeme fun _ => .ite ?_ (.relabel (by simp) (.chain (h .comparison) (h .comparison) _))
    refine .bind .take fun _ => .bind (.expectName (by simp)) fun _ => .bind (.expectSymbol _ (by simp)) fun _ => ?_
    exact .bind (h .expression) fun _ => .pure _
  | .comparison =>
    .bind .current fun _ => .ite (.bind .take fun _ => .bind (h .comparison) fun _ => .pure _)
      (.relabel (by simp) (.chain (h .sum) (h .sum) _))
  | .sum => .chain (h .product) (h .product) _
  | .product => .chain (h .factor) (h .factor) _
  | .factor => .bind .current fun _ => .ite (.bind .take fun _ => .bind (h .factor) fun _ => .pure _) (h .power)
  | .power => .chain (h .call) (h .factor) _
  | .call => callForm_misses h
  | .atom => atomForm_misses h
  | .list => listForm_misses h
  | .choice => .bind (choiceFrom_misses h .if_) fun _ => .pure _
  | .elifChoice => choiceFrom_misses h .elif
  | .otherwise => .bind .lexeme fun _ => .ite (.bind .take fun _ => .bind (bodyForm_misses h) fun _ => .pure _) (.pure _)
  | .choiceTail =>
    .bind .lexeme fun _ => .ite (.bind (h .elifChoice) fun _ => .pure _) (.bind (h .otherwise) fun _ => .pure _)
  | .count => countForm_misses h
  | .loop => .bind (.expectKeyword (by simp)) fun _ => .bind (h .expression) fun _ => .bind .take fun _ =>
    .bind .lexeme fun _ => .ite (.bind (h .expression) fun _ => .pure _) (.fail (by simp))
  | .function => functionForm_misses h

end Forms

end Production

/-- **No production is refused for want of an operator.** -/
theorem readAt_misses : ∀ (d : Nat) (p : Production), Misses (· ≠ .operator) (readAt d p)
  | 0, _ => .tooDeep
  | d + 1, p => body_misses (readAt_misses d) p

/-! ## Programs -/

section Programs

variable {A B Z : List Lexeme} {d : Nat}

theorem statementRow_steady (d : Nat) : Follows False id id (statementRow d) (statementRow d) :=
  .bind .newlines fun _ => .bind (readAt_follows_self d .expression) fun _ => further_steady d _

/-- A program misses an operator where its statements stop, unless they stop at the end. -/
theorem program_of_row {s : Progress} {j : Nat}
    (h : Reads (statementRow d) (.on (row A Z) 0) s (.on (row A Z) j)) : program (d + 1) (.on (row A Z) 0) =
      if (Cursor.shown (row A Z) j).lexeme.isEof then ⟨.ok s.block.node, j, .on (row A Z) j⟩
      else ⟨.error (.unexpected .operator .forgotten), j, .on (row A Z) j⟩ := by
  have hrow : statementRow d (.on (row A Z) 0) = ⟨.ok s, j, .on (row A Z) j⟩ := by
    have hreply := reply_eq (k := j) (statementRow_steady d) row_ne_nil (i := 0) (by rwa [Nat.zero_add])
    rwa [Nat.zero_add] at hreply
  have hblock : readAt (d + 1) .statements (.on (row A Z) 0) = ⟨.ok s.block, j, .on (row A Z) j⟩ := by
    show statementsForm (readAt d) _ = _
    rw [statements_eq, bind_apply_ok hrow]
    rfl
  have hclosed : closed (readAt (d + 1) .statements) (.on (row A Z) 0) =
      if (Cursor.shown (row A Z) j).lexeme.isEof then ⟨.ok s.block, j, .on (row A Z) j⟩
      else ⟨.error (.unexpected .operator .forgotten), j, .on (row A Z) j⟩ := by
    rw [closed, bind_apply_ok hblock, lexeme_bind_apply, Cursor.on_current]
    split
    · rfl
    · rw [Reading.fail, Cursor.on_current, span_row]
      rfl
  rw [program]
  split
  · next heof => rw [bind_apply_ok (hclosed.trans (if_pos heof))]; rfl
  · next heof => rw [bind_apply_error (hclosed.trans (if_neg heof))]

/-- The newlines with which lexemes begin. -/
theorem exists_newlines (B : List Lexeme) : ∃ q, q ≤ B.length ∧
    (∀ k, k < q → (Cursor.shown (row B []) k).lexeme = .newline) ∧ (Cursor.shown (row B []) q).lexeme ≠ .newline := by
  rcases newlines_or_blank (A := B) (Nat.zero_le _) with ⟨q, hq, hstop, hbefore⟩ | hblank
  · rw [Nat.zero_add] at hq
    simp only [Nat.zero_add] at hstop hbefore
    refine ⟨q, Nat.le_of_lt hq, fun k hk => ?_, by rwa [lexeme_row_lt hq]⟩
    rw [lexeme_row_lt (Nat.lt_trans hk hq), hbefore k hk]
  · refine ⟨B.length, Nat.le_refl _, fun k hk => ?_, ?_⟩
    · rw [lexeme_row_lt hk, hblank.2 k hk (Nat.zero_le k)]
    · rw [lexeme_row_nil]
      simp

/-- **Why a program is refused**: statements are read and the text goes on, or the first statement is refused. -/
theorem program_refused (hB : ∀ l ∈ B, l ≠ .eof) {q : Nat} (hq : Covers (row B []) 0 (List.replicate q .newline) q)
    (hstop : (Cursor.shown (row B []) q).lexeme ≠ .newline) {e : Expected} {span : Span}
    (h : (program (d + 1) (.on (row B []) 0)).result = .error (.unexpected e span)) :
    (e = .operator ∧ ∃ s j, Reads (statementRow d) (.on (row B []) 0) s (.on (row B []) j) ∧
      (Cursor.shown (row B []) j).lexeme ≠ .eof) ∨
    (e ≠ .operator ∧ ∃ span', (readAt d .expression (.on (row B []) q)).result = .error (.unexpected e span')) := by
  have hlines := reads_newlines (ended_row hB rest_nil) hq hstop
  cases hrow : (statementRow d (.on (row B []) 0)).result with
  | ok s =>
    have hreads : Reads (statementRow d) (.on (row B []) 0) s _ :=
      ⟨hrow, (statementRow_steady d).cursor_eq row_ne_nil 0⟩
    rw [program_of_row hreads] at h
    split at h
    · cases h
    · next hne =>
      cases h
      exact .inl ⟨rfl, s, _, hreads, mt Lexeme.isEof_iff.2 hne⟩
  | error x =>
    -- The newlines are read and the rest of the row is not refused, so it is the first statement.
    obtain ⟨k, c, hx⟩ : ∃ k c, statementRow d (.on (row B []) 0) = ⟨.error x, k, c⟩ := ⟨_, _, Reply.ext hrow rfl rfl⟩
    have hprogram : program (d + 1) (.on (row B []) 0) = ⟨.error x, k, c⟩ := by
      refine bind_apply_error (bind_apply_error ?_)
      show statementsForm (readAt d) _ = _
      rw [statements_eq, bind_apply_error hx]
    rw [hprogram] at h
    cases h
    have hskip : newlines (.on (row B []) 0) = ⟨.ok q, q, .on (row B []) q⟩ := by
      have hreply := reply_eq (k := q) .newlines row_ne_nil (i := 0) (by rwa [Nat.zero_add])
      rwa [Nat.zero_add] at hreply
    rw [statementRow, bind_apply_ok hskip] at hrow
    cases hfirst : (readAt d .expression (.on (row B []) q)).result with
    | ok node =>
      have hreply : readAt d .expression (.on (row B []) q) = ⟨.ok node, _, _⟩ := Reply.ext hfirst rfl rfl
      rw [bind_apply_ok hreply] at hrow
      exact (further_misses d _ _ _ _ hrow).elim
    | error x =>
      have hreply : readAt d .expression (.on (row B []) q) = ⟨.error x, _, _⟩ := Reply.ext hfirst rfl rfl
      rw [bind_apply_error hreply] at hrow
      cases hrow
      exact .inr ⟨readAt_misses d .expression _ _ _ hfirst, span, rfl⟩

section After

theorem row_append : row (A ++ Z) [] = row A Z := by simp [row]

theorem row_after : row A (.newline :: B) = bareTokens (A ++ [.newline]) ++ row B [] := by simp [row, bareTokens]

/-- What is shown in the second text is shown there after the first. -/
theorem shown_after (i : Nat) : Cursor.shown (row A (.newline :: B)) (A.length + 1 + i) = Cursor.shown (row B []) i := by
  have hlen : (bareTokens (A ++ [.newline])).length = A.length + 1 := by simp [bareTokens]
  rw [row_after, ← hlen, Cursor.shown_append _ row_ne_nil]

theorem result_after {α : Type} {r : Reading α} (hr : Follows False id id r r) (i : Nat) :
    (r (.on (row A (.newline :: B)) (A.length + 1 + i))).result = (r (.on (row B []) i)).result := by
  have hlen : (bareTokens (A ++ [.newline])).length = A.length + 1 := by simp [bareTokens]
  rw [row_after, ← hlen]
  exact (hr.shift _ row_ne_nil i).1

end After

/-- A first statement that is refused is handed back after another text, whose statements end before it. -/
theorem Trails.hands_back (hA : ∀ l ∈ A, l ≠ .eof) (hB : ∀ l ∈ B, l ≠ .eof) {r : Reading Progress} {i : Nat}
    (h : Trails A d r i) {s : Progress} {c : Cursor} (hd : Production.expression.rank < d)
    (halone : Reads r (.on (row A []) i) s c) {q : Nat} (hq : Covers (row B []) 0 (List.replicate q .newline) q)
    (hstop : (Cursor.shown (row B []) q).lexeme ≠ .newline) {e : Expected} {span : Span}
    (hrefused : (readAt d .expression (.on (row B []) q)).result = .error (.unexpected e span)) :
    ∃ t, Reads r (.on (row A (.newline :: B)) i) t (.on (row A (.newline :: B)) (A.length + 1 + q)) ∧
      t.items = s.items := by
  obtain ⟨items, m, hm, h⟩ := h
  have hZ : Rest (.newline :: B) := ⟨by simpa using hB, by simp⟩
  have ht := ended_row hA hZ
  obtain ⟨goesOn, hend⟩ := hm.further_alone hA hd items
  obtain ⟨rfl, _⟩ := halone.unique (h [] rest_nil _ _ hend)
  -- All newlines between the two texts are taken at once.
  have hbetween := (hm.covers hA hZ).trans (.one ht lexeme_row_cons (by simp))
  have hskip := reads_after (A := A) .newlines (reads_newlines (ended_row hB rest_nil) hq hstop)
  rw [Nat.add_zero] at hskip
  obtain ⟨q', _, hq', hcovers, hcount, hstop'⟩ := newlines_sound ht hbetween.2.1 hskip
  cases on_row_inj hq'
  subst hcount
  have hcovers := hbetween.trans hcovers
  rw [← List.replicate_succ', List.replicate_append_replicate] at hcovers
  have hlines := reads_newlines ht hcovers hstop'
  have hsteady := readAt_follows_self d .expression
  have hback := (reads_attempt hsteady ht.ne_nil).2
    (.inr ⟨e, span, rfl, (result_after (A := A) hsteady q).trans hrefused, rfl⟩)
  generalize (readAt d .expression _).taken = k at hback
  refine ⟨(Progress.mk items 0 true).tried (.handedBack k), h _ hZ _ _ ?_, rfl⟩
  rw [Reads, further_eq ht hcovers.lt_length rfl (by omega) hlines]
  exact reads_bind.2 ⟨_, _, hlines, reads_bind.2 ⟨_, _, hback, further_stops hcovers.2.1 hstop'⟩⟩

/-- **A program that is refused, after another program.** -/
theorem program_refused_after {depth : Nat} (hA : ∀ l ∈ A, l ≠ .eof) (hB : ∀ l ∈ B, l ≠ .eof) {tree : Node}
    (h₁ : (program depth (.on (row A []) 0)).result = .ok tree)
    (hclosed : ∀ tree, (program depth (.on (row A closing) 0)).result ≠ .ok tree) {q : Nat} (hle : q ≤ B.length)
    (hbefore : ∀ k, k < q → (Cursor.shown (row B []) k).lexeme = .newline)
    (hstop : (Cursor.shown (row B []) q).lexeme ≠ .newline) {e : Expected} {span : Span} {k : Nat} {c : Cursor}
    (h₂ : program depth (.on (row B []) 0) = ⟨.error (.unexpected e span), k, c⟩) :
    (e = .operator → k < B.length ∧ program depth (.on (row A (.newline :: B)) 0) =
      ⟨.error (.unexpected .operator .forgotten), A.length + 1 + k, .on (row A (.newline :: B)) (A.length + 1 + k)⟩) ∧
    (e ≠ .operator → program depth (.on (row A (.newline :: B)) 0) =
      if (Cursor.shown (row B []) q).lexeme.isEof then
        ⟨.ok tree, A.length + 1 + q, .on (row A (.newline :: B)) (A.length + 1 + q)⟩
      else ⟨.error (.unexpected .operator .forgotten), A.length + 1 + q, .on (row A (.newline :: B)) (A.length + 1 + q)⟩) := by
  obtain ⟨d, s, rfl, rfl, hs⟩ := (program_row hA rest_nil).1 h₁
  have htrails := statementRow_trails hA hs fun u hu => hclosed _ ((program_row hA rest_closing).2 ⟨d, u, rfl, rfl, hu⟩)
  have hrank : Production.expression.rank < d := by
    obtain ⟨n, c₁, _, hs⟩ := reads_bind.1 hs
    obtain ⟨first, c₂, hfirst, _⟩ := reads_bind.1 hs
    exact rank_lt_of_reads d .expression rfl hfirst
  have hq : Covers (row B []) 0 (List.replicate q .newline) q := by
    have hcovers := covers_newlines (i := 0) (n := q) (ended_row hB rest_nil) (by rw [length_row]; omega) fun k hk => by
      rw [Nat.zero_add]
      exact hbefore k hk
    rwa [Nat.zero_add] at hcovers
  rcases program_refused hB hq hstop (congrArg Reply.result h₂) with ⟨rfl, t, j, ht, hj⟩ | ⟨he, span', hrefused⟩
  · refine ⟨fun _ => ?_, fun hne => absurd rfl hne⟩
    have hprogram := program_of_row ht
    rw [if_neg (mt Lexeme.isEof_iff.1 hj)] at hprogram
    obtain rfl : k = j := congrArg Reply.taken (h₂.symm.trans hprogram)
    refine ⟨lt_of_lexeme_row rfl hj, ?_⟩
    rw [program_of_row (htrails.goes_on hA hB hrank hs ht), shown_after, if_neg (mt Lexeme.isEof_iff.1 hj)]
  · refine ⟨fun heq => absurd heq he, fun _ => ?_⟩
    obtain ⟨t, ht, hitems⟩ := htrails.hands_back hA hB hrank hs hq hstop hrefused
    have hnode : t.block.node = s.block.node := by simp [Block.node, Progress.block, hitems]
    rw [program_of_row ht, shown_after, hnode]

end Programs

end Scriptlet.Grammar

namespace Scriptlet

open Grammar Scan

/-- The token of a number shows the lexeme of that number. -/
theorem lexeme_eq_shown {tokens : List Token} {ls : List Lexeme} (hls : tokens.map Token.lexeme = ls ++ [.eof]) {i : Nat}
    {t : Token} (ht : tokens[i]? = some t) : t.lexeme = (Cursor.shown (row ls []) i).lexeme := by
  have hne : tokens ≠ [] := by
    rintro rfl
    cases ht
  have hrow : row ls [] = tokens.map Token.bare := (map_bare hls).symm
  rw [hrow, Cursor.shown_map _ hne, Cursor.shown, ht]
  exact (t.relocate_lexeme _).symm

/-- **Where a source is refused** can be told without its positions: at the token where the reading of its lexemes stops. -/
theorem Parse.program_eq_problem {source : Source} {tokens : List Token} (htokens : Scan.tokens source = .ok tokens)
    {ls : List Lexeme} (hls : tokens.map Token.lexeme = ls ++ [.eof]) {limits : Limits} {e : Expected} {span : Span} :
    Parse.program limits source = .error (.problem ⟨.expected e, span⟩) ↔ ∃ k, span = (Cursor.shown tokens k).span ∧
      Grammar.program limits.reading (.on (row ls []) 0) = ⟨.error (.unexpected e .forgotten), k, .on (row ls []) k⟩ := by
  have hne : tokens ≠ [] := (Ended.of_tokens htokens).ne_nil
  have hsteady := program_follows (fun _ => .forgotten) limits.reading
  have hreply := hsteady.reply [] [] hne 0
  have hrow : tokens.map (Token.relocate fun _ => .forgotten) = row ls [] := map_bare hls
  simp only [List.nil_append, List.length_nil, Nat.zero_add, hrow] at hreply
  have hprogram : Parse.program limits source = Parse.settle (Grammar.program limits.reading (.on tokens 0)) := by
    rw [Parse.program, Parse.scan, htokens, ← Cursor.start_eq_on]
    rfl
  have hresult := hreply.result
  rw [hprogram, Parse.settle]
  cases hx : (Grammar.program limits.reading (.on tokens 0)).result with
  | ok tree =>
    refine iff_of_false (by simp) ?_
    rintro ⟨k, -, h⟩
    rw [h, hx] at hresult
    cases hresult
  | error refusal =>
    cases refusal with
    | tooDeep =>
      refine iff_of_false (by simp) ?_
      rintro ⟨k, -, h⟩
      rw [h, hx] at hresult
      cases hresult
    | unexpected e' span' =>
      have hspan := hsteady.span_eq hne hx
      have hbare : Grammar.program limits.reading (.on (row ls []) 0) =
          ⟨.error (.unexpected e' .forgotten), _, .on (row ls []) _⟩ :=
        Reply.ext (hresult.trans (by rw [hx]; rfl)) hreply.taken (by simpa [hrow] using hreply.cursor')
      rw [Nat.zero_add] at hspan
      constructor
      · intro h
        cases h
        exact ⟨_, hspan, hbare⟩
      · rintro ⟨k, rfl, h⟩
        have hsame := h.symm.trans hbare
        cases congrArg Reply.result hsame
        have hk : k = (Grammar.program limits.reading (.on tokens 0)).taken := congrArg Reply.taken hsame
        rw [hk, ← hspan]

theorem ne_ok_of_toBool {ε α : Type} {x : Except ε α} (h : x.toBool = false) (a : α) : x ≠ .ok a := by
  rintro rfl
  cases h

/-- The source is refused at its token of number `k`, where something else was expected. -/
def Parse.RefusedAt (limits : Limits) (source : Source) (e : Expected) (k : Nat) : Prop :=
  ∃ tokens t, Scan.tokens source = .ok tokens ∧ tokens[k]? = some t ∧
    Parse.program limits source = .error (.problem ⟨.expected e, t.span⟩)

instance (limits : Limits) (source : Source) (e : Expected) (k : Nat) : Decidable (Parse.RefusedAt limits source e k) :=
  match htokens : Scan.tokens source, hprogram : Parse.program limits source with
  | .ok tokens, .error (.problem p) =>
    decidable_of_iff (tokens[k]?.map (fun t => (⟨.expected e, t.span⟩ : Problem)) = some p) (by
      simp [Parse.RefusedAt, htokens, hprogram, @eq_comm _ p])
  | .ok tokens, .error (.fault f) => isFalse (by simp [Parse.RefusedAt, hprogram])
  | .ok tokens, .ok tree => isFalse (by simp [Parse.RefusedAt, hprogram])
  | .error x, _ => isFalse (by simp [Parse.RefusedAt, htokens])

section Refused

variable {source : Source} {tokens : List Token} (htokens : Scan.tokens source = .ok tokens) {ls : List Lexeme}
  (hls : tokens.map Token.lexeme = ls ++ [.eof]) {limits : Limits} {e : Expected} {k : Nat}

theorem Parse.RefusedAt.scanned (h : Parse.RefusedAt limits source e k) : ∃ tokens, Scan.tokens source = .ok tokens := by
  obtain ⟨tokens, _, htokens, _⟩ := h
  exact ⟨tokens, htokens⟩

include htokens hls

/-- A source is refused where its lexemes are. -/
theorem Parse.RefusedAt.of_row (hk : k < tokens.length) (h : Grammar.program limits.reading (.on (row ls []) 0) =
    ⟨.error (.unexpected e .forgotten), k, .on (row ls []) k⟩) : Parse.RefusedAt limits source e k :=
  ⟨tokens, Cursor.shown tokens k, htokens, Cursor.getElem?_eq_shown hk, (Parse.program_eq_problem htokens hls).2 ⟨k, rfl, h⟩⟩

/-- The lexemes are refused where the source is, unless that is past the last one. -/
theorem Parse.RefusedAt.row (h : Parse.RefusedAt limits source e k) :
    ∃ m, (m < tokens.length → m = k) ∧ Grammar.program limits.reading (.on (row ls []) 0) =
      ⟨.error (.unexpected e .forgotten), m, .on (row ls []) m⟩ := by
  obtain ⟨tokens', t, htokens', ht, h⟩ := h
  cases htokens.symm.trans htokens'
  obtain ⟨m, hspan, hrow⟩ := (Parse.program_eq_problem htokens hls).1 h
  -- A token is known by its span, so the two numbers are the same.
  exact ⟨m, fun hm => tokens_stop_inj htokens (Cursor.getElem?_eq_shown hm) ht (congrArg Span.stop hspan).symm, hrow⟩

end Refused

/-- **A text that is refused, after a program.**  Let the first text be a program, but no longer one with `end` after it, and
let the second be refused at its token of number `k`.  If it misses an operator there, the joined text misses one at the same
token.  Anything else it is refused for, it is for its first statement, and then the joined text misses an operator at the first
token of the second text that is not a newline; if that is the end, the joined text is the first program. -/
theorem Parse.program_join_refused {limits : Limits} {text₁ text₂ file₁ file₂ : String} {tree₁ : Node}
    (h₁ : Parse.program limits ⟨file₁, text₁⟩ = .ok tree₁) {file₃ : String}
    (hclosed : ∀ tree, Parse.program limits ⟨file₃, text₁ ++ "\n" ++ "end"⟩ ≠ .ok tree) {e : Expected} {k : Nat}
    (h₂ : Parse.RefusedAt limits ⟨file₂, text₂⟩ e k) (file : String) :
    ∃ tokens₁ tokens₂ tokens, Scan.tokens ⟨file₁, text₁⟩ = .ok tokens₁ ∧ Scan.tokens ⟨file₂, text₂⟩ = .ok tokens₂ ∧
      Scan.tokens ⟨file, text₁ ++ "\n" ++ text₂⟩ = .ok tokens ∧
      (tokens.drop tokens₁.length).map Token.lexeme = tokens₂.map Token.lexeme ∧
      (e = .operator → Parse.RefusedAt limits ⟨file, text₁ ++ "\n" ++ text₂⟩ .operator (tokens₁.length + k)) ∧
      (e ≠ .operator → ∃ q word, tokens₂[q]? = some word ∧ word.lexeme ≠ .newline ∧
        (∀ j before, j < q → tokens₂[j]? = some before → before.lexeme = .newline) ∧
        (word.lexeme ≠ .eof → Parse.RefusedAt limits ⟨file, text₁ ++ "\n" ++ text₂⟩ .operator (tokens₁.length + q)) ∧
        (word.lexeme = .eof → ∃ tree, Parse.program limits ⟨file, text₁ ++ "\n" ++ text₂⟩ = .ok tree ∧
          tree.bare = tree₁.bare)) := by
  obtain ⟨tokens₁, htokens₁, -⟩ := Parse.program_eq_ok.1 h₁
  obtain ⟨tokens₂, htokens₂⟩ := h₂.scanned
  obtain ⟨A, hA, hscansA⟩ := tokensFrom_scans _ _ _ _ (Nat.le_of_eq String.length_toList) htokens₁
  obtain ⟨B, hB, hscansB⟩ := tokensFrom_scans _ _ _ _ (Nat.le_of_eq String.length_toList) htokens₂
  have hscans : Scans (Source.mk file (text₁ ++ "\n" ++ text₂)).text.toList _ := hscansA.join hscansB
  obtain ⟨tokens, htokens, hAB⟩ := scans_iff.1 hscans
  have hlength₁ : tokens₁.length = A.length + 1 := by simpa using congrArg List.length hA
  have hlength₂ : tokens₂.length = B.length + 1 := by simpa using congrArg List.length hB
  have hlength : tokens.length = A.length + 1 + (B.length + 1) := by
    have := congrArg List.length hAB
    simp only [List.length_map, List.length_append, List.length_cons, List.length_nil] at this
    omega
  refine ⟨tokens₁, tokens₂, tokens, htokens₁, htokens₂, htokens, ?_, ?_⟩
  · rw [List.map_drop, hAB, hlength₁, hB]
    simp
  have hrefused : ∀ i, i ≤ B.length → Grammar.program limits.reading (.on (row A (.newline :: B)) 0) =
      ⟨.error (.unexpected .operator .forgotten), A.length + 1 + i, .on (row A (.newline :: B)) (A.length + 1 + i)⟩ →
      Parse.RefusedAt limits ⟨file, text₁ ++ "\n" ++ text₂⟩ .operator (tokens₁.length + i) := by
    intro i hi h
    rw [hlength₁]
    exact .of_row htokens hAB (by omega) (by rw [row_append, h])
  obtain ⟨m, hm, hbare⟩ := h₂.row htokens₂ hB
  obtain ⟨q, hq, hbefore, hstop⟩ := exists_newlines B
  obtain ⟨hoperator, hother⟩ := Grammar.program_refused_after hscansA.ne_eof hscansB.ne_eof
    ((parse_row_iff (by rwa [List.append_nil]) file₁).1 ⟨tree₁, h₁, rfl⟩) (fun tree htree => by
      obtain ⟨n, hn, _⟩ := (parse_row_iff (hscansA.join (scans_keyword .end_)) file₃).2 htree
      exact hclosed n hn) hq hbefore hstop hbare
  constructor
  · intro he
    obtain ⟨hlt, hjoined⟩ := hoperator he
    obtain rfl := hm (by omega)
    exact hrefused m (Nat.le_of_lt hlt) hjoined
  · intro he
    have hjoined := hother he
    have hqt := Cursor.getElem?_eq_shown (show q < tokens₂.length by omega)
    have hword := lexeme_eq_shown hB hqt
    refine ⟨q, _, hqt, by rwa [hword], fun j before hj hbefore' => ?_, fun hne => ?_, fun heof => ?_⟩
    · rw [lexeme_eq_shown hB hbefore']
      exact hbefore j hj
    · rw [hword] at hne
      rw [if_neg (mt Lexeme.isEof_iff.1 hne)] at hjoined
      exact hrefused q hq hjoined
    · rw [hword] at heof
      rw [if_pos (Lexeme.isEof_iff.2 heof)] at hjoined
      exact (parse_row_iff (hscansA.join hscansB) file).2 (congrArg Reply.result hjoined)

/-- A parenthesis that nothing opens, on the second line of the second text. -/
theorem Parse.program_join_refused_stray : ∃ tree₁, Parse.program .standard ⟨"", "if 1 then 2"⟩ = .ok tree₁ ∧
    (∀ tree, Parse.program .standard ⟨"", "if 1 then 2" ++ "\n" ++ "end"⟩ ≠ .ok tree) ∧
    Parse.RefusedAt .standard ⟨"", "fn f(x) -> x\n) 3"⟩ .operator 8 ∧
    ∃ tokens₁, Scan.tokens ⟨"", "if 1 then 2"⟩ = .ok tokens₁ ∧
      Parse.RefusedAt .standard ⟨"", "if 1 then 2" ++ "\n" ++ "fn f(x) -> x\n) 3"⟩ .operator (tokens₁.length + 8) := by
  obtain ⟨tree₁, h₁⟩ := exists_ok_of_toBool
    (show (Parse.program .standard ⟨"", "if 1 then 2"⟩).toBool = true by decide +kernel)
  have hclosed : ∀ tree, Parse.program .standard ⟨"", "if 1 then 2" ++ "\n" ++ "end"⟩ ≠ .ok tree :=
    ne_ok_of_toBool (by decide +kernel)
  have h₂ : Parse.RefusedAt .standard ⟨"", "fn f(x) -> x\n) 3"⟩ .operator 8 := by decide +kernel
  obtain ⟨tokens₁, _, _, htokens₁, -, -, -, hoperator, -⟩ := Parse.program_join_refused h₁ hclosed h₂ ""
  exact ⟨tree₁, h₁, hclosed, h₂, tokens₁, htokens₁, hoperator rfl⟩

/-- **A refusal is replaced after another program**: alone, the text misses an operand at its end; after a program it misses an
operator at its beginning. -/
theorem refusal_replaced : (∃ tree, Parse.program .standard ⟨"", "1"⟩ = .ok tree) ∧
    (∀ tree, Parse.program .standard ⟨"", "1" ++ "\n" ++ "end"⟩ ≠ .ok tree) ∧
    (Scan.tokens ⟨"", "1"⟩).toOption.map List.length = some 2 ∧
    Parse.RefusedAt .standard ⟨"", "1 +"⟩ .operand 2 ∧
    Parse.RefusedAt .standard ⟨"", "1" ++ "\n" ++ "1 +"⟩ .operator 2 ∧
    ¬ Parse.RefusedAt .standard ⟨"", "1" ++ "\n" ++ "1 +"⟩ .operand (2 + 2) :=
  ⟨exists_ok_of_toBool (by decide +kernel), ne_ok_of_toBool (by decide +kernel), by decide +kernel, by decide +kernel,
    by decide +kernel, by decide +kernel⟩

end Scriptlet
