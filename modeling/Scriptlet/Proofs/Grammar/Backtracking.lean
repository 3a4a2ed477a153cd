import Scriptlet.Proofs.Grammar.Soundness
/-!
# Counts are exact

Every production counts the tokens it takes, and a statement that was only tried is undone by stepping back over its count.  That
the count is right, of a reading that failed as well, is a special case of `readAt_follows`.  Here it is put together with what
the row of statements does with it: where a statement could not be read, the row ends at the first token of that statement
(`readAt_counts`).

Nothing is asked of the tokens but that the last one marks the end; others may do so too.
-/
namespace Scriptlet.Grammar

open Production Reading

/-- An invariant of the rounds of a repetition holds at its end, whether its fuel suffices or not. -/
theorem Reading.rounds_invariant {σ : Type} {step : σ → Reading (Option σ)} {I : σ → Cursor → Prop}
    (hsome : ∀ s t c c', I s c → Reads (step s) c (some t) c' → I t c')
    (hnone : ∀ s c c', I s c → Reads (step s) c none c' → I s c') :
    ∀ (fuel : Nat) {s s' : σ} {c c' : Cursor}, I s c → Reads (rounds step fuel s) c s' c' → I s' c'
  | 0, _, _, _, _, hI, h => by
    obtain ⟨rfl, rfl⟩ := reads_pure.1 h
    exact hI
  | fuel + 1, _, _, _, _, hI, h => by
    obtain ⟨t, c₁, ht, h⟩ := reads_bind.1 h
    cases t with
    | none =>
      obtain ⟨rfl, rfl⟩ := reads_pure.1 h
      exact hnone _ _ _ hI ht
    | some t => exact rounds_invariant hsome hnone fuel (hsome _ _ _ _ hI ht) h

section Row

variable {tokens : List Token} {last : Token} (hlast : tokens.getLast? = some last) (heof : last.lexeme = .eof)

include hlast heof

theorem shown_of_length_le {i : Nat} (hi : tokens.length ≤ i) : (Cursor.shown tokens i).lexeme = .eof := by
  rw [Cursor.shown_eq_last (Nat.le_succ_of_le hi), List.getLastD_eq_getLast?, hlast]
  exact heof

/-- Newlines are counted up to the first token that is none. -/
theorem reads_newlines_count {i n : Nat} {c' : Cursor} (h : Reads newlines (.on tokens i) n c') :
    c' = .on tokens (i + n) ∧ (∀ k < n, (Cursor.shown tokens (i + k)).lexeme = .newline) ∧
      (Cursor.shown tokens (i + n)).lexeme ≠ .newline := by
  have hrounds : ∀ (fuel m i : Nat), tokens.length ≤ i + fuel → ∀ {n : Nat} {c' : Cursor},
      Reads (rounds (fun n => do
        if (← lexeme).isNewline then
          take
          return some (n + 1)
        else return none) fuel m) (.on tokens i) n c' →
      ∃ q, n = m + q ∧ c' = .on tokens (i + q) ∧ (∀ k < q, (Cursor.shown tokens (i + k)).lexeme = .newline) ∧
        (Cursor.shown tokens (i + q)).lexeme ≠ .newline := by
    intro fuel
    induction fuel with
    | zero =>
      intro m i hfuel n c' h
      obtain ⟨rfl, rfl⟩ := reads_pure.1 h
      refine ⟨0, rfl, rfl, fun k hk => absurd hk (Nat.not_lt_zero k), ?_⟩
      rw [shown_of_length_le hlast heof hfuel]
      exact Lexeme.noConfusion
    | succ fuel ih =>
      intro m i hfuel n c' h
      obtain ⟨t, c₁, ht, h⟩ := reads_bind.1 h
      rcases reads_newline_round.1 ht with ⟨hline, rfl, rfl⟩ | ⟨hline, rfl, rfl⟩
      · obtain ⟨q, rfl, rfl, hall, hstop⟩ := ih (m + 1) (i + 1) (by omega) h
        rw [Nat.add_right_comm i 1 q] at hstop ⊢
        refine ⟨q + 1, by omega, rfl, fun k hk => ?_, hstop⟩
        cases k with
        | zero => exact hline
        | succ k =>
          have hk := hall k (by omega)
          rwa [Nat.add_right_comm] at hk
      · obtain ⟨rfl, rfl⟩ := reads_pure.1 h
        exact ⟨0, rfl, rfl, fun k hk => absurd hk (Nat.not_lt_zero k), hline⟩
  obtain ⟨q, hq, hrest⟩ := hrounds _ 0 i (by rw [Cursor.remaining_on]; omega) h
  rw [Nat.zero_add] at hq
  exact hq ▸ hrest

omit hlast heof in
/-- At the token of number `j`, the first after a newline, a statement is refused after `k` tokens. -/
def RefusedAt (tokens : List Token) (depth j k : Nat) : Prop :=
  (∃ i, j = i + 1 ∧ (Cursor.shown tokens i).lexeme = .newline) ∧ (Cursor.shown tokens j).lexeme ≠ .newline ∧
    (∃ e span, (readAt depth .expression (.on tokens j)).result = .error (.unexpected e span)) ∧
    (readAt depth .expression (.on tokens j)).taken = k

/-- What is true of a row of statements between two rounds: nothing was handed back, or the row stands where the statement
begins that was handed back. -/
def Row (tokens : List Token) (depth : Nat) (s : Progress) (c : Cursor) : Prop :=
  ∃ j, c = .on tokens j ∧ (s.goesOn = true ∧ s.handedBack = 0 ∨ s.goesOn = false ∧ RefusedAt tokens depth j s.handedBack)

theorem row_next {depth : Nat} {s t : Progress} {c c' : Cursor} (hrow : Row tokens depth s c)
    (h : Reads (nextStatement (readAt depth) s) c (some t) c') : Row tokens depth t c' := by
  obtain ⟨j, rfl, hs⟩ := hrow
  obtain ⟨n, c₁, hn, h⟩ := reads_bind.1 h
  obtain ⟨rfl, hall, hstop⟩ := reads_newlines_count hlast heof hn
  simp only [reads_ite, reads_pure, reduceCtorEq, false_and, and_false, false_or, not_or, Bool.not_eq_false] at h
  obtain ⟨⟨hpos, hgo⟩, h⟩ := h
  have hne : tokens ≠ [] := by
    rintro rfl
    cases hlast
  obtain ⟨tried, c₂, hx, h⟩ := reads_bind.1 h
  rcases (reads_attempt (readAt_follows_self depth .expression) hne).1 hx with
    ⟨node, rfl, hnode⟩ | ⟨e, span, rfl, hrefused, rfl⟩
  · obtain ⟨ht, rfl⟩ := reads_pure.1 h
    cases ht
    have hs := hs.resolve_right fun hs => by simp [hs.1] at hgo
    refine ⟨j + n + (readAt depth .expression (.on tokens (j + n))).taken, ?_, .inl hs⟩
    rw [← (readAt_follows_self depth .expression).cursor_eq hne]
    exact hnode.2.symm
  · obtain ⟨ht, rfl⟩ := reads_pure.1 h
    cases ht
    obtain ⟨m, rfl⟩ : ∃ m, n = m + 1 := ⟨n - 1, by omega⟩
    exact ⟨_, rfl, .inr ⟨rfl, ⟨j + m, rfl, hall m (Nat.lt_succ_self m)⟩, hstop, ⟨e, span, hrefused⟩, rfl⟩⟩

theorem row_done {depth : Nat} {s : Progress} {c c' : Cursor} (hrow : Row tokens depth s c)
    (h : Reads (nextStatement (readAt depth) s) c none c') : Row tokens depth s c' := by
  obtain ⟨j, rfl, hs⟩ := hrow
  obtain ⟨n, c₁, hn, h⟩ := reads_bind.1 h
  obtain ⟨rfl, hall, -⟩ := reads_newlines_count hlast heof hn
  simp only [reads_ite, reads_pure, true_and] at h
  rcases h with ⟨-, rfl⟩ | ⟨-, h⟩
  · refine ⟨j + n, rfl, hs.imp_right fun hrefused => ⟨hrefused.1, ?_⟩⟩
    -- Where the refused statement begins there is no newline to be taken.
    cases n with
    | zero => exact hrefused.2
    | succ n => exact absurd (hall 0 (Nat.succ_pos n)) hrefused.2.2.1
  · obtain ⟨tried, c₂, -, h⟩ := reads_bind.1 h
    cases tried with
    | read node => cases (reads_pure.1 h).1
    | handedBack k => cases (reads_pure.1 h).1

/-- A row of statements that handed tokens back has stopped where they begin. -/
theorem statements_stop {depth i : Nat} {block : Block} {c' : Cursor}
    (h : Reads (readAt (depth + 1) .statements) (.on tokens i) block c') (hback : 0 < block.handedBack) :
    ∃ j, c' = .on tokens j ∧ RefusedAt tokens depth j block.handedBack := by
  have hne : tokens ≠ [] := by
    rintro rfl
    cases hlast
  obtain ⟨start, c₀, ⟨-, rfl⟩, h⟩ := reads_bind.1 h
  obtain ⟨n, c₁, hn, h⟩ := reads_bind.1 h
  obtain ⟨rfl, -, -⟩ := reads_newlines_count hlast heof hn
  obtain ⟨first, c₂, hfirst, h⟩ := reads_bind.1 h
  have hc₂ : c₂ = .on tokens (i + n + (readAt depth .expression (.on tokens (i + n))).taken) := by
    rw [← (readAt_follows_self depth .expression).cursor_eq hne]
    exact hfirst.2.symm
  obtain ⟨row, c₃, hrow, h⟩ := reads_bind.1 h
  simp only [reads_current_bind, reads_pure] at h
  obtain ⟨rfl, rfl⟩ := h
  have hrow : Reads (rounds (nextStatement (readAt depth)) c₂.remaining ⟨[first], 0, true⟩) c₂ row c' := hrow
  obtain ⟨j, rfl, hend⟩ := rounds_invariant (I := Row tokens depth) (fun _ _ _ _ => row_next hlast heof)
    (fun _ _ _ => row_done hlast heof) _ ⟨_, hc₂, .inl ⟨rfl, rfl⟩⟩ hrow
  rcases hend with ⟨-, hzero⟩ | ⟨-, hrefused⟩
  · exact absurd hzero (Nat.ne_of_gt hback)
  · exact ⟨j, rfl, hrefused⟩

end Row

/-- **The count of a production is exact.**  Begun on any token of a row whose last token marks the end, a production has moved the
cursor by as many tokens as it counts, whether it succeeds or fails; the cursor shows the token it stands on, or the mark of
the end if it has run past it, and a failure is placed at the token that is shown.  Hence stepping back over the count returns
to where a failed production began, and a row of statements that hands tokens back stops at the first token of the statement
that failed. -/
theorem readAt_counts {tokens : List Token} {last : Token} (hlast : tokens.getLast? = some last) (heof : last.lexeme = .eof)
    {i : Nat} (hi : i < tokens.length) (depth : Nat) :
    let start : Cursor := ⟨tokens.toArray, i, tokens[i]⟩
    (∀ p : Production,
      let reply := readAt depth p start
      reply.cursor = ⟨tokens.toArray, i + reply.taken, tokens[i + reply.taken]?.getD last⟩ ∧
      ∀ e span, reply.result = .error (.unexpected e span) →
        span = reply.cursor.current.span ∧ reply.cursor.back reply.taken = start) ∧
    ∀ block, (readAt (depth + 1) .statements start).result = .ok block → 0 < block.handedBack →
      ∃ j : Nat, (readAt (depth + 1) .statements start).cursor = ⟨tokens.toArray, j, tokens[j]?.getD last⟩ ∧
        RefusedAt tokens depth j block.handedBack := by
  have hne : tokens ≠ [] := List.ne_nil_of_length_pos (Nat.zero_lt_of_lt hi)
  have hon : ∀ j : Nat, Cursor.on tokens j = ⟨tokens.toArray, j, tokens[j]?.getD last⟩ := by
    intro j
    rw [Cursor.on, Cursor.shown, List.getLastD_eq_getLast?, hlast]
    rfl
  have hstart : (⟨tokens.toArray, i, tokens[i]⟩ : Cursor) = .on tokens i := by
    rw [Cursor.on, Cursor.shown_of_lt hi]
  intro start
  refine ⟨fun p => ?_, fun block hblock hback => ?_⟩
  · intro reply
    have hcursor : reply.cursor = .on tokens (i + reply.taken) := by
      show (readAt depth p start).cursor = .on tokens (i + (readAt depth p start).taken)
      rw [show start = .on tokens i from hstart]
      exact (readAt_follows_self depth p).cursor_eq hne i
    refine ⟨hcursor.trans (hon _), fun e span he => ⟨?_, ?_⟩⟩
    · have he : (readAt depth p (.on tokens i)).result = .error (.unexpected e span) := hstart ▸ he
      rw [(readAt_follows_self depth p).span_eq hne he, hcursor, show reply = readAt depth p (.on tokens i) from hstart ▸ rfl]
      rfl
    · rw [hcursor, Cursor.back_on]
      exact hstart.symm
  · rw [show start = .on tokens i from hstart] at hblock ⊢
    obtain ⟨j, hj, hrefused⟩ := statements_stop hlast heof ⟨hblock, rfl⟩ hback
    exact ⟨j, hj.trans (hon j), hrefused⟩

/-- A loop with a condition looks past the end of the tokens before it gives up. -/
theorem readAt_counts_overrun :
    let tokens := bareTokens [.numeral (.whole 1), .newline, .keyword .while_, .numeral (.whole 2), .eof]
    let start : Cursor := ⟨tokens.toArray, 0, ⟨.numeral (.whole 1), .forgotten⟩⟩
    ∃ block, (readAt 20 .statements start).result = .ok block ∧ block.handedBack = 3 ∧
      (readAt 20 .statements start).cursor.index = 2 ∧ RefusedAt tokens 19 2 3 := by
  intro tokens start
  have hseen : (readAt 20 .statements start).result.toOption.map Block.handedBack = some 3 ∧
      (readAt 20 .statements start).cursor.index = 2 := by decide +kernel
  obtain ⟨block, hblock, hback⟩ := Option.map_eq_some_iff.1 hseen.1
  have hblock : (readAt 20 .statements start).result = .ok block := by
    cases hresult : (readAt 20 .statements start).result with
    | error e =>
      rw [hresult] at hblock
      cases hblock
    | ok b =>
      rw [hresult] at hblock
      cases hblock
      rfl
  obtain ⟨-, hstop⟩ := @readAt_counts tokens ⟨.eof, .forgotten⟩ rfl rfl 0 (by decide) 19
  obtain ⟨j, hj, hrefused⟩ := hstop block hblock (by rw [hback]; decide)
  have hindex := hseen.2
  rw [show (readAt 20 .statements start).cursor = _ from hj] at hindex
  cases hindex
  rw [hback] at hrefused
  exact ⟨block, hblock, hback, hseen.2, hrefused⟩

end Scriptlet.Grammar
