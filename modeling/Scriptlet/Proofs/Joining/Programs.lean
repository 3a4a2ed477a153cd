import Scriptlet.Proofs.Joining.Blocks
import Scriptlet.Proofs.Spelling.Lexemes
/-!
# Two texts in one

Two programs with a newline between them are read as one: the statements of the first and then those of the second
(`Parse.program_join`).  It must not be that the first program leaves a block open, or it would go on with the second.  This
is so if the first program with a newline and `end` after it is no program.

For then the statements of the first program, read with something after them, come to the newlines at its end, and none of
their other fates is left.
-/
namespace Scriptlet.Grammar

open Production Reading

/-! ## Statements -/

section Statements

variable {A B : List Lexeme} {d : Nat}

/-- A row of statements does not stop in front of a newline. -/
theorem further_stop {tokens : List Token} (ht : Ended tokens) {i : Nat} (hi : i < tokens.length) {s t : Progress}
    {c : Cursor} (h : Reads (further d s) (.on tokens i) t c) :
    ∃ j, c = .on tokens j ∧ (Cursor.shown tokens j).lexeme ≠ .newline := by
  obtain ⟨k, _, hk, _, hlast⟩ := repeating_invariant tokens (advances_statements ht d) (I := fun _ _ => True)
    (fun _ _ _ _ _ _ _ _ => trivial) hi trivial h
  obtain ⟨n, c₁, hn, hlast⟩ := reads_bind.1 hlast
  obtain ⟨j, _, rfl, _, _, hj⟩ := newlines_sound ht hk hn
  rcases reads_ite.1 hlast with ⟨_, hlast⟩ | ⟨_, hlast⟩
  · exact ⟨j, (reads_pure.1 hlast).2, hj⟩
  · obtain ⟨u, c₂, _, hlast⟩ := reads_bind.1 hlast
    cases u with
    | read | handedBack => cases (reads_pure.1 hlast).1

theorem statementRow_stop {tokens : List Token} (ht : Ended tokens) {i : Nat} (hi : i < tokens.length) {s : Progress}
    {c : Cursor} (h : Reads (statementRow d) (.on tokens i) s c) :
    ∃ j, c = .on tokens j ∧ (Cursor.shown tokens j).lexeme ≠ .newline := by
  obtain ⟨n, c₁, hn, h⟩ := reads_bind.1 h
  obtain ⟨first, c₂, hfirst, h⟩ := reads_bind.1 h
  obtain ⟨j, _, rfl, hj, _⟩ := newlines_sound ht hi hn
  obtain ⟨k, _, rfl, hk, _⟩ := readAt_sound ht d .expression hj.2.1 hfirst
  exact further_stop ht hk.2.1 h

variable (hA : ∀ l ∈ A, l ≠ .eof)

include hA

/-- Statements that are read to the end come to the newlines there, unless what would close a block would belong to
them. -/
theorem statementRow_trails {s : Progress} (h : Reads (statementRow d) (.on (row A []) 0) s (.on (row A []) A.length))
    (hclosed : ∀ t, ¬Reads (statementRow d) (.on (row A closing) 0) t (.on (row A closing) (A.length + 2))) :
    Trails A d (statementRow d) 0 := by
  rcases statementRow_fate hA (fun b _ => readAt_fated hA b .expression nofun) (Nat.zero_le _) with hfate | htrails
  · rcases hfate with ⟨res, k, hk, hsettled⟩ | ⟨t, _, ht⟩ | hstrays
    · -- It would stop in front of any newline that comes after it.
      have halone := hsettled [] rest_nil
      rw [Nat.zero_add] at halone hk
      obtain rfl : k = A.length := by
        have hcursor := h.2
        rw [halone] at hcursor
        exact on_row_inj hcursor
      have hread : Reads (statementRow d) (.on (row A closing) 0) s (.on (row A closing) A.length) := by
        have hres := h.1
        rw [halone] at hres
        rw [Reads, hsettled closing rest_closing, Nat.zero_add]
        exact ⟨hres, rfl⟩
      obtain ⟨j, hj, hne⟩ := statementRow_stop (ended_row hA rest_closing) (by rw [length_row]; omega) hread
      cases on_row_inj hj
      exact absurd lexeme_row_cons hne
    · exact absurd ht (hclosed t)
    · obtain ⟨j, hj, hstuck⟩ := hstrays s _ h
      cases on_row_inj hj
      exact absurd hstuck.lt (Nat.lt_irrefl _)
  · exact htrails

end Statements

/-! ## Programs -/

section Programs

variable {A B : List Lexeme} {depth : Nat}

/-- A program is a row of statements that is read to the end. -/
theorem program_row {Z : List Lexeme} (hA : ∀ l ∈ A, l ≠ .eof) (hZ : Rest Z) {tree : Node} :
    (program depth (.on (row A Z) 0)).result = .ok tree ↔ ∃ d s, depth = d + 1 ∧ tree = s.block.node ∧
      Reads (statementRow d) (.on (row A Z) 0) s (.on (row A Z) (A.length + Z.length)) := by
  have ht := ended_row hA hZ
  constructor
  · intro h
    obtain ⟨block, hb, heof, rfl⟩ := reads_program.1 ⟨h, rfl⟩
    obtain ⟨j, _, hc, ⟨_, hj, _⟩, _⟩ := readAt_sound ht depth .statements ht.length_pos hb
    rw [hc] at hb heof
    have hlast := ht.eq_last hj heof
    rw [length_row] at hlast
    cases depth with
    | zero => exact (reads_tooDeep.1 hb).elim
    | succ d =>
      obtain ⟨s, hs, rfl⟩ := reads_statements.1 hb
      cases Nat.succ.inj hlast
      exact ⟨d, s, rfl, rfl, hs⟩
  · rintro ⟨d, s, rfl, rfl, hs⟩
    have hlast : (Cursor.shown (row A Z) (A.length + Z.length)).lexeme = .eof :=
      ht.shown_last (Nat.le_of_eq length_row)
    have hb : Reads (readAt (d + 1) .statements) (.on (row A Z) 0) s.block (.on (row A Z) (A.length + Z.length)) :=
      reads_statements.2 ⟨s, hs, rfl⟩
    exact (reads_program.2 ⟨s.block, hb, hlast, rfl⟩).1

/-- **Lexemes of two programs with a newline between them are those of one program.** -/
theorem program_join (hA : ∀ l ∈ A, l ≠ .eof) (hB : ∀ l ∈ B, l ≠ .eof) {tree₁ tree₂ : Node}
    (h₁ : (program depth (.on (row A []) 0)).result = .ok tree₁)
    (h₂ : (program depth (.on (row B []) 0)).result = .ok tree₂)
    (hclosed : ∀ tree, (program depth (.on (row A closing) 0)).result ≠ .ok tree) :
    ∃ items₁ items₂, tree₁ = .list items₁ .forgotten ∧ tree₂ = .list items₂ .forgotten ∧
      (program depth (.on (row A (.newline :: B)) 0)).result = .ok (.list (items₁ ++ items₂) .forgotten) := by
  obtain ⟨d, s, rfl, rfl, hs⟩ := (program_row hA rest_nil).1 h₁
  obtain ⟨_, t, hd, rfl, ht⟩ := (program_row hB rest_nil).1 h₂
  cases hd
  have htrails := statementRow_trails hA hs fun u hu => hclosed _ ((program_row hA rest_closing).2 ⟨d, u, rfl, rfl, hu⟩)
  have hrank : Production.expression.rank < d := by
    obtain ⟨n, c₁, _, hs⟩ := reads_bind.1 hs
    obtain ⟨first, c₂, hfirst, _⟩ := reads_bind.1 hs
    exact rank_lt_of_reads d .expression rfl hfirst
  have hjoined := htrails.goes_on hA hB hrank hs ht
  rw [Nat.add_assoc, Nat.add_comm 1] at hjoined
  refine ⟨s.items.reverse, t.items.reverse, rfl, rfl, ?_⟩
  refine (program_row hA ⟨by simpa using hB, by simp⟩).2 ⟨d, _, rfl, ?_, hjoined⟩
  simp [Block.node, Progress.block, Progress.after]

end Programs

end Scriptlet.Grammar

namespace Scriptlet

open Grammar Scan

/-- Texts on lines of their own are scanned one after the other. -/
theorem Scan.Scans.join {text₁ text₂ : String} {A B : List Lexeme} (hA : Scans text₁.toList A) (hB : Scans text₂.toList B) :
    Scans (text₁ ++ "\n" ++ text₂).toList (A ++ .newline :: B) := by
  have hscans := hA.append (.inr (.inr (.inr rfl))) (.step (.newline (.inr rfl)) hB)
  simpa using hscans

/-- A text is parsed as its lexemes are read. -/
theorem parse_row_iff {text : String} {A Z : List Lexeme} (h : Scans text.toList (A ++ Z)) (file : String) {limits : Limits}
    {tree : Node} : (∃ n, Parse.program limits ⟨file, text⟩ = .ok n ∧ n.bare = tree) ↔
      (Grammar.program limits.reading (.on (row A Z) 0)).result = .ok tree := by
  rw [parse_bare_iff h, Cursor.start_eq_on, row, List.append_assoc]

/-- **The tree of two texts with a newline between them** has the statements of the first and then those of the second, if
the first is no longer a program with `end` after it. -/
theorem Parse.program_join {limits : Limits} {text₁ text₂ file₁ file₂ : String} {tree₁ tree₂ : Node}
    (h₁ : Parse.program limits ⟨file₁, text₁⟩ = .ok tree₁) (h₂ : Parse.program limits ⟨file₂, text₂⟩ = .ok tree₂)
    {file₃ : String} (hclosed : ∀ tree, Parse.program limits ⟨file₃, text₁ ++ "\n" ++ "end"⟩ ≠ .ok tree) (file : String) :
    ∃ tree items₁ items₂, Parse.program limits ⟨file, text₁ ++ "\n" ++ text₂⟩ = .ok tree ∧
      tree₁.bare = .list items₁ .forgotten ∧ tree₂.bare = .list items₂ .forgotten ∧
      tree.bare = .list (items₁ ++ items₂) .forgotten := by
  have hlexemes : ∀ {file text tree}, Parse.program limits ⟨file, text⟩ = .ok tree → ∃ ls, Scans text.toList ls := by
    intro file text tree h
    obtain ⟨tokens, htokens, _⟩ := Parse.program_eq_ok.1 h
    obtain ⟨ls, _, hscans⟩ := tokensFrom_scans _ _ _ _ (Nat.le_of_eq String.length_toList) htokens
    exact ⟨ls, hscans⟩
  obtain ⟨A, hA⟩ := hlexemes h₁
  obtain ⟨B, hB⟩ := hlexemes h₂
  obtain ⟨items₁, items₂, hitems₁, hitems₂, hprogram⟩ := Grammar.program_join hA.ne_eof hB.ne_eof
    ((parse_row_iff (by rwa [List.append_nil]) file₁).1 ⟨tree₁, h₁, rfl⟩)
    ((parse_row_iff (by rwa [List.append_nil]) file₂).1 ⟨tree₂, h₂, rfl⟩) fun tree htree => by
      obtain ⟨n, hn, _⟩ := (parse_row_iff (hA.join (scans_keyword .end_)) file₃).2 htree
      exact hclosed n hn
  obtain ⟨tree, htree, hbare⟩ := (parse_row_iff (hA.join hB) file).2 hprogram
  exact ⟨tree, items₁, items₂, htree, hitems₁, hitems₂, hbare⟩

end Scriptlet
