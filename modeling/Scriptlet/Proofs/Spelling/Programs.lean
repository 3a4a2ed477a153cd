import Scriptlet.Proofs.Grammar.Halting
import Scriptlet.Proofs.Spelling.ReadBack
/-!
# Programs

Phrases divided by newlines, with any number of newlines before and after them, make up a program, and a bound on depth that
suffices for the lexemes that nest is enough to read it (`program_of_phrases`).
-/
namespace Scriptlet.Grammar

open Production Reading

variable {tokens : List Token}

/-- Phrases after newlines. -/
def newlineRow (ps : List (List Lexeme × Node)) : List Lexeme := ps.flatMap fun p => .newline :: p.1

/-- So many newlines. -/
def blankLines (count : Nat) : List Lexeme := List.replicate count .newline

section Statements

/-- A statement ends in front of another line or of the end. -/
theorem follows_statement {ps : List (List Lexeme × Node)} {after i j k : Nat} (h : Covers tokens i (newlineRow ps) j)
    (hblank : Covers tokens j (blankLines after) k) (hend : (Cursor.shown tokens k).lexeme = .eof) :
    (!continues (Cursor.shown tokens i).lexeme) = true := by
  cases ps with
  | nil =>
    cases h.eq_of_nil
    cases after with
    | zero =>
      cases hblank.eq_of_nil
      rw [hend]
      rfl
    | succ after =>
      rw [blankLines, List.replicate_succ] at hblank
      rw [hblank.head]
      rfl
  | cons p ps =>
    rw [newlineRow, List.flatMap_cons] at h
    rw [h.head]
    rfl

variable (ht : Ended tokens)

include ht

/-- After the last statement only newlines are left, if any. -/
theorem statementRow_ends {after i j : Nat} (h : Covers tokens i (blankLines after) j)
    (hend : (Cursor.shown tokens j).lexeme = .eof) (items : List Node) :
    FromDepth fun d => Reads (repeating (nextStatement (readAt d)) ⟨items, 0, true⟩) (.on tokens i)
      ⟨items, 0, after == 0⟩ (.on tokens j) := by
  have hline : (Cursor.shown tokens j).lexeme ≠ .newline := by
    rw [hend]
    simp
  have hstop (s : Progress) (d : Nat) : Reads (repeating (nextStatement (readAt d)) s) (.on tokens j) s (.on tokens j) :=
    reads_repeating_none h.2.1 (reads_bind.2 ⟨0, _, reads_newlines_zero h.2.1 hline, reads_pure.2 ⟨rfl, rfl⟩⟩)
  cases after with
  | zero =>
    cases h.eq_of_nil
    exact .of_forall (hstop _)
  | succ after =>
    have hlines := reads_newlines ht h hline
    refine ⟨8, fun d hd => reads_repeating_some (advances_statements ht d) h.lt_length ?_ (hstop _ d)⟩
    exact nextStatement_handedBack items hd hlines (by rw [hend]; rfl) ht.ne_nil

/-- Statements after newlines, up to the end. -/
theorem statementRow_to_end (ps : List (List Lexeme × Node)) (hps : ∀ p ∈ ps, Phrase tokens p.1 p.2) {after i j k : Nat}
    (h : Covers tokens i (newlineRow ps) j) (hblank : Covers tokens j (blankLines after) k)
    (hend : (Cursor.shown tokens k).lexeme = .eof) (items : List Node) :
    FromDepth fun d => Reads (repeating (nextStatement (readAt d)) ⟨items, 0, true⟩) (.on tokens i)
      ⟨(ps.map Prod.snd).reverse ++ items, 0, after == 0⟩ (.on tokens k) := by
  induction ps generalizing i items with
  | nil =>
    cases h.eq_of_nil
    exact statementRow_ends ht hblank hend items
  | cons p ps ih =>
    rw [newlineRow, List.flatMap_cons, List.cons_append] at h
    obtain ⟨l, hl, hrest⟩ := h.tail.split
    have hp := hps p List.mem_cons_self
    have hone : Reads newlines (.on tokens i) 1 (.on tokens (i + 1)) := by
      obtain ⟨x, v, hx, hstarts⟩ := hp.start
      rw [hx] at hl
      exact reads_newlines_one ht h.head (by rw [hl.head]; exact ne_newline_of_starts hstarts)
    have hread := hp.piece _ l hl (follows_statement hrest hblank hend)
    have hmore := ih (fun q hq => hps q (List.mem_cons_of_mem p hq)) hrest (p.2 :: items)
    apply (hread.and hmore).mono
    intro d hboth
    rw [List.map_cons, List.reverse_cons, List.append_assoc]
    have hnext := nextStatement_read items hone hboth.1 ht.ne_nil
    exact reads_repeating_some (advances_statements ht d) h.lt_length hnext hboth.2

theorem statements_to_end (hbare : ∀ i, (Cursor.shown tokens i).span = .forgotten) {u : List Lexeme} {n : Node}
    (hn : Phrase tokens u n) (ps : List (List Lexeme × Node)) (hps : ∀ p ∈ ps, Phrase tokens p.1 p.2)
    {before after i j : Nat} (h : Covers tokens i (blankLines before ++ (u ++ (newlineRow ps ++ blankLines after))) j)
    (hend : (Cursor.shown tokens j).lexeme = .eof) :
    Accepts tokens .statements i ⟨n :: ps.map Prod.snd, .forgotten, 0⟩ j := by
  obtain ⟨k, hbefore, hrest⟩ := h.split
  obtain ⟨l, hl, hrest⟩ := hrest.split
  obtain ⟨m, hrow, hafter⟩ := hrest.split
  have hlines : Reads newlines (.on tokens i) before (.on tokens k) := by
    obtain ⟨x, v, hx, hstarts⟩ := hn.start
    rw [hx] at hl
    exact reads_newlines ht hbefore (by rw [hl.head]; exact ne_newline_of_starts hstarts)
  have hread := hn.piece k l hl (follows_statement hrow hafter hend)
  have hmore := statementRow_to_end ht ps hps hrow hafter hend [n]
  apply (hread.and hmore).succ
  intro d hboth
  show Reads (statementsForm (readAt d)) _ _ _
  rw [statementsForm, reads_current_bind, Cursor.on_current, hbare]
  refine reads_bind.2 ⟨before, _, hlines, reads_bind.2 ⟨n, _, hboth.1, reads_bind.2 ⟨_, _, hboth.2, ?_⟩⟩⟩
  rw [reads_current_bind, Cursor.on_current, hbare, List.reverse_append, List.reverse_reverse]
  exact reads_pure.2 ⟨rfl, rfl⟩

/-- Statements that are read up to the end are a program, with a depth that suffices for the lexemes that nest. -/
theorem program_of_accepts {block : Block} {j : Nat} (h : Accepts tokens .statements 0 block j)
    (hend : (Cursor.shown tokens j).lexeme = .eof) {depth : Nat} (hdepth : depthFor (nestings tokens 0) ≤ depth) :
    (program depth (.start tokens)).result = .ok block.node := by
  obtain ⟨last, hlast, heof⟩ := ht.eof
  obtain ⟨d, hread⟩ := h
  have hd := hread (max d depth) (Nat.le_max_left d depth)
  -- The depth from which on the statements are read may be beyond the bound, but beyond the bound nothing changes.
  have hsame := readAt_stable hlast heof hdepth (Nat.le_max_right d depth) .statements 0
  have hstatements : Reads (readAt depth .statements) (.on tokens 0) block (.on tokens j) := by
    unfold Reads at hd ⊢
    rwa [← hsame]
  rw [Cursor.start_eq_on]
  exact (reads_program.2 ⟨block, hstatements, hend, rfl⟩).1

end Statements

/-- How many of some lexemes nest. -/
def nestingCount (ls : List Lexeme) : Nat := ls.countP nests

theorem nestings_bareTokens (ls : List Lexeme) : nestings (bareTokens (ls ++ [.eof])) 0 = nestingCount ls := by
  unfold nestings nestingCount bareTokens
  rw [List.drop_zero, List.countP_map, List.countP_append]
  rfl

/-- **Phrases on lines of their own are a program**, read with any depth that suffices for the lexemes that nest. -/
theorem program_of_phrases {u : List Lexeme} {n : Node} {ps : List (List Lexeme × Node)} {before after : Nat}
    {ls : List Lexeme} (hls : ls = blankLines before ++ (u ++ (newlineRow ps ++ blankLines after)))
    (heof : ∀ l ∈ ls, l ≠ .eof)
    (h : ∀ tokens, Ended tokens → (∀ i, (Cursor.shown tokens i).span = .forgotten) →
      Phrase tokens u n ∧ ∀ p ∈ ps, Phrase tokens p.1 p.2) {depth : Nat} (hdepth : depthFor (nestingCount ls) ≤ depth) :
    (program depth (.start (bareTokens (ls ++ [.eof])))).result = .ok (.list (n :: ps.map Prod.snd) .forgotten) := by
  have hended : Ended (bareTokens (ls ++ [.eof])) := by
    apply Ended.of_lexemes heof
    rw [bareTokens, List.map_map]
    exact List.map_id _
  have hlength : (bareTokens (ls ++ [.eof])).length = ls.length + 1 := by simp [bareTokens]
  have hend : (Cursor.shown (bareTokens (ls ++ [.eof])) ls.length).lexeme = .eof := hended.shown_last (by omega)
  have hbare : ∀ i, (Cursor.shown (bareTokens (ls ++ [.eof])) i).span = .forgotten := span_bareTokens (by simp)
  obtain ⟨hn, hps⟩ := h _ hended hbare
  have hcovers : Covers (bareTokens (ls ++ [.eof])) 0 (blankLines before ++ (u ++ (newlineRow ps ++ blankLines after)))
      ls.length := by
    rw [← hls]
    exact covers_all ls
  have hstatements := statements_to_end hended hbare hn ps hps hcovers hend
  exact program_of_accepts hended hstatements hend (by rwa [nestings_bareTokens])

end Scriptlet.Grammar
