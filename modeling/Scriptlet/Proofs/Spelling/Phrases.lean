import Scriptlet.Proofs.Grammar.Acceptance
import Scriptlet.Proofs.Spelling.Trees
/-!
# Phrases

`Phrase tokens u n` says that the lexemes `u`, wherever they stand in front of a lexeme that continues no expression, are
read as the expression `n`; `Atomic tokens u n`, that they are read as an atom in front of anything.  With a rule for each
form a text is read without regard to the numbers of its tokens.  The tokens have no positions here, so what is read has
none either.
-/
namespace Scriptlet.Grammar

open Production Reading

variable {tokens : List Token}

/-- In front of a lexeme that continues no expression, the lexemes are read as the expression. -/
structure Phrase (tokens : List Token) (u : List Lexeme) (n : Node) : Prop where
  start : ∃ x v, u = x :: v ∧ x.starts = true
  piece : Piece tokens (fun d => readAt d .expression) (fun l => !continues l) u n

/-- In front of any lexeme, the lexemes are read as the atom. -/
structure Atomic (tokens : List Token) (u : List Lexeme) (n : Node) : Prop where
  start : ∃ x v, u = x :: v ∧ x.starts = true ∧ leads x = false ∧ x.isSymbol .minus = false
  read : ∀ i j, Covers tokens i u j → Accepts tokens .atom i n j

theorem ne_newline_of_starts {x : Lexeme} (h : x.starts = true) : x ≠ .newline := by
  rintro rfl
  cases h

theorem Phrase.expression {u : List Lexeme} {n : Node} (h : Phrase tokens u n) {i j : Nat} (hij : Covers tokens i u j)
    (hnext : continues (Cursor.shown tokens j).lexeme = false) : Accepts tokens .expression i n j :=
  h.piece i j hij (by simpa using hnext)

theorem Phrase.of_mem_singleton {u : List Lexeme} {n : Node} (h : Phrase tokens u n) :
    ∀ p ∈ [(u, n)], Phrase tokens p.1 p.2 :=
  fun _ hp => List.mem_singleton.1 hp ▸ h

/-! ## Operands -/

namespace Atomic

variable {u v : List Lexeme} {n m : Node} {i j : Nat}

theorem head (h : Atomic tokens u n) (hij : Covers tokens i u j) :
    leads (Cursor.shown tokens i).lexeme = false ∧ (Cursor.shown tokens i).lexeme.isSymbol .minus = false := by
  obtain ⟨x, w, rfl, -, hleads, hminus⟩ := h.start
  rw [hij.head]
  exact ⟨hleads, hminus⟩

section Climbing

variable (h : Atomic tokens u n) (hij : Covers tokens i u j)
  (hcall : (Cursor.shown tokens j).lexeme.isSymbol .openParen = false)

include h hij hcall

theorem factor (hpower : (Cursor.shown tokens j).lexeme.isSymbol .power = false) : Accepts tokens .factor i n j :=
  accepts_factor (accepts_power (accepts_call (h.read i j hij) hcall) hij.2.1 hpower) (h.head hij).2

variable (hfactors : joinsFactors (Cursor.shown tokens j).lexeme = false)

include hfactors

theorem product : Accepts tokens .product i n j :=
  accepts_product (h.factor hij hcall (isSymbol_power_of_joinsFactors hfactors)) hij.2.1 hfactors

variable (hterms : joinsTerms (Cursor.shown tokens j).lexeme = false)

include hterms

theorem sum : Accepts tokens .sum i n j := accepts_sum (h.product hij hcall hfactors) hij.2.1 hterms

theorem comparison (hcomparands : joinsComparands (Cursor.shown tokens j).lexeme = false) :
    Accepts tokens .comparison i n j := by
  have hleads := (h.head hij).1
  simp only [leads, Bool.or_eq_false_iff] at hleads
  exact accepts_comparison (h.sum hij hcall hfactors hterms) hij.2.1 hleads.1 hcomparands

end Climbing

theorem phrase (h : Atomic tokens u n) : Phrase tokens u n where
  start := by
    obtain ⟨x, w, rfl, hx, -⟩ := h.start
    exact ⟨x, w, rfl, hx⟩
  piece := by
    intro i j hij hnext
    rw [Bool.not_eq_true'] at hnext
    exact expression_of_atom hij.2.1 (h.head hij).1 hnext (h.head hij).2 (h.read i j hij)

end Atomic

/-! ## Operators -/

/-- An operator joins operands of one production, and the tighter ones stop in front of it. -/
theorem operator_cases {op : Lexeme} (h : (BinaryOp.ofLexeme? op).isSome = true) :
    (op.isSymbol .power = true ∧ op.isSymbol .openParen = false) ∨
    (joinsFactors op = true ∧ op.isSymbol .openParen = false ∧ op.isSymbol .power = false) ∨
    (joinsTerms op = true ∧ op.isSymbol .openParen = false ∧ joinsFactors op = false) ∨
    (joinsComparands op = true ∧ op.isSymbol .openParen = false ∧ joinsFactors op = false ∧ joinsTerms op = false) ∨
    (joinsConditions op = true ∧ op.isSymbol .openParen = false ∧ joinsFactors op = false ∧ joinsTerms op = false ∧
      joinsComparands op = false) := by
  cases op with
  | symbol s => revert h; cases s <;> decide
  | keyword k => revert h; cases k <;> decide
  | _ => cases h

theorem Atomic.binary (ht : Ended tokens) {op : Lexeme} (hop : (BinaryOp.ofLexeme? op).isSome = true) {u v : List Lexeme}
    {n m : Node} (hl : Atomic tokens u n) (hr : Atomic tokens v m) : Phrase tokens (u ++ op :: v) (.binary n op m) where
  start := by
    obtain ⟨x, w, rfl, hx, -⟩ := hl.start
    exact ⟨x, w ++ op :: v, rfl, hx⟩
  piece := by
    intro i j h hnext
    rw [Bool.not_eq_true'] at hnext
    obtain ⟨k, hleft, hrest⟩ := h.split
    obtain ⟨hleads, hminus⟩ := hl.head hleft
    have hk := hleft.2.1
    have hj := h.2.1
    have hmid := hrest.head
    have hright := hrest.tail
    have hend := hnext
    have hstart := hleads
    simp only [leads, Bool.or_eq_false_iff] at hstart
    simp only [continues, Bool.or_eq_false_iff] at hnext
    obtain ⟨⟨⟨⟨hcall, hfactors⟩, hterms⟩, hcomparands⟩, hconditions⟩ := hnext
    have hpower := isSymbol_power_of_joinsFactors hfactors
    rcases operator_cases hop with
      ⟨hjoins, hc⟩ | ⟨hjoins, hc, hp⟩ | ⟨hjoins, hc, hf⟩ | ⟨hjoins, hc, hf, hs⟩ | ⟨hjoins, hc, hf, hs, hm⟩
    · have hl := accepts_call (hl.read i k hleft) (by rw [hmid]; exact hc)
      have hr := hr.factor hright hcall hpower
      refine expression_of_power hj hleads hend hminus ((hl.and hr).succ fun d hboth => ?_)
      obtain ⟨hl, hr⟩ := hboth
      exact reads_chain_two ht (readAt_sound ht d .factor) rfl hl hk hmid hjoins hr hj hpower
    · have hl := hl.factor hleft (by rw [hmid]; exact hc) (by rw [hmid]; exact hp)
      have hr := hr.factor hright hcall hpower
      refine expression_of_product hj hleads hend ((hl.and hr).succ fun d hboth => ?_)
      obtain ⟨hl, hr⟩ := hboth
      exact reads_chain_two ht (readAt_sound ht d .factor) rfl hl hk hmid hjoins hr hj hfactors
    · have hl := hl.product hleft (by rw [hmid]; exact hc) (by rw [hmid]; exact hf)
      have hr := hr.product hright hcall hfactors
      refine expression_of_sum hj hleads hend ((hl.and hr).succ fun d hboth => ?_)
      obtain ⟨hl, hr⟩ := hboth
      exact reads_chain_two ht (readAt_sound ht d .product) rfl hl hk hmid hjoins hr hj hterms
    · have hl := hl.sum hleft (by rw [hmid]; exact hc) (by rw [hmid]; exact hf) (by rw [hmid]; exact hs)
      have hr := hr.sum hright hcall hfactors hterms
      refine expression_of_comparison hj hleads hend ((hl.and hr).succ fun d hboth => ?_)
      obtain ⟨hl, hr⟩ := hboth
      exact reads_comparands (reads_chain_two ht (readAt_sound ht d .sum) rfl hl hk hmid hjoins hr hj hcomparands) hstart.1
    · have hl := hl.comparison hleft (by rw [hmid]; exact hc) (by rw [hmid]; exact hf) (by rw [hmid]; exact hs)
        (by rw [hmid]; exact hm)
      have hr := hr.comparison hright hcall hfactors hterms hcomparands
      refine (hl.and hr).succ fun d hboth => ?_
      obtain ⟨hl, hr⟩ := hboth
      have hchain := reads_chain_two ht (readAt_sound ht d .comparison) rfl hl hk hmid hjoins hr hj hconditions
      exact reads_conditions hchain hstart.2

/-! ## Rows -/

section Rows

variable (ht : Ended tokens) {ps : List (List Lexeme × Node)} (hps : ∀ p ∈ ps, Phrase tokens p.1 p.2) {i j : Nat}

include hps

/-- A row begins with none of the lexemes that close one. -/
theorem phraseRow_start (hne : ps ≠ []) (h : Covers tokens i (commaRow (ps.map Prod.fst)) j) :
    (Cursor.shown tokens i).lexeme.isSymbol .closeSquare = false ∧
      (Cursor.shown tokens i).lexeme.isSymbol .closeParen = false := by
  cases ps with
  | nil => exact absurd rfl hne
  | cons p ps =>
    obtain ⟨x, v, hx, hstarts⟩ := (hps p List.mem_cons_self).start
    rw [List.map_cons, commaRow, hx] at h
    rw [h.head]
    cases x with
    | symbol s => cases s <;> first | exact ⟨rfl, rfl⟩ | cases hstarts
    | _ => exact ⟨rfl, rfl⟩

include ht

theorem phraseRow_accepted (hne : ps ≠ []) (h : Covers tokens i (commaRow (ps.map Prod.fst)) j)
    (hnext : continues (Cursor.shown tokens j).lexeme = false)
    (hcomma : (Cursor.shown tokens j).lexeme.isSymbol .comma = false) :
    FromDepth fun d => Reads (readAt d .expression).commaSeparated (.on tokens i) (ps.map Prod.snd) (.on tokens j) := by
  cases ps with
  | nil => exact absurd rfl hne
  | cons p ps =>
    rw [List.map_cons, commaRow, List.flatMap_map] at h
    exact commaSeparated_accepted ht (fun d => readAt_sound ht d .expression) rfl (hps p List.mem_cons_self).piece ps
      (fun q hq => (hps q (List.mem_cons_of_mem p hq)).piece) h (by rw [hnext]; rfl) hcomma

/-- Statements on lines of their own, in front of a lexeme that ends the block. -/
theorem lines_accepted (hne : ps ≠ []) (h : Covers tokens i (lines (ps.map Prod.fst)) j)
    (hstop : (Cursor.shown tokens j).lexeme.starts = false) (hstop' : (Cursor.shown tokens j).lexeme ≠ .newline) :
    Accepts tokens .statements i
      ⟨ps.map Prod.snd, ⟨(Cursor.shown tokens i).span.start, (Cursor.shown tokens j).span.stop⟩, 0⟩ j := by
  cases ps with
  | nil => exact absurd rfl hne
  | cons p ps =>
    have hheads : ∀ q ∈ ps, ∃ x u, q.1 = x :: u ∧ x ≠ .newline := by
      intro q hq
      obtain ⟨x, u, hx, hstarts⟩ := (hps q (List.mem_cons_of_mem p hq)).start
      exact ⟨x, u, hx, ne_newline_of_starts hstarts⟩
    obtain ⟨⟨u, n⟩, hp⟩ : ∃ q, q = p := ⟨p, rfl⟩
    subst hp
    have hn := hps (u, n) List.mem_cons_self
    obtain ⟨x, v, rfl, hx⟩ := hn.start
    rw [List.map_cons, lines, List.flatMap_cons, List.flatMap_map, List.append_assoc] at h
    exact accepts_statements ht rfl (ne_newline_of_starts hx) hn.piece ps
      (fun q hq => (hps q (List.mem_cons_of_mem _ hq)).piece) hheads h hstop hstop'

/-- An atom applied to arguments. -/
theorem Atomic.call {u : List Lexeme} {n : Node} (hn : Atomic tokens u n) :
    Phrase tokens (u ++ .symbol .openParen :: (commaRow (ps.map Prod.fst) ++ [.symbol .closeParen]))
      (.call n (ps.map Prod.snd)) where
  start := by
    obtain ⟨x, v, rfl, hx, -⟩ := hn.start
    exact ⟨x, _, rfl, hx⟩
  piece := by
    intro i j h hnext
    rw [Bool.not_eq_true'] at hnext
    obtain ⟨k, hatom, hrest⟩ := h.split
    obtain ⟨l, hrow, hclose⟩ := hrest.tail.split
    cases hclose.tail.eq_of_nil
    obtain ⟨hleads, hminus⟩ := hn.head hatom
    refine expression_of_call h.2.1 hleads hnext hminus (accepts_application (hn.read i k hatom) hrest.head ?_)
    by_cases hne : ps = []
    · subst hne
      cases hrow.eq_of_nil
      exact arguments_nil hclose.head
    · have hread := phraseRow_accepted ht hps hne hrow (by rw [hclose.head]; rfl) (by rw [hclose.head]; rfl)
      exact arguments_row (phraseRow_start hps hne hrow).2 hread hclose.head

theorem atomic_list (hbare : ∀ i, (Cursor.shown tokens i).span = .forgotten) :
    Atomic tokens (.symbol .openSquare :: (commaRow (ps.map Prod.fst) ++ [.symbol .closeSquare]))
      (.list (ps.map Prod.snd) .forgotten) where
  start := ⟨_, _, rfl, rfl, rfl, rfl⟩
  read := by
    intro i j h
    obtain ⟨k, hrow, hclose⟩ := h.tail.split
    cases hclose.tail.eq_of_nil
    apply accepts_atom_list h.head
    by_cases hne : ps = []
    · subst hne
      cases hrow.eq_of_nil
      have hread := accepts_list_nil h.head hclose.head
      rwa [hbare, hbare] at hread
    · have hitems := phraseRow_accepted ht hps hne hrow (by rw [hclose.head]; rfl) (by rw [hclose.head]; rfl)
      have hread := accepts_list h.head (phraseRow_start hps hne hrow).1 hitems hclose.head
      rwa [hbare, hbare] at hread

end Rows

/-! ## Forms without positions -/

section Forms

variable (ht : Ended tokens) (hbare : ∀ i, (Cursor.shown tokens i).span = .forgotten)

include hbare

theorem shown_eq_bare {i : Nat} {t : Token} (h : (Cursor.shown tokens i).lexeme = t.lexeme) :
    Cursor.shown tokens i = t.bare := by
  have hspan := hbare i
  cases hs : Cursor.shown tokens i with
  | mk l span =>
    rw [hs] at h hspan
    cases hspan
    cases h
    rfl

theorem atomic_number (x : Numeral) : Atomic tokens [.numeral x] (.number x .forgotten) where
  start := ⟨_, [], rfl, rfl, rfl, rfl⟩
  read := by
    intro i j hij
    cases hij.tail.eq_of_nil
    have hread := accepts_number hij.head
    rwa [hbare] at hread

theorem atomic_string (s : String) : Atomic tokens [.string s] (.string s .forgotten) where
  start := ⟨_, [], rfl, rfl, rfl, rfl⟩
  read := by
    intro i j hij
    cases hij.tail.eq_of_nil
    have hread := accepts_string hij.head
    rwa [hbare] at hread

theorem atomic_access (x : String) : Atomic tokens [.name x] (.access ⟨x, .forgotten⟩) where
  start := ⟨_, [], rfl, rfl, rfl, rfl⟩
  read := by
    intro i j hij
    cases hij.tail.eq_of_nil
    have hread := accepts_access hij.head
    rwa [hbare] at hread

theorem Phrase.assign {u : List Lexeme} {n : Node} (h : Phrase tokens u n) (x : String) :
    Phrase tokens (.keyword .var :: .name x :: .symbol .equals :: u) (.assign ⟨x, .forgotten⟩ n) where
  start := ⟨_, _, rfl, rfl⟩
  piece := by
    intro i j hij hnext
    have hread := accepts_assign hij.head hij.tail.head hij.tail.tail.head (h.piece _ j hij.tail.tail.tail hnext)
    rwa [hbare] at hread

theorem Atomic.opposite (op : Token) (hop : op.lexeme = .symbol .minus) {u : List Lexeme} {n : Node}
    (h : Atomic tokens u n) :
    Phrase tokens (op.lexeme :: u) (.unary op.bare n) where
  start := ⟨_, _, rfl, by rw [hop]; rfl⟩
  piece := by
    intro i j hij hnext
    rw [Bool.not_eq_true'] at hnext
    have hend := hnext
    simp only [continues, Bool.or_eq_false_iff] at hnext
    obtain ⟨⟨⟨⟨hcall, hfactors⟩, -⟩, -⟩, -⟩ := hnext
    have hsign := hij.head.trans hop
    have hread := accepts_opposite hsign (h.factor hij.tail hcall (isSymbol_power_of_joinsFactors hfactors))
    rw [shown_eq_bare hbare hij.head] at hread
    exact expression_of_factor hij.2.1 (by rw [hsign]; rfl) hend hread

theorem Atomic.negation (op : Token) (hop : op.lexeme = .keyword .not) {u : List Lexeme} {n : Node} (h : Atomic tokens u n) :
    Phrase tokens (op.lexeme :: u) (.unary op.bare n) where
  start := ⟨_, _, rfl, by rw [hop]; rfl⟩
  piece := by
    intro i j hij hnext
    rw [Bool.not_eq_true'] at hnext
    simp only [continues, Bool.or_eq_false_iff] at hnext
    obtain ⟨⟨⟨⟨hcall, hfactors⟩, hterms⟩, hcomparands⟩, hconditions⟩ := hnext
    have hnot := hij.head.trans hop
    have hread := accepts_negation hnot (h.comparison hij.tail hcall hfactors hterms hcomparands)
    rw [shown_eq_bare hbare hij.head] at hread
    exact accepts_expression hread hij.2.1 (by rw [hnot]; rfl) hconditions

include ht

/-- A loop over a block of statements, each on a line of its own. -/
theorem atomic_count (x : String) {uf ul : List Lexeme} {first last : Node} (hf : Phrase tokens uf first)
    (hl : Phrase tokens ul last) {ps : List (List Lexeme × Node)} (hne : ps ≠ []) (hps : ∀ p ∈ ps, Phrase tokens p.1 p.2) :
    Atomic tokens
      (.keyword .for_ :: .name x :: .symbol .equals :: (uf ++ .keyword .to_ :: (ul ++ .keyword .do_ :: .newline ::
        (lines (ps.map Prod.fst) ++ [.keyword .end_]))))
      (.count ⟨x, .forgotten⟩ first last none (.block (.list (ps.map Prod.snd) .forgotten))) where
  start := ⟨_, _, rfl, rfl, rfl, rfl⟩
  read := by
    intro i j hij
    obtain ⟨k, hfirst, hto⟩ := hij.tail.tail.tail.split
    obtain ⟨l, hlast, hdo⟩ := hto.tail.split
    obtain ⟨m, hblock, hend⟩ := hdo.tail.tail.split
    cases hend.tail.eq_of_nil
    have hfirst := hf.expression hfirst (by rw [hto.head]; rfl)
    have hlast := hl.expression hlast (by rw [hdo.head]; rfl)
    have hstatements := lines_accepted ht hps hne hblock (by rw [hend.head]; rfl) (by rw [hend.head]; simp)
    have hbody := body_block hdo.tail.head hstatements hend.head
    rw [Block.node, hbare, hbare] at hbody
    have hread := accepts_count hij.head hij.tail.head hij.tail.tail.head hfirst hto.head hlast hdo.head hbody
    rw [hbare] at hread
    exact accepts_atom_count hij.head hread

end Forms

end Scriptlet.Grammar
