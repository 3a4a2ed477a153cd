import Scriptlet.Proofs.Grammar.Soundness
/-!
# What is read, from some depth on

`Accepts tokens p i a j` says that the production `p` reads `a` from the token `i` up to the token `j`, at every depth from
some depth on.  An operand is read by each looser production as well, as long as nothing stands after it that the looser
production would join to it (`Accepts.expression_of_atom` and the steps before it).  In front of the operators there is one
lemma for each form, in terms of what its parts accept.
-/
namespace Scriptlet.Grammar

open Production Reading

/-- At every depth from some depth on. -/
def FromDepth (P : Nat → Prop) : Prop := ∃ d₀, ∀ d, d₀ ≤ d → P d

namespace FromDepth

variable {P Q : Nat → Prop}

theorem of_forall (h : ∀ d, P d) : FromDepth P := ⟨0, fun d _ => h d⟩

theorem and (hp : FromDepth P) (hq : FromDepth Q) : FromDepth fun d => P d ∧ Q d := by
  obtain ⟨m, hp⟩ := hp
  obtain ⟨n, hq⟩ := hq
  exact ⟨m + n, fun d hd => ⟨hp d (by omega), hq d (by omega)⟩⟩

theorem mono (hp : FromDepth P) (h : ∀ d, P d → Q d) : FromDepth Q := by
  obtain ⟨m, hp⟩ := hp
  exact ⟨m, fun d hd => h d (hp d hd)⟩

theorem succ (hp : FromDepth P) (h : ∀ d, P d → Q (d + 1)) : FromDepth Q := by
  obtain ⟨m, hp⟩ := hp
  refine ⟨m + 1, fun d hd => ?_⟩
  obtain ⟨e, rfl⟩ : ∃ e, d = e + 1 := ⟨d - 1, by omega⟩
  exact h e (hp e (by omega))

end FromDepth

def Accepts (tokens : List Token) (p : Production) (i : Nat) (a : p.Result) (j : Nat) : Prop :=
  FromDepth fun d => Reads (readAt d p) (.on tokens i) a (.on tokens j)

/-! ## Taking rows apart -/

namespace Covers

variable {tokens : List Token} {i j : Nat} {u v : List Lexeme}

theorem eq_of_nil (h : Covers tokens i [] j) : j = i := by simpa using h.eq_add

theorem lt_length (h : Covers tokens i u j) : i < tokens.length := Nat.lt_of_le_of_lt h.1 h.2.1

theorem head {x : Lexeme} (h : Covers tokens i (x :: u) j) : (Cursor.shown tokens i).lexeme = x := by
  have hij : i < j := by
    have := h.eq_add
    rw [List.length_cons] at this
    omega
  have hcons := between_cons h.lt_length hij
  rw [h.2.2] at hcons
  exact (List.cons.inj hcons).1.symm

theorem tail {x : Lexeme} (h : Covers tokens i (x :: u) j) : Covers tokens (i + 1) u j := by
  have hij : i < j := by
    have := h.eq_add
    rw [List.length_cons] at this
    omega
  have hcons := between_cons h.lt_length hij
  rw [h.2.2] at hcons
  exact ⟨hij, h.2.1, (List.cons.inj hcons).2.symm⟩

theorem split (h : Covers tokens i (u ++ v) j) : ∃ k, Covers tokens i u k ∧ Covers tokens k v j := by
  have hlen := h.eq_add
  rw [List.length_append] at hlen
  have hsplit := between_append tokens (show i ≤ i + u.length by omega) (show i + u.length ≤ j by omega)
  rw [h.2.2] at hsplit
  have hj := h.2.1
  have hu : (between tokens i (i + u.length)).length = u.length := by
    rw [between, List.length_map, List.length_take, List.length_drop]
    omega
  obtain ⟨h₁, h₂⟩ := List.append_inj hsplit hu.symm
  exact ⟨i + u.length, ⟨by omega, by omega, h₁.symm⟩, ⟨by omega, hj, h₂.symm⟩⟩

end Covers

/-! ## Repetition -/

section

variable {tokens : List Token} {σ : Type} {step : σ → Reading (Option σ)}

theorem reads_repeating_none {s : σ} {i : Nat} {c' : Cursor} (hi : i < tokens.length)
    (h : Reads (step s) (.on tokens i) none c') : Reads (repeating step s) (.on tokens i) s c' := by
  have hfuel : tokens.length + 1 - i = (tokens.length - i) + 1 := by omega
  rw [Reads, repeating, Cursor.remaining_on, hfuel, rounds]
  exact reads_bind.2 ⟨none, c', h, reads_pure.2 ⟨rfl, rfl⟩⟩

theorem reads_repeating_some (ha : Advances tokens step) {s t s' : σ} {i : Nat} {c c' : Cursor} (hi : i < tokens.length)
    (h : Reads (step s) (.on tokens i) (some t) c) (h' : Reads (repeating step t) c s' c') :
    Reads (repeating step s) (.on tokens i) s' c' := by
  rw [Reads, repeating_eq ha s hi]
  exact reads_bind.2 ⟨some t, c, h, h'⟩

end

theorem reads_round_none {α σ : Type} {tokens : List Token} {further : Reading α} {joins : Lexeme → Bool}
    (add : σ → Lexeme → α → σ) {s : σ} {i : Nat} (h : joins (Cursor.shown tokens i).lexeme = false) :
    Reads (round joins add further s) (.on tokens i) none (.on tokens i) := by
  have hno : ¬joins (Cursor.on tokens i).current.lexeme = true := by
    rw [Cursor.on_current, h]
    exact Bool.false_ne_true
  rw [reads_lexeme_bind, if_neg hno]
  exact reads_pure.2 ⟨rfl, rfl⟩

theorem reads_round_some {α σ : Type} {tokens : List Token} {further : Reading α} {joins : Lexeme → Bool}
    (add : σ → Lexeme → α → σ) {s : σ} {i : Nat} {op : Lexeme} (hop : (Cursor.shown tokens i).lexeme = op)
    (hjoins : joins op = true) {a : α} {c' : Cursor} (h : Reads further (.on tokens (i + 1)) a c') :
    Reads (round joins add further s) (.on tokens i) (some (add s op a)) c' := by
  rw [reads_lexeme_bind, Cursor.on_current, hop, if_pos hjoins, reads_take_bind, Cursor.next_on]
  exact reads_bind.2 ⟨a, c', h, reads_pure.2 ⟨rfl, rfl⟩⟩

section Unrolling

variable {tokens : List Token} (ht : Ended tokens) {α σ : Type} {further : Reading α}
  {D : List Lexeme → α → Lexeme → Prop} (hf : Sound tokens further D) {joins : Lexeme → Bool} (heof : joins .eof = false)
  (add : σ → Lexeme → α → σ)

include ht hf heof

/-- One round of a repetition written out. -/
theorem repeating_round_eq (s : σ) {i : Nat} (hi : i < tokens.length) :
    repeating (round joins add further) s (.on tokens i) = (do
      let op ← lexeme
      if joins op then
        take
        let a ← further
        repeating (round joins add further) (add s op a)
      else return s) (.on tokens i) := by
  rw [repeating_eq (advances_round ht hf heof) s hi]
  simp only [Reading.bind_assoc, Reading.ite_bind, Reading.pure_bind]

/-- A repetition stops where nothing joins; else it takes what joins, reads `further`, and goes on. -/
theorem reads_repeating_iff {s t : σ} {i : Nat} (hi : i < tokens.length) {c : Cursor} :
    Reads (repeating (round joins add further) s) (.on tokens i) t c ↔
      joins (Cursor.shown tokens i).lexeme = false ∧ t = s ∧ c = .on tokens i ∨
      joins (Cursor.shown tokens i).lexeme = true ∧ ∃ a j, i < j ∧ j < tokens.length ∧
        Reads further (.on tokens (i + 1)) a (.on tokens j) ∧
        Reads (repeating (round joins add further) (add s (Cursor.shown tokens i).lexeme a)) (.on tokens j) t c := by
  rw [Reads, repeating_round_eq ht hf heof add s hi, ← Reads, reads_lexeme_bind, reads_ite, reads_take_bind, reads_pure,
    Cursor.next_on, Cursor.on_current, Bool.not_eq_true, or_comm]
  refine or_congr_right (and_congr_right fun hj => ?_)
  have hone := Covers.one ht (i := i) rfl (fun he => by rw [he, heof] at hj; cases hj)
  constructor
  · intro h
    obtain ⟨a, c₁, ha, h⟩ := reads_bind.1 h
    obtain ⟨j, _, rfl, hij, _⟩ := hf hone.2.1 ha
    exact ⟨a, j, hij.1, hij.2.1, ha, h⟩
  · rintro ⟨a, j, _, _, ha, h⟩
    exact reads_bind.2 ⟨a, _, ha, h⟩

end Unrolling

section Chains

variable {tokens : List Token} {operand further : Reading Node} {joins : Lexeme → Bool} {i j k : Nat} {l r : Node}

/-- An operand alone. -/
theorem reads_chain_one (h : Reads operand (.on tokens i) l (.on tokens j)) (hj : j < tokens.length)
    (hnext : joins (Cursor.shown tokens j).lexeme = false) :
    Reads (chain operand further joins) (.on tokens i) l (.on tokens j) := by
  exact reads_bind.2 ⟨l, _, h, reads_repeating_none hj (reads_round_none Node.binary hnext)⟩

/-- Two operands that an operator joins. -/
theorem reads_chain_two (ht : Ended tokens) {D : List Lexeme → Node → Lexeme → Prop} (hf : Sound tokens further D)
    (heof : joins .eof = false) (hl : Reads operand (.on tokens i) l (.on tokens j)) (hj : j < tokens.length)
    {op : Lexeme} (hop : (Cursor.shown tokens j).lexeme = op) (hjoins : joins op = true)
    (hr : Reads further (.on tokens (j + 1)) r (.on tokens k)) (hk : k < tokens.length)
    (hnext : joins (Cursor.shown tokens k).lexeme = false) :
    Reads (chain operand further joins) (.on tokens i) (.binary l op r) (.on tokens k) := by
  refine reads_bind.2 ⟨l, _, hl, reads_repeating_some (advances_round ht hf heof) hj ?_
    (reads_repeating_none hk (reads_round_none Node.binary hnext))⟩
  exact reads_round_some Node.binary hop hjoins hr

end Chains

/-! ## From tight to loose -/

/-- The lexeme would go on with an operand that stands before it. -/
def continues (l : Lexeme) : Bool :=
  l.isSymbol .openParen || joinsFactors l || joinsTerms l || joinsComparands l || joinsConditions l

/-- The lexeme begins a form looser than a sum. -/
def leads (l : Lexeme) : Bool := l.isKeyword .not || l.isKeyword .var

theorem isSymbol_power_of_joinsFactors {l : Lexeme} (h : joinsFactors l = false) : l.isSymbol .power = false := by
  rw [Bool.eq_false_iff]
  intro hl
  rw [Lexeme.isSymbol_iff.1 hl] at h
  cases h

section Climbing

variable {tokens : List Token} {i j d : Nat} {n : Node}

theorem reads_call (h : Reads (readAt d .atom) (.on tokens i) n (.on tokens j))
    (hnext : (Cursor.shown tokens j).lexeme.isSymbol .openParen = false) :
    Reads (readAt (d + 1) .call) (.on tokens i) n (.on tokens j) := by
  refine reads_bind.2 ⟨n, _, h, ?_⟩
  rw [reads_lexeme_bind, Cursor.on_current, if_neg (by rw [hnext]; exact Bool.false_ne_true)]
  exact reads_pure.2 ⟨rfl, rfl⟩

theorem accepts_call (h : Accepts tokens .atom i n j)
    (hnext : (Cursor.shown tokens j).lexeme.isSymbol .openParen = false) : Accepts tokens .call i n j :=
  h.succ fun _ h => reads_call h hnext

theorem accepts_power (h : Accepts tokens .call i n j) (hj : j < tokens.length)
    (hnext : (Cursor.shown tokens j).lexeme.isSymbol .power = false) : Accepts tokens .power i n j :=
  h.succ fun _ h => reads_chain_one h hj hnext

theorem reads_factor (h : Reads (readAt d .power) (.on tokens i) n (.on tokens j))
    (hstart : (Cursor.shown tokens i).lexeme.isSymbol .minus = false) :
    Reads (readAt (d + 1) .factor) (.on tokens i) n (.on tokens j) := by
  show Reads (factorForm (readAt d)) _ _ _
  rw [factorForm, reads_current_bind, Cursor.on_current, if_neg (by rw [hstart]; exact Bool.false_ne_true)]
  exact h

theorem accepts_factor (h : Accepts tokens .power i n j)
    (hstart : (Cursor.shown tokens i).lexeme.isSymbol .minus = false) : Accepts tokens .factor i n j :=
  h.succ fun _ h => reads_factor h hstart

theorem accepts_product (h : Accepts tokens .factor i n j) (hj : j < tokens.length)
    (hnext : joinsFactors (Cursor.shown tokens j).lexeme = false) : Accepts tokens .product i n j :=
  h.succ fun _ h => reads_chain_one h hj hnext

theorem accepts_sum (h : Accepts tokens .product i n j) (hj : j < tokens.length)
    (hnext : joinsTerms (Cursor.shown tokens j).lexeme = false) : Accepts tokens .sum i n j :=
  h.succ fun _ h => reads_chain_one h hj hnext

theorem reads_comparands (h : Reads (chain (readAt d .sum) (readAt d .sum) joinsComparands) (.on tokens i) n (.on tokens j))
    (hstart : (Cursor.shown tokens i).lexeme.isKeyword .not = false) :
    Reads (readAt (d + 1) .comparison) (.on tokens i) n (.on tokens j) := by
  show Reads (comparisonForm (readAt d)) _ _ _
  rw [comparisonForm, reads_current_bind, Cursor.on_current, if_neg (by rw [hstart]; exact Bool.false_ne_true),
    reads_relabel]
  exact h

theorem reads_comparison (h : Reads (readAt d .sum) (.on tokens i) n (.on tokens j)) (hj : j < tokens.length)
    (hstart : (Cursor.shown tokens i).lexeme.isKeyword .not = false)
    (hnext : joinsComparands (Cursor.shown tokens j).lexeme = false) :
    Reads (readAt (d + 1) .comparison) (.on tokens i) n (.on tokens j) :=
  reads_comparands (reads_chain_one h hj hnext) hstart

theorem accepts_comparison (h : Accepts tokens .sum i n j) (hj : j < tokens.length)
    (hstart : (Cursor.shown tokens i).lexeme.isKeyword .not = false)
    (hnext : joinsComparands (Cursor.shown tokens j).lexeme = false) : Accepts tokens .comparison i n j :=
  h.succ fun _ h => reads_comparison h hj hstart hnext

theorem reads_conditions
    (h : Reads (chain (readAt d .comparison) (readAt d .comparison) joinsConditions) (.on tokens i) n (.on tokens j))
    (hstart : (Cursor.shown tokens i).lexeme.isKeyword .var = false) :
    Reads (readAt (d + 1) .expression) (.on tokens i) n (.on tokens j) := by
  show Reads (expressionForm (readAt d)) _ _ _
  rw [expressionForm, reads_lexeme_bind, Cursor.on_current, if_neg (by rw [hstart]; exact Bool.false_ne_true),
    reads_relabel]
  exact h

theorem reads_expression (h : Reads (readAt d .comparison) (.on tokens i) n (.on tokens j)) (hj : j < tokens.length)
    (hstart : (Cursor.shown tokens i).lexeme.isKeyword .var = false)
    (hnext : joinsConditions (Cursor.shown tokens j).lexeme = false) :
    Reads (readAt (d + 1) .expression) (.on tokens i) n (.on tokens j) :=
  reads_conditions (reads_chain_one h hj hnext) hstart

theorem accepts_expression (h : Accepts tokens .comparison i n j) (hj : j < tokens.length)
    (hstart : (Cursor.shown tokens i).lexeme.isKeyword .var = false)
    (hnext : joinsConditions (Cursor.shown tokens j).lexeme = false) : Accepts tokens .expression i n j :=
  h.succ fun _ h => reads_expression h hj hstart hnext

end Climbing

section Loosening

variable {tokens : List Token} {i j : Nat} {n : Node} (hj : j < tokens.length)
  (hstart : leads (Cursor.shown tokens i).lexeme = false) (hnext : continues (Cursor.shown tokens j).lexeme = false)

include hj hstart hnext

theorem expression_of_comparison (h : Accepts tokens .comparison i n j) : Accepts tokens .expression i n j := by
  simp only [leads, continues, Bool.or_eq_false_iff] at hstart hnext
  exact accepts_expression h hj hstart.2 hnext.2

theorem expression_of_sum (h : Accepts tokens .sum i n j) : Accepts tokens .expression i n j := by
  refine expression_of_comparison hj hstart hnext ?_
  simp only [leads, continues, Bool.or_eq_false_iff] at hstart hnext
  exact accepts_comparison h hj hstart.1 hnext.1.2

theorem expression_of_product (h : Accepts tokens .product i n j) : Accepts tokens .expression i n j := by
  refine expression_of_sum hj hstart hnext ?_
  simp only [continues, Bool.or_eq_false_iff] at hnext
  exact accepts_sum h hj hnext.1.1.2

theorem expression_of_factor (h : Accepts tokens .factor i n j) : Accepts tokens .expression i n j := by
  refine expression_of_product hj hstart hnext ?_
  simp only [continues, Bool.or_eq_false_iff] at hnext
  exact accepts_product h hj hnext.1.1.1.2

variable (hminus : (Cursor.shown tokens i).lexeme.isSymbol .minus = false)

include hminus

theorem expression_of_power (h : Accepts tokens .power i n j) : Accepts tokens .expression i n j :=
  expression_of_factor hj hstart hnext (accepts_factor h hminus)

theorem expression_of_call (h : Accepts tokens .call i n j) : Accepts tokens .expression i n j := by
  refine expression_of_power hj hstart hnext hminus ?_
  simp only [continues, Bool.or_eq_false_iff] at hnext
  exact accepts_power h hj (isSymbol_power_of_joinsFactors hnext.1.1.1.2)

theorem expression_of_atom (h : Accepts tokens .atom i n j) : Accepts tokens .expression i n j := by
  refine expression_of_call hj hstart hnext hminus ?_
  simp only [continues, Bool.or_eq_false_iff] at hnext
  exact accepts_call h hnext.1.1.1.1

end Loosening

/-! ## The forms -/

section Forms

variable {tokens : List Token} {i j k d : Nat} {n : Node}

theorem reads_number {x : Numeral} (h : (Cursor.shown tokens i).lexeme = .numeral x) :
    Reads (readAt (d + 1) .atom) (.on tokens i) (.number x (Cursor.shown tokens i).span) (.on tokens (i + 1)) := by
  show Reads (atomForm (readAt d)) _ _ _
  simp only [atomForm, reads_current_bind, Cursor.on_current, h, reads_take_bind, reads_pure, Cursor.next_on, and_self]

theorem accepts_number {x : Numeral} (h : (Cursor.shown tokens i).lexeme = .numeral x) :
    Accepts tokens .atom i (.number x (Cursor.shown tokens i).span) (i + 1) :=
  FromDepth.succ (.of_forall fun _ => trivial) fun _ _ => reads_number h

theorem accepts_string {s : String} (h : (Cursor.shown tokens i).lexeme = .string s) :
    Accepts tokens .atom i (.string s (Cursor.shown tokens i).span) (i + 1) := by
  refine FromDepth.succ (.of_forall fun _ => trivial) fun d _ => ?_
  show Reads (atomForm (readAt d)) _ _ _
  simp only [atomForm, reads_current_bind, Cursor.on_current, h, reads_take_bind, reads_pure, Cursor.next_on, and_self]

theorem accepts_access {x : String} (h : (Cursor.shown tokens i).lexeme = .name x) :
    Accepts tokens .atom i (.access ⟨x, (Cursor.shown tokens i).span⟩) (i + 1) := by
  refine FromDepth.succ (.of_forall fun _ => trivial) fun d _ => ?_
  show Reads (atomForm (readAt d)) _ _ _
  simp only [atomForm, reads_current_bind, Cursor.on_current, h, reads_take_bind, reads_pure, Cursor.next_on, and_self]

theorem accepts_parenthesised (hopen : (Cursor.shown tokens i).lexeme = .symbol .openParen)
    (h : Accepts tokens .expression (i + 1) n j) (hclose : (Cursor.shown tokens j).lexeme = .symbol .closeParen) :
    Accepts tokens .atom i n (j + 1) := by
  refine h.succ fun d h => ?_
  show Reads (atomForm (readAt d)) _ _ _
  simp only [atomForm, reads_current_bind, Cursor.on_current, hopen, parenthesised, reads_take_bind, Cursor.next_on]
  refine reads_bind.2 ⟨n, _, h, ?_⟩
  simp only [reads_expectSymbol_bind, Cursor.on_current, hclose, reads_pure, Cursor.next_on, and_self]

theorem reads_atom_list (hl : (Cursor.shown tokens i).lexeme = .symbol .openSquare)
    (h : Reads (readAt d .list) (.on tokens i) n (.on tokens j)) :
    Reads (readAt (d + 1) .atom) (.on tokens i) n (.on tokens j) := by
  show Reads (atomForm (readAt d)) _ _ _
  simpa only [atomForm, reads_current_bind, Cursor.on_current, hl] using h

theorem accepts_atom_list (hl : (Cursor.shown tokens i).lexeme = .symbol .openSquare) (h : Accepts tokens .list i n j) :
    Accepts tokens .atom i n j :=
  h.succ fun _ h => reads_atom_list hl h

theorem accepts_atom_choice (hl : (Cursor.shown tokens i).lexeme = .keyword .if_) (h : Accepts tokens .choice i n j) :
    Accepts tokens .atom i n j := by
  refine h.succ fun d h => ?_
  show Reads (atomForm (readAt d)) _ _ _
  simpa only [atomForm, reads_current_bind, Cursor.on_current, hl] using h

theorem accepts_atom_count (hl : (Cursor.shown tokens i).lexeme = .keyword .for_) (h : Accepts tokens .count i n j) :
    Accepts tokens .atom i n j := by
  refine h.succ fun d h => ?_
  show Reads (atomForm (readAt d)) _ _ _
  simpa only [atomForm, reads_current_bind, Cursor.on_current, hl] using h

theorem accepts_atom_function (hl : (Cursor.shown tokens i).lexeme = .keyword .fn)
    (h : Accepts tokens .function i n j) : Accepts tokens .atom i n j := by
  refine h.succ fun d h => ?_
  show Reads (atomForm (readAt d)) _ _ _
  simpa only [atomForm, reads_current_bind, Cursor.on_current, hl] using h

theorem accepts_assign {x : String} (hvar : (Cursor.shown tokens i).lexeme = .keyword .var)
    (hx : (Cursor.shown tokens (i + 1)).lexeme = .name x) (heq : (Cursor.shown tokens (i + 2)).lexeme = .symbol .equals)
    (h : Accepts tokens .expression (i + 3) n j) :
    Accepts tokens .expression i (.assign ⟨x, (Cursor.shown tokens (i + 1)).span⟩ n) j := by
  refine h.succ fun d h => ?_
  show Reads (expressionForm (readAt d)) _ _ _
  rw [expressionForm, reads_lexeme_bind, Cursor.on_current, if_pos (Lexeme.isKeyword_iff.2 hvar), reads_take_bind,
    Cursor.next_on]
  refine reads_bind.2 ⟨⟨x, (Cursor.shown tokens (i + 1)).span⟩, _, reads_expectName.2 ⟨hx, rfl, rfl⟩, ?_⟩
  rw [Cursor.next_on, reads_expectSymbol_bind, Cursor.next_on]
  exact ⟨heq, reads_bind.2 ⟨n, _, h, reads_pure.2 ⟨rfl, rfl⟩⟩⟩

theorem accepts_negation (hnot : (Cursor.shown tokens i).lexeme = .keyword .not)
    (h : Accepts tokens .comparison (i + 1) n j) : Accepts tokens .comparison i (.unary (Cursor.shown tokens i) n) j := by
  refine h.succ fun d h => ?_
  show Reads (comparisonForm (readAt d)) _ _ _
  rw [comparisonForm, reads_current_bind, Cursor.on_current, if_pos (Lexeme.isKeyword_iff.2 hnot), reads_take_bind,
    Cursor.next_on]
  exact reads_bind.2 ⟨n, _, h, reads_pure.2 ⟨rfl, rfl⟩⟩

theorem reads_opposite (hminus : (Cursor.shown tokens i).lexeme = .symbol .minus)
    (h : Reads (readAt d .factor) (.on tokens (i + 1)) n (.on tokens j)) :
    Reads (readAt (d + 1) .factor) (.on tokens i) (.unary (Cursor.shown tokens i) n) (.on tokens j) := by
  show Reads (factorForm (readAt d)) _ _ _
  rw [factorForm, reads_current_bind, Cursor.on_current, if_pos (Lexeme.isSymbol_iff.2 hminus), reads_take_bind,
    Cursor.next_on]
  exact reads_bind.2 ⟨n, _, h, reads_pure.2 ⟨rfl, rfl⟩⟩

theorem accepts_opposite (hminus : (Cursor.shown tokens i).lexeme = .symbol .minus)
    (h : Accepts tokens .factor (i + 1) n j) : Accepts tokens .factor i (.unary (Cursor.shown tokens i) n) j :=
  h.succ fun _ h => reads_opposite hminus h

end Forms

/-! ## Rows -/

section Rows

variable {tokens : List Token} (ht : Ended tokens) {α : Type} {item : Nat → Reading α}
  {D : List Lexeme → α → Lexeme → Prop} (hitem : ∀ d, Sound tokens (item d) D) {follows : Lexeme → Bool}
  (hcomma : follows (.symbol .comma) = true)

/-- In front of a lexeme that may follow, the lexemes are read to the result. -/
def Piece (tokens : List Token) (item : Nat → Reading α) (follows : Lexeme → Bool) (u : List Lexeme) (a : α) : Prop :=
  ∀ i j, Covers tokens i u j → follows (Cursor.shown tokens j).lexeme = true →
    FromDepth fun d => Reads (item d) (.on tokens i) a (.on tokens j)

include hcomma in
/-- After a piece stands a comma or what follows the row. -/
theorem follows_of_covers_more {ps : List (List Lexeme × α)} {i j : Nat}
    (h : Covers tokens i (ps.flatMap fun p => .symbol .comma :: p.1) j)
    (hfollows : follows (Cursor.shown tokens j).lexeme = true) : follows (Cursor.shown tokens i).lexeme = true := by
  cases ps with
  | nil =>
    cases h.eq_of_nil
    exact hfollows
  | cons p ps =>
    rw [h.head]
    exact hcomma

include ht hitem hcomma

theorem moreItems_accepted (ps : List (List Lexeme × α)) (hps : ∀ p ∈ ps, Piece tokens item follows p.1 p.2)
    {i j : Nat} (h : Covers tokens i (ps.flatMap fun p => .symbol .comma :: p.1) j)
    (hfollows : follows (Cursor.shown tokens j).lexeme = true)
    (hnext : (Cursor.shown tokens j).lexeme.isSymbol .comma = false) (read : List α) :
    FromDepth fun d => Reads (moreItems (item d) read) (.on tokens i) ((ps.map Prod.snd).reverse ++ read) (.on tokens j) := by
  induction ps generalizing i read with
  | nil =>
    cases h.eq_of_nil
    exact .of_forall fun d => reads_repeating_none h.2.1 (reads_round_none (fun items _ a => a :: items) hnext)
  | cons p ps ih =>
    have hop := h.head
    obtain ⟨k, hk, hrest⟩ := h.tail.split
    have hp := hps p List.mem_cons_self (i + 1) k hk (follows_of_covers_more hcomma hrest hfollows)
    have hps := ih (fun q hq => hps q (List.mem_cons_of_mem p hq)) hrest (p.2 :: read)
    refine (hp.and hps).mono fun d ⟨hp, hps⟩ => ?_
    rw [List.map_cons, List.reverse_cons, List.append_assoc]
    exact reads_repeating_some (advances_round ht (hitem d) rfl) h.lt_length
      (reads_round_some (fun items _ a => a :: items) hop rfl hp) hps

theorem commaSeparated_accepted {u : List Lexeme} {a : α} (hu : Piece tokens item follows u a)
    (ps : List (List Lexeme × α)) (hps : ∀ p ∈ ps, Piece tokens item follows p.1 p.2) {i j : Nat}
    (h : Covers tokens i (u ++ ps.flatMap fun p => .symbol .comma :: p.1) j)
    (hfollows : follows (Cursor.shown tokens j).lexeme = true)
    (hnext : (Cursor.shown tokens j).lexeme.isSymbol .comma = false) :
    FromDepth fun d => Reads (item d).commaSeparated (.on tokens i) (a :: ps.map Prod.snd) (.on tokens j) := by
  obtain ⟨k, hk, hrest⟩ := h.split
  have hu := hu i k hk (follows_of_covers_more hcomma hrest hfollows)
  have hmore := moreItems_accepted ht hitem hcomma ps hps hrest hfollows hnext [a]
  refine (hu.and hmore).mono fun d ⟨hu, hmore⟩ => ?_
  refine reads_bind.2 ⟨a, _, hu, reads_bind.2 ⟨_, _, hmore, reads_pure.2 ⟨?_, rfl⟩⟩⟩
  rw [List.reverse_append, List.reverse_reverse]
  rfl

end Rows

section Sequences

variable {tokens : List Token} {i j k d : Nat} {n : Node} {ns : List Node}

theorem reads_list_nil (hopen : (Cursor.shown tokens i).lexeme = .symbol .openSquare)
    (hclose : (Cursor.shown tokens (i + 1)).lexeme = .symbol .closeSquare) :
    Reads (readAt (d + 1) .list) (.on tokens i)
      (.list [] ⟨(Cursor.shown tokens i).span.start, (Cursor.shown tokens (i + 2)).span.stop⟩) (.on tokens (i + 2)) := by
  show Reads (listForm (readAt d)) _ _ _
  rw [listForm, reads_current_bind, reads_expectSymbol_bind, Cursor.next_on, reads_lexeme_bind]
  refine ⟨hopen, ?_⟩
  rw [Cursor.on_current tokens (i + 1), if_pos (Lexeme.isSymbol_iff.2 hclose), reads_take_bind, Cursor.next_on,
    reads_pure_bind, reads_current_bind]
  exact reads_pure.2 ⟨rfl, rfl⟩

theorem accepts_list_nil (hopen : (Cursor.shown tokens i).lexeme = .symbol .openSquare)
    (hclose : (Cursor.shown tokens (i + 1)).lexeme = .symbol .closeSquare) :
    Accepts tokens .list i
      (.list [] ⟨(Cursor.shown tokens i).span.start, (Cursor.shown tokens (i + 2)).span.stop⟩) (i + 2) :=
  FromDepth.succ (.of_forall fun _ => trivial) fun _ _ => reads_list_nil hopen hclose

theorem reads_list (hopen : (Cursor.shown tokens i).lexeme = .symbol .openSquare)
    (hstart : (Cursor.shown tokens (i + 1)).lexeme.isSymbol .closeSquare = false)
    (h : Reads (readAt d .expression).commaSeparated (.on tokens (i + 1)) ns (.on tokens j))
    (hclose : (Cursor.shown tokens j).lexeme = .symbol .closeSquare) :
    Reads (readAt (d + 1) .list) (.on tokens i)
      (.list ns ⟨(Cursor.shown tokens i).span.start, (Cursor.shown tokens (j + 1)).span.stop⟩) (.on tokens (j + 1)) := by
  show Reads (listForm (readAt d)) _ _ _
  rw [listForm, reads_current_bind, reads_expectSymbol_bind, Cursor.next_on, reads_lexeme_bind]
  refine ⟨hopen, ?_⟩
  rw [Cursor.on_current tokens (i + 1), if_neg (by rw [hstart]; exact Bool.false_ne_true)]
  refine reads_bind.2 ⟨ns, _, h, ?_⟩
  rw [reads_expectSymbol_bind, Cursor.next_on, reads_pure_bind, reads_current_bind]
  exact ⟨hclose, reads_pure.2 ⟨rfl, rfl⟩⟩

theorem accepts_list (hopen : (Cursor.shown tokens i).lexeme = .symbol .openSquare)
    (hstart : (Cursor.shown tokens (i + 1)).lexeme.isSymbol .closeSquare = false)
    (h : FromDepth fun d => Reads (readAt d .expression).commaSeparated (.on tokens (i + 1)) ns (.on tokens j))
    (hclose : (Cursor.shown tokens j).lexeme = .symbol .closeSquare) :
    Accepts tokens .list i
      (.list ns ⟨(Cursor.shown tokens i).span.start, (Cursor.shown tokens (j + 1)).span.stop⟩) (j + 1) :=
  h.succ fun _ h => reads_list hopen hstart h hclose

theorem accepts_application (h : Accepts tokens .atom i n j)
    (hopen : (Cursor.shown tokens j).lexeme = .symbol .openParen)
    (hargs : FromDepth fun d => Reads (argumentsForm (readAt d)) (.on tokens (j + 1)) ns (.on tokens k)) :
    Accepts tokens .call i (.call n ns) k := by
  refine (h.and hargs).succ fun d ⟨h, hargs⟩ => ?_
  show Reads (callForm (readAt d)) _ _ _
  refine reads_bind.2 ⟨n, _, h, ?_⟩
  rw [reads_lexeme_bind, Cursor.on_current, if_pos (Lexeme.isSymbol_iff.2 hopen), reads_take_bind, Cursor.next_on]
  exact reads_bind.2 ⟨ns, _, hargs, reads_pure.2 ⟨rfl, rfl⟩⟩

theorem arguments_nil (hclose : (Cursor.shown tokens i).lexeme = .symbol .closeParen) :
    FromDepth fun d => Reads (argumentsForm (readAt d)) (.on tokens i) [] (.on tokens (i + 1)) := by
  refine .of_forall fun d => ?_
  rw [argumentsForm, reads_lexeme_bind, Cursor.on_current, if_pos (Lexeme.isSymbol_iff.2 hclose), reads_take_bind,
    Cursor.next_on]
  exact reads_pure.2 ⟨rfl, rfl⟩

theorem arguments_row (hstart : (Cursor.shown tokens i).lexeme.isSymbol .closeParen = false)
    (h : FromDepth fun d => Reads (readAt d .expression).commaSeparated (.on tokens i) ns (.on tokens j))
    (hclose : (Cursor.shown tokens j).lexeme = .symbol .closeParen) :
    FromDepth fun d => Reads (argumentsForm (readAt d)) (.on tokens i) ns (.on tokens (j + 1)) := by
  refine h.mono fun d h => ?_
  rw [argumentsForm, reads_lexeme_bind, Cursor.on_current, if_neg (by rw [hstart]; exact Bool.false_ne_true)]
  refine reads_bind.2 ⟨ns, _, h, ?_⟩
  rw [reads_expectSymbol_bind, Cursor.next_on]
  exact ⟨hclose, reads_pure.2 ⟨rfl, rfl⟩⟩

end Sequences

/-! ## Statements -/

section Statements

variable {tokens : List Token} (ht : Ended tokens) {follows : Lexeme → Bool} (hline : follows .newline = true)

theorem reads_newlines_zero {i : Nat} (hi : i < tokens.length) (h : (Cursor.shown tokens i).lexeme ≠ .newline) :
    Reads newlines (.on tokens i) 0 (.on tokens i) :=
  reads_repeating_none hi (reads_newline_round.2 (.inr ⟨h, rfl, rfl⟩))

include ht in
theorem reads_newlines_one {i : Nat} (h : (Cursor.shown tokens i).lexeme = .newline)
    (hnext : (Cursor.shown tokens (i + 1)).lexeme ≠ .newline) :
    Reads newlines (.on tokens i) 1 (.on tokens (i + 1)) := by
  have hi := (Covers.one ht h (by simp)).2.1
  refine reads_repeating_some (advances_newline ht) (by omega) (reads_newline_round.2 (.inl ⟨h, rfl, rfl⟩)) ?_
  exact reads_repeating_none hi (reads_newline_round.2 (.inr ⟨hnext, rfl, rfl⟩))

include ht in
theorem reads_newlines {i j n : Nat}
    (h : Covers tokens i (List.replicate n .newline) j) (hstop : (Cursor.shown tokens j).lexeme ≠ .newline) :
    Reads newlines (.on tokens i) n (.on tokens j) := by
  suffices hcount : ∀ m, Reads (repeating (fun n => do
      if (← lexeme).isNewline then
        take
        return some (n + 1)
      else return none) m) (.on tokens i) (m + n) (.on tokens j) by
    have := hcount 0
    rwa [Nat.zero_add] at this
  induction n generalizing i with
  | zero =>
    intro m
    cases h.eq_of_nil
    exact reads_repeating_none h.2.1 (reads_newline_round.2 (.inr ⟨hstop, rfl, rfl⟩))
  | succ n ih =>
    intro m
    rw [List.replicate_succ] at h
    have hmore := ih h.tail (m + 1)
    rw [show m + 1 + n = m + (n + 1) by omega] at hmore
    exact reads_repeating_some (advances_newline ht) h.lt_length (reads_newline_round.2 (.inl ⟨h.head, rfl, rfl⟩)) hmore

/-- A statement in front of a newline is read after the newlines before it. -/
theorem nextStatement_read {d i j k m : Nat} {n : Node} (items : List Node)
    (hn : Reads newlines (.on tokens i) (m + 1) (.on tokens k))
    (h : Reads (readAt d .expression) (.on tokens k) n (.on tokens j)) (hne : tokens ≠ []) :
    Reads (nextStatement (readAt d) ⟨items, 0, true⟩) (.on tokens i) (some ⟨n :: items, 0, true⟩) (.on tokens j) := by
  have hback := readAt_follows_self d .expression
  have hread := (reads_attempt hback hne).2 (.inl ⟨n, rfl, h⟩)
  exact reads_bind.2 ⟨m + 1, _, hn, reads_bind.2 ⟨_, _, hread, reads_pure.2 ⟨rfl, rfl⟩⟩⟩

/-- Where no statement begins, the row ends. -/
theorem nextStatement_handedBack {d i k m : Nat} (items : List Node) (hd : Production.expression.rank < d)
    (hn : Reads newlines (.on tokens i) (m + 1) (.on tokens k))
    (hstop : (Cursor.shown tokens k).lexeme.starts = false) (hne : tokens ≠ []) :
    Reads (nextStatement (readAt d) ⟨items, 0, true⟩) (.on tokens i) (some ⟨items, 0, false⟩) (.on tokens k) := by
  have hback := readAt_follows_self d .expression
  obtain ⟨refusal, he, hr⟩ := readAt_refuses d .expression rfl
  obtain ⟨e, he⟩ := he hd
  have hr := hr (.on tokens k) hstop
  rw [he] at hr
  have hread := (reads_attempt hback hne).2 (.inr ⟨e, _, rfl, by rw [hr], rfl⟩)
  rw [hr] at hread
  exact reads_bind.2 ⟨m + 1, _, hn, reads_bind.2 ⟨_, _, hread, reads_pure.2 ⟨rfl, rfl⟩⟩⟩

include ht in
theorem advances_statements (d : Nat) : Advances tokens (nextStatement (readAt d)) :=
  advances_nextStatement ht (readAt_sound ht d) (readAt_follows_self d .expression)

include ht hline

/-- Statements on lines of their own, after the newline of the line before. -/
theorem statementRow_accepted (ps : List (List Lexeme × Node))
    (hps : ∀ p ∈ ps, Piece tokens (fun d => readAt d .expression) follows p.1 p.2)
    (hheads : ∀ p ∈ ps, ∃ x u, p.1 = x :: u ∧ x ≠ .newline) {i j : Nat}
    (h : Covers tokens i (.newline :: ps.flatMap fun p => p.1 ++ [.newline]) j)
    (hstop : (Cursor.shown tokens j).lexeme.starts = false) (hstop' : (Cursor.shown tokens j).lexeme ≠ .newline)
    (items : List Node) :
    FromDepth fun d => Reads (repeating (nextStatement (readAt d)) ⟨items, 0, true⟩) (.on tokens i)
      ⟨(ps.map Prod.snd).reverse ++ items, 0, false⟩ (.on tokens j) := by
  induction ps generalizing i items with
  | nil =>
    cases h.tail.eq_of_nil
    have hn := reads_newlines_one ht h.head hstop'
    refine ⟨8, fun d hd => ?_⟩
    refine reads_repeating_some (advances_statements ht d) h.lt_length
      (nextStatement_handedBack items hd hn hstop ht.ne_nil) (reads_repeating_none h.2.1 ?_)
    exact reads_bind.2 ⟨0, _, reads_newlines_zero h.2.1 hstop', reads_pure.2 ⟨rfl, rfl⟩⟩
  | cons p ps ih =>
    rw [List.flatMap_cons, List.append_assoc] at h
    obtain ⟨k, hk, hrest⟩ := h.tail.split
    obtain ⟨x, u, hx, hne⟩ := hheads p List.mem_cons_self
    have hn := reads_newlines_one ht h.head (by rw [hx] at hk; rw [hk.head]; exact hne)
    have hp := hps p List.mem_cons_self (i + 1) k hk (by rw [hrest.head]; exact hline)
    have hps := ih (fun q hq => hps q (List.mem_cons_of_mem p hq)) (fun q hq => hheads q (List.mem_cons_of_mem p hq))
      hrest (p.2 :: items)
    refine (hp.and hps).mono fun d ⟨hp, hps⟩ => ?_
    rw [List.map_cons, List.reverse_cons, List.append_assoc]
    exact reads_repeating_some (advances_statements ht d) h.lt_length (nextStatement_read items hn hp ht.ne_nil) hps

theorem accepts_statements {x : Lexeme} {u : List Lexeme} {n : Node} (hx : x ≠ .newline)
    (hn : Piece tokens (fun d => readAt d .expression) follows (x :: u) n) (ps : List (List Lexeme × Node))
    (hps : ∀ p ∈ ps, Piece tokens (fun d => readAt d .expression) follows p.1 p.2)
    (hheads : ∀ p ∈ ps, ∃ x u, p.1 = x :: u ∧ x ≠ .newline) {i j : Nat}
    (h : Covers tokens i (x :: u ++ .newline :: ps.flatMap fun p => p.1 ++ [.newline]) j)
    (hstop : (Cursor.shown tokens j).lexeme.starts = false) (hstop' : (Cursor.shown tokens j).lexeme ≠ .newline) :
    Accepts tokens .statements i
      ⟨n :: ps.map Prod.snd, ⟨(Cursor.shown tokens i).span.start, (Cursor.shown tokens j).span.stop⟩, 0⟩ j := by
  obtain ⟨k, hk, hrest⟩ := h.split
  have hzero := reads_newlines_zero hk.lt_length (by rw [hk.head]; exact hx)
  have hn := hn i k hk (by rw [hrest.head]; exact hline)
  have hrow := statementRow_accepted ht hline ps hps hheads hrest hstop hstop' [n]
  refine (hn.and hrow).succ fun d ⟨hn, hrow⟩ => ?_
  show Reads (statementsForm (readAt d)) _ _ _
  rw [statementsForm, reads_current_bind]
  refine reads_bind.2 ⟨0, _, hzero, reads_bind.2 ⟨n, _, hn, reads_bind.2 ⟨_, _, hrow, ?_⟩⟩⟩
  rw [reads_current_bind, List.reverse_append, List.reverse_reverse]
  exact reads_pure.2 ⟨rfl, rfl⟩

end Statements

/-! ## Bodies, choices, loops and functions -/

section Bodies

variable {tokens : List Token} {i j k l m : Nat} {n first last : Node} {block : Block}

theorem closedBlock_accepted (h : Accepts tokens .statements (i + 1) block j)
    (hend : (Cursor.shown tokens j).lexeme = .keyword .end_) :
    FromDepth fun d => Reads (closedBlock (readAt d)) (.on tokens i) (.block block.node) (.on tokens (j + 1)) := by
  refine h.mono fun d h => ?_
  rw [closedBlock, reads_take_bind, Cursor.next_on]
  refine reads_bind.2 ⟨block, _, h, ?_⟩
  rw [reads_expectKeyword_bind, Cursor.next_on]
  exact ⟨hend, reads_pure.2 ⟨rfl, rfl⟩⟩

theorem body_block (hline : (Cursor.shown tokens i).lexeme = .newline)
    (h : Accepts tokens .statements (i + 1) block j) (hend : (Cursor.shown tokens j).lexeme = .keyword .end_) :
    FromDepth fun d => Reads (bodyForm (readAt d)) (.on tokens i) (.block block.node) (.on tokens (j + 1)) := by
  refine (closedBlock_accepted h hend).mono fun d h => ?_
  rw [bodyForm, reads_lexeme_bind, Cursor.on_current, if_pos (Lexeme.isNewline_iff.2 hline)]
  exact h

theorem body_inline (hline : (Cursor.shown tokens i).lexeme.isNewline = false) (h : Accepts tokens .expression i n j) :
    FromDepth fun d => Reads (bodyForm (readAt d)) (.on tokens i) (.inline n) (.on tokens j) := by
  refine h.mono fun d h => ?_
  rw [bodyForm, reads_lexeme_bind, Cursor.on_current, if_neg (by rw [hline]; exact Bool.false_ne_true)]
  exact reads_bind.2 ⟨n, _, h, reads_pure.2 ⟨rfl, rfl⟩⟩

section Choices

variable {test : Node} {tail : ChoiceTail} {kw : Keyword} (hk : (Cursor.shown tokens i).lexeme = .keyword kw)
  (htest : Accepts tokens .expression (i + 1) test j) (hthen : (Cursor.shown tokens j).lexeme = .keyword .then_)

include hk htest hthen

theorem choiceFrom_inline (hline : (Cursor.shown tokens (j + 1)).lexeme.isNewline = false)
    (h : Accepts tokens .expression (j + 1) n m) (htail : Accepts tokens .choiceTail m tail l) :
    FromDepth fun d => Reads (choiceFrom (readAt d) kw) (.on tokens i) ⟨.mk test (.inline n), tail⟩ (.on tokens l) := by
  refine (htest.and (h.and htail)).mono fun d ⟨htest, h, htail⟩ => ?_
  rw [choiceFrom, reads_expectKeyword_bind, Cursor.next_on]
  refine ⟨hk, reads_bind.2 ⟨test, _, htest, ?_⟩⟩
  rw [reads_expectKeyword_bind, Cursor.next_on, reads_lexeme_bind, Cursor.on_current tokens (j + 1),
    if_neg (by rw [hline]; exact Bool.false_ne_true)]
  exact ⟨hthen, reads_bind.2 ⟨n, _, h, reads_bind.2 ⟨tail, _, htail, reads_pure.2 ⟨rfl, rfl⟩⟩⟩⟩

variable (hline : (Cursor.shown tokens (j + 1)).lexeme = .newline) (h : Accepts tokens .statements (j + 2) block m)

include hline h

theorem choiceFrom_block (hend : (Cursor.shown tokens m).lexeme.isKeyword .end_ = false)
    (htail : Accepts tokens .choiceTail m tail l) :
    FromDepth fun d => Reads (choiceFrom (readAt d) kw) (.on tokens i) ⟨.mk test (.block block.node), tail⟩
      (.on tokens l) := by
  refine (htest.and (h.and htail)).mono fun d ⟨htest, h, htail⟩ => ?_
  rw [choiceFrom, reads_expectKeyword_bind, Cursor.next_on]
  refine ⟨hk, reads_bind.2 ⟨test, _, htest, ?_⟩⟩
  rw [reads_expectKeyword_bind, Cursor.next_on, reads_lexeme_bind, Cursor.on_current tokens (j + 1),
    if_pos (Lexeme.isNewline_iff.2 hline), reads_take_bind, Cursor.next_on]
  refine ⟨hthen, reads_bind.2 ⟨block, _, h, ?_⟩⟩
  rw [reads_lexeme_bind, Cursor.on_current, if_neg (by rw [hend]; exact Bool.false_ne_true)]
  exact reads_bind.2 ⟨tail, _, htail, reads_pure.2 ⟨rfl, rfl⟩⟩

theorem choiceFrom_closed (hend : (Cursor.shown tokens m).lexeme = .keyword .end_) :
    FromDepth fun d => Reads (choiceFrom (readAt d) kw) (.on tokens i) ⟨.mk test (.block block.node), [], none⟩
      (.on tokens (m + 1)) := by
  refine (htest.and h).mono fun d ⟨htest, h⟩ => ?_
  rw [choiceFrom, reads_expectKeyword_bind, Cursor.next_on]
  refine ⟨hk, reads_bind.2 ⟨test, _, htest, ?_⟩⟩
  rw [reads_expectKeyword_bind, Cursor.next_on, reads_lexeme_bind, Cursor.on_current tokens (j + 1),
    if_pos (Lexeme.isNewline_iff.2 hline), reads_take_bind, Cursor.next_on]
  refine ⟨hthen, reads_bind.2 ⟨block, _, h, ?_⟩⟩
  rw [reads_lexeme_bind, Cursor.on_current, if_pos (Lexeme.isKeyword_iff.2 hend), reads_take_bind, Cursor.next_on]
  exact reads_pure.2 ⟨rfl, rfl⟩

end Choices

theorem accepts_choice {c : Choice}
    (h : FromDepth fun d => Reads (choiceFrom (readAt d) .if_) (.on tokens i) c (.on tokens j)) :
    Accepts tokens .choice i c.node j :=
  h.succ fun _ h => reads_bind.2 ⟨c, _, h, reads_pure.2 ⟨rfl, rfl⟩⟩

theorem tail_elif {c : Choice} (helif : (Cursor.shown tokens i).lexeme = .keyword .elif)
    (h : FromDepth fun d => Reads (choiceFrom (readAt d) .elif) (.on tokens i) c (.on tokens j)) :
    Accepts tokens .choiceTail i ⟨c.first :: c.tail.cases, c.tail.otherwise⟩ j := by
  have h : Accepts tokens .elifChoice i c j := h.succ fun _ h => h
  refine h.succ fun d h => ?_
  show Reads (choiceTailForm (readAt d)) _ _ _
  rw [choiceTailForm, reads_lexeme_bind, Cursor.on_current, if_pos (Lexeme.isKeyword_iff.2 helif)]
  exact reads_bind.2 ⟨c, _, h, reads_pure.2 ⟨rfl, rfl⟩⟩

theorem tail_otherwise {body : Option Body} (helif : (Cursor.shown tokens i).lexeme.isKeyword .elif = false)
    (h : Accepts tokens .otherwise i body j) : Accepts tokens .choiceTail i ⟨[], body⟩ j := by
  refine h.succ fun d h => ?_
  show Reads (choiceTailForm (readAt d)) _ _ _
  rw [choiceTailForm, reads_lexeme_bind, Cursor.on_current, if_neg (by rw [helif]; exact Bool.false_ne_true)]
  exact reads_bind.2 ⟨body, _, h, reads_pure.2 ⟨rfl, rfl⟩⟩

theorem accepts_else {body : Body} (helse : (Cursor.shown tokens i).lexeme = .keyword .else_)
    (h : FromDepth fun d => Reads (bodyForm (readAt d)) (.on tokens (i + 1)) body (.on tokens j)) :
    Accepts tokens .otherwise i (some body) j := by
  refine h.succ fun d h => ?_
  show Reads (otherwiseForm (readAt d)) _ _ _
  rw [otherwiseForm, reads_lexeme_bind, Cursor.on_current, if_pos (Lexeme.isKeyword_iff.2 helse), reads_take_bind,
    Cursor.next_on]
  exact reads_bind.2 ⟨body, _, h, reads_pure.2 ⟨rfl, rfl⟩⟩

theorem accepts_no_else (helse : (Cursor.shown tokens i).lexeme.isKeyword .else_ = false) :
    Accepts tokens .otherwise i none i := by
  refine FromDepth.succ (.of_forall fun _ => trivial) fun d _ => ?_
  show Reads (otherwiseForm (readAt d)) _ _ _
  rw [otherwiseForm, reads_lexeme_bind, Cursor.on_current, if_neg (by rw [helse]; exact Bool.false_ne_true)]
  exact reads_pure.2 ⟨rfl, rfl⟩

section Counts

variable {x : String} {body : Body} (hfor : (Cursor.shown tokens i).lexeme = .keyword .for_)
  (hx : (Cursor.shown tokens (i + 1)).lexeme = .name x)
  (heq : (Cursor.shown tokens (i + 2)).lexeme = .symbol .equals) (hfirst : Accepts tokens .expression (i + 3) first j)
  (hto : (Cursor.shown tokens j).lexeme = .keyword .to_) (hlast : Accepts tokens .expression (j + 1) last k)

include hfor hx heq hfirst hto hlast

theorem accepts_count (hdo : (Cursor.shown tokens k).lexeme = .keyword .do_)
    (hbody : FromDepth fun d => Reads (bodyForm (readAt d)) (.on tokens (k + 1)) body (.on tokens l)) :
    Accepts tokens .count i (.count ⟨x, (Cursor.shown tokens (i + 1)).span⟩ first last none body) l := by
  refine (hfirst.and (hlast.and hbody)).succ fun d ⟨hfirst, hlast, hbody⟩ => ?_
  show Reads (countForm (readAt d)) _ _ _
  rw [countForm, reads_expectKeyword_bind, Cursor.next_on]
  refine ⟨hfor, reads_bind.2 ⟨⟨x, (Cursor.shown tokens (i + 1)).span⟩, _, reads_expectName.2 ⟨hx, rfl, rfl⟩, ?_⟩⟩
  rw [Cursor.next_on, reads_expectSymbol_bind, Cursor.next_on]
  refine ⟨heq, reads_bind.2 ⟨first, _, hfirst, ?_⟩⟩
  rw [reads_expectKeyword_bind, Cursor.next_on]
  refine ⟨hto, reads_bind.2 ⟨last, _, hlast, ?_⟩⟩
  rw [reads_lexeme_bind, Cursor.on_current, hdo, if_neg (by decide), reads_pure_bind, reads_expectKeyword_bind,
    Cursor.next_on]
  exact ⟨hdo, reads_bind.2 ⟨body, _, hbody, reads_pure.2 ⟨rfl, rfl⟩⟩⟩

theorem accepts_count_by {step : Node} (hstep : (Cursor.shown tokens k).lexeme = .keyword .step)
    (hby : Accepts tokens .expression (k + 1) step m) (hdo : (Cursor.shown tokens m).lexeme = .keyword .do_)
    (hbody : FromDepth fun d => Reads (bodyForm (readAt d)) (.on tokens (m + 1)) body (.on tokens l)) :
    Accepts tokens .count i (.count ⟨x, (Cursor.shown tokens (i + 1)).span⟩ first last (some step) body) l := by
  refine (hfirst.and (hlast.and (hby.and hbody))).succ fun d ⟨hfirst, hlast, hby, hbody⟩ => ?_
  show Reads (countForm (readAt d)) _ _ _
  rw [countForm, reads_expectKeyword_bind, Cursor.next_on]
  refine ⟨hfor, reads_bind.2 ⟨⟨x, (Cursor.shown tokens (i + 1)).span⟩, _, reads_expectName.2 ⟨hx, rfl, rfl⟩, ?_⟩⟩
  rw [Cursor.next_on, reads_expectSymbol_bind, Cursor.next_on]
  refine ⟨heq, reads_bind.2 ⟨first, _, hfirst, ?_⟩⟩
  rw [reads_expectKeyword_bind, Cursor.next_on]
  refine ⟨hto, reads_bind.2 ⟨last, _, hlast, ?_⟩⟩
  rw [reads_lexeme_bind, Cursor.on_current, if_pos (Lexeme.isKeyword_iff.2 hstep), reads_take_bind, Cursor.next_on]
  refine reads_bind.2 ⟨step, _, hby, ?_⟩
  rw [reads_pure_bind, reads_expectKeyword_bind, Cursor.next_on]
  exact ⟨hdo, reads_bind.2 ⟨body, _, hbody, reads_pure.2 ⟨rfl, rfl⟩⟩⟩

end Counts

section Functions

variable {names : List Name} {name : Option Name}

theorem accepts_named {x : String} (hfn : (Cursor.shown tokens i).lexeme = .keyword .fn)
    (hx : (Cursor.shown tokens (i + 1)).lexeme = .name x)
    (hopen : (Cursor.shown tokens (i + 2)).lexeme = .symbol .openParen)
    (h : FromDepth fun d => Reads (functionRest (readAt d) (some ⟨x, (Cursor.shown tokens (i + 1)).span⟩))
      (.on tokens (i + 3)) n (.on tokens j)) : Accepts tokens .function i n j := by
  refine h.succ fun d h => ?_
  show Reads (functionForm (readAt d)) _ _ _
  rw [functionForm, reads_expectKeyword_bind, Cursor.next_on, reads_lexeme_bind, Cursor.on_current tokens (i + 1), hx]
  refine ⟨hfn, reads_bind.2 ⟨⟨x, (Cursor.shown tokens (i + 1)).span⟩, _, reads_expectName.2 ⟨hx, rfl, rfl⟩, ?_⟩⟩
  rw [Cursor.next_on, reads_expectSymbol_bind, Cursor.next_on, reads_pure_bind]
  exact ⟨hopen, h⟩

theorem accepts_unnamed (hfn : (Cursor.shown tokens i).lexeme = .keyword .fn)
    (hopen : (Cursor.shown tokens (i + 1)).lexeme = .symbol .openParen)
    (h : FromDepth fun d => Reads (functionRest (readAt d) none) (.on tokens (i + 2)) n (.on tokens j)) :
    Accepts tokens .function i n j := by
  refine h.succ fun d h => ?_
  show Reads (functionForm (readAt d)) _ _ _
  rw [functionForm, reads_expectKeyword_bind, Cursor.next_on, reads_lexeme_bind, Cursor.on_current tokens (i + 1), hopen]
  refine ⟨hfn, ?_⟩
  show Reads (expectSymbol .openParen .nameOrOpenParen >>= _) _ _ _
  rw [reads_expectSymbol_bind, Cursor.next_on, reads_pure_bind]
  exact ⟨hopen, h⟩

variable (hnames : Reads parametersForm (.on tokens i) names (.on tokens j))

include hnames

theorem functionRest_arrow (harrow : (Cursor.shown tokens j).lexeme = .symbol .arrow)
    (h : Accepts tokens .expression (j + 1) n k) :
    FromDepth fun d => Reads (functionRest (readAt d) name) (.on tokens i) (.function name names (.inline n))
      (.on tokens k) := by
  refine h.mono fun d h => reads_bind.2 ⟨names, _, hnames, ?_⟩
  rw [reads_lexeme_bind, Cursor.on_current, if_pos (Lexeme.isSymbol_iff.2 harrow), reads_take_bind, Cursor.next_on]
  exact reads_bind.2 ⟨n, _, h, reads_pure.2 ⟨rfl, rfl⟩⟩

theorem functionRest_block (hline : (Cursor.shown tokens j).lexeme = .newline)
    (h : Accepts tokens .statements (j + 1) block k) (hend : (Cursor.shown tokens k).lexeme = .keyword .end_) :
    FromDepth fun d => Reads (functionRest (readAt d) name) (.on tokens i)
      (.function name names (.block block.node)) (.on tokens (k + 1)) := by
  refine (closedBlock_accepted h hend).mono fun d h => reads_bind.2 ⟨names, _, hnames, ?_⟩
  have harrow : ¬(Cursor.shown tokens j).lexeme.isSymbol .arrow = true := by
    rw [hline]
    decide
  rw [reads_lexeme_bind, Cursor.on_current, if_neg harrow, reads_lexeme_bind, Cursor.on_current,
    if_pos (Lexeme.isNewline_iff.2 hline)]
  exact reads_bind.2 ⟨_, _, h, reads_pure.2 ⟨rfl, rfl⟩⟩

end Functions

end Bodies

end Scriptlet.Grammar
