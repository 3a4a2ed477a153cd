import Scriptlet.Proofs.Reading.Success
/-!
# Where expressions begin

Where a lexeme stands with which no expression begins, no production for an expression takes a token: it gives up there and
then (`readAt_refuses`).  Deep enough, it says what it expected instead of giving up for the depth; how deep that is depends
on the rank of the production, the number of productions it goes through until it looks at the lexeme.
-/
namespace Scriptlet

/-- An expression can begin with the lexeme. -/
def Lexeme.starts : Lexeme → Bool
  | .numeral _ | .string _ | .name _ => true
  | .symbol .openParen | .symbol .openSquare | .symbol .minus => true
  | .keyword .var | .keyword .not | .keyword .if_ | .keyword .for_ | .keyword .while_ | .keyword .fn => true
  | _ => false

namespace Grammar

open Production Reading

/-- A refusal worded anew; one for want of depth stays as it is. -/
def Refusal.worded (e : Expected) (span : Span) : Refusal → Refusal
  | .unexpected _ _ => .unexpected e span
  | .tooDeep => .tooDeep

namespace Reading

variable {α β : Type} {named named' : Prop}

/-- Where no expression begins, the reading refuses without taking a token, and says what it expected if it is `named`. -/
def Refuses (named : Prop) (r : Reading α) : Prop :=
  ∃ refusal : Span → Refusal, (named → ∃ e, ∀ span, refusal span = .unexpected e span) ∧
    ∀ c : Cursor, c.current.lexeme.starts = false → r c = ⟨.error (refusal c.current.span), 0, c⟩

namespace Refuses

theorem mono {r : Reading α} (h : Refuses named r) (hn : named' → named) : Refuses named' r := by
  obtain ⟨refusal, he, h⟩ := h
  exact ⟨refusal, fun hn' => he (hn hn'), h⟩

theorem bind {r : Reading α} (h : Refuses named r) (f : α → Reading β) : Refuses named (r >>= f) := by
  obtain ⟨refusal, he, h⟩ := h
  refine ⟨refusal, he, fun c hc => ?_⟩
  show Reading.bind r f c = _
  rw [Reading.bind, h c hc]

theorem relabel {r : Reading α} (h : Refuses named r) (e : Expected) : Refuses named (r.relabel e) := by
  obtain ⟨refusal, he, h⟩ := h
  refine ⟨fun span => (refusal span).worded e span, fun hn => ⟨e, fun span => ?_⟩, fun c hc => ?_⟩
  · obtain ⟨e', he'⟩ := he hn
    simp only [he' span, Refusal.worded]
  · rw [Reading.relabel, h c hc]
    cases hr : refusal c.current.span <;> simp [hr, Refusal.worded]

theorem not_reads {r : Reading α} (h : Refuses named r) {c c' : Cursor} {a : α}
    (hc : c.current.lexeme.starts = false) : ¬Reads r c a c' := by
  obtain ⟨refusal, _, h⟩ := h
  rintro ⟨hr, _⟩
  rw [h c hc] at hr
  cases hr

end Refuses

theorem lexeme_bind_apply (f : Lexeme → Reading α) (c : Cursor) : (lexeme >>= f) c = f c.current.lexeme c := by
  show Reading.bind lexeme f c = _
  simp [Reading.bind, lexeme]

theorem current_bind_apply (f : Token → Reading α) (c : Cursor) : (current >>= f) c = f c.current c := by
  show Reading.bind current f c = _
  simp [Reading.bind, current]

end Reading

namespace Production

/-- The productions that begin where an expression begins. -/
def isOperand : Production → Bool
  | .expression | .comparison | .sum | .product | .factor | .power | .call | .atom => true
  | _ => false

/-- How many productions stand between this one and the first lexeme of an expression. -/
def rank : Production → Nat
  | .expression => 7
  | .comparison => 6
  | .sum => 5
  | .product => 4
  | .factor => 3
  | .power => 2
  | .call => 1
  | _ => 0

end Production

theorem body_refuses {read : (p : Production) → Reading p.Result} {d : Nat}
    (h : ∀ p : Production, p.isOperand = true → Refuses (p.rank < d) (read p)) :
    ∀ p : Production, p.isOperand = true → Refuses (p.rank < d + 1) (body read p)
  | .expression, _ => by
    obtain ⟨refusal, he, hr⟩ := ((h .comparison rfl).bind _).relabel (α := Node) .expression
    refine ⟨refusal, fun hn => he (Nat.lt_of_succ_lt_succ hn), fun c hc => ?_⟩
    have hvar : ¬c.current.lexeme.isKeyword .var = true := by
      intro hl
      rw [Lexeme.isKeyword_iff.1 hl] at hc
      cases hc
    show expressionForm read c = _
    rw [expressionForm, lexeme_bind_apply, if_neg hvar]
    exact hr c hc
  | .comparison, _ => by
    obtain ⟨refusal, he, hr⟩ := ((h .sum rfl).bind _).relabel (α := Node) .comparison
    refine ⟨refusal, fun hn => he (Nat.lt_of_succ_lt_succ hn), fun c hc => ?_⟩
    have hnot : ¬c.current.lexeme.isKeyword .not = true := by
      intro hl
      rw [Lexeme.isKeyword_iff.1 hl] at hc
      cases hc
    show comparisonForm read c = _
    rw [comparisonForm, current_bind_apply, if_neg hnot]
    exact hr c hc
  | .sum, _ => ((h .product rfl).bind _).mono Nat.lt_of_succ_lt_succ
  | .product, _ => ((h .factor rfl).bind _).mono Nat.lt_of_succ_lt_succ
  | .factor, _ => by
    obtain ⟨refusal, he, hr⟩ := h .power rfl
    refine ⟨refusal, fun hn => he (Nat.lt_of_succ_lt_succ hn), fun c hc => ?_⟩
    have hminus : ¬c.current.lexeme.isSymbol .minus = true := by
      intro hl
      rw [Lexeme.isSymbol_iff.1 hl] at hc
      cases hc
    show factorForm read c = _
    rw [factorForm, current_bind_apply, if_neg hminus]
    exact hr c hc
  | .power, _ => ((h .call rfl).bind _).mono Nat.lt_of_succ_lt_succ
  | .call, _ => ((h .atom rfl).bind _).mono Nat.lt_of_succ_lt_succ
  | .atom, _ => by
    refine ⟨fun span => .unexpected .operand span, fun _ => ⟨.operand, fun _ => rfl⟩, fun c hc => ?_⟩
    show atomForm read c = _
    rw [atomForm, current_bind_apply]
    generalize c.current.lexeme = l at hc
    split
    case h_10 => rfl
    all_goals cases hc

/-- Where no expression begins, none is read. -/
theorem readAt_refuses : ∀ (d : Nat) (p : Production), p.isOperand = true → Refuses (p.rank < d) (readAt d p)
  | 0, _, _ => ⟨fun _ => .tooDeep, fun h => absurd h (Nat.not_lt_zero _), fun _ _ => rfl⟩
  | d + 1, p, hp => body_refuses (readAt_refuses d) p hp

end Grammar

end Scriptlet
