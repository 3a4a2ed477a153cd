import Scriptlet.Proofs.Scan.Partition
/-!
# The order of tokens

Lines are not always right, but they never go back: a reading leaves the position no earlier than its token stops, in the text
and by line (`readAt_forward`), so each token stops no later than the next one starts (`tokens_ordered`).
-/
namespace Scriptlet

namespace Position

/-- No later, in the text and by line. -/
structure NotAfter (p q : Position) : Prop where
  index : p.index ≤ q.index
  line : p.line ≤ q.line

namespace NotAfter

variable {p q r : Position}

theorem refl (p : Position) : p.NotAfter p := ⟨Int.le_refl _, Int.le_refl _⟩

theorem trans (h : p.NotAfter q) (h' : q.NotAfter r) : p.NotAfter r :=
  ⟨Int.le_trans h.index h'.index, Int.le_trans h.line h'.line⟩

end NotAfter

theorem next_line_le (p : Position) (c : Option Char) : p.line ≤ (p.next c).line := by
  unfold next
  split
  · exact Int.le_add_one (Int.le_refl _)
  · exact Int.le_refl _

theorem notAfter_next (p : Position) (c : Option Char) : p.NotAfter (p.next c) := by
  refine ⟨?_, p.next_line_le c⟩
  rw [next_index]
  omega

theorem notAfter_advance (p : Position) (cs : List Char) : p.NotAfter (p.advance cs) := by
  induction cs generalizing p with
  | nil => exact .refl p
  | cons c cs ih => exact (p.notAfter_next (some c)).trans (ih _)

end Position

/-- The stretch takes up some of the text, and its lines do not go back. -/
structure Span.Proper (s : Span) : Prop where
  index : s.start.index < s.stop.index
  line : s.start.line ≤ s.stop.line

theorem Span.Proper.single (p : Position) : (Span.single p).Proper := by
  refine ⟨?_, p.next_line_le none⟩
  show p.index < (p.next none).index
  rw [Position.next_index]
  omega

namespace Scan

/-- A reading leaves the position no earlier than its token stops. -/
structure Forward (p : Position) (r : Read) : Prop where
  onward : p.NotAfter r.position
  token : ∀ t, r.token? = some t → t.span.start = p ∧ t.span.Proper ∧ t.span.stop.NotAfter r.position

theorem forward_emit (l : Lexeme) (p : Position) {read : List Char} (hne : read ≠ []) (rest : List Char) :
    Forward p (emit l p read rest) where
  onward := p.notAfter_advance read
  token t ht := by
    cases ht
    refine ⟨rfl, ⟨?_, (p.notAfter_advance read).line⟩, .refl _⟩
    have hpos := List.length_pos_iff.2 hne
    show p.index < (p.advance read).index
    rw [Position.advance_index]
    omega

theorem forward_single (l : Lexeme) (p : Position) (c : Char) (rest : List Char) :
    Forward p ⟨some ⟨l, .single p⟩, rest, p.next (some c)⟩ where
  onward := p.notAfter_next (some c)
  token t ht := by
    cases ht
    refine ⟨rfl, .single p, ⟨?_, p.next_line_le (some c)⟩⟩
    exact Int.le_of_eq ((p.next_index none).trans (p.next_index (some c)).symm)

theorem readNumber_forward {p : Position} {c : Char} {cs : List Char} {r : Read} (hc : isDigit c = true)
    (h : readNumber p (c :: cs) = .ok r) : Forward p r := by
  obtain ⟨ds, rest, hne, -, ⟨-, rfl⟩ | ⟨-, -, -, rfl⟩⟩ := readNumber_eq_ok hc h
  · exact forward_emit _ p (by simp) _
  · exact forward_emit _ p hne _

theorem readExtensible_forward {p : Position} {c : Char} {e : Extension} {cs : List Char} {r : Read}
    (h : readExtensible p c e cs = .ok r) : Forward p r := by
  obtain ⟨rest, -, rfl⟩ | ⟨s, -, -, rfl⟩ := readExtensible_eq_ok h
  · exact forward_emit _ p (by simp) _
  · have hline := Int.le_trans (p.next_line_le (some c)) ((p.next (some c)).next_line_le cs.head?)
    have hindex : ((p.next (some c)).next cs.head?).back.index = p.index + 1 := by
      show ((p.next (some c)).next cs.head?).index - 1 = _
      rw [Position.next_index, Position.next_index]
      omega
    have honward : p.NotAfter ((p.next (some c)).next cs.head?).back := ⟨by omega, hline⟩
    refine ⟨honward, fun t ht => ?_⟩
    cases ht
    refine ⟨rfl, ⟨?_, hline⟩, .refl _⟩
    show p.index < ((p.next (some c)).next cs.head?).back.index
    omega

theorem readAt_forward {p : Position} {c : Char} {cs : List Char} {r : Read} (h : readAt p c cs = .ok r) : Forward p r := by
  rw [readAt] at h
  split at h
  · cases h
    exact ⟨p.notAfter_next (some c), fun t ht => by cases ht⟩
  split at h
  · cases h
    exact forward_single _ p c cs
  split at h
  · next hc => exact readNumber_forward hc h
  split at h
  · next hc =>
    cases h
    rw [readWord_eq p hc]
    exact forward_emit _ p (by simp) _
  split at h
  · obtain ⟨content, read, rest, -, rfl⟩ := readString_eq_ok h
    exact forward_emit _ p (by simp) _
  · split at h
    · exact readExtensible_forward h
    · cases h
      exact forward_single _ p c cs
    · cases h

/-- Tokens from a position on start no earlier, and each stops no later than the next one starts. -/
structure Ordered (p : Position) (tokens : List Token) : Prop where
  onward : ∀ t ∈ tokens, p.NotAfter t.span.start
  proper : ∀ t ∈ tokens, t.span.Proper
  apart : tokens.Pairwise fun t u => t.span.stop.NotAfter u.span.start

theorem Ordered.append {p : Position} {r : Read} {tail : List Token} (hr : Forward p r) (h : Ordered r.position tail) :
    Ordered p (r.token?.toList ++ tail) := by
  have honward : ∀ t ∈ tail, p.NotAfter t.span.start := fun t ht => hr.onward.trans (h.onward t ht)
  cases htoken : r.token? with
  | none => exact ⟨honward, h.proper, h.apart⟩
  | some t =>
    obtain ⟨hstart, hproper, hstop⟩ := hr.token t htoken
    refine ⟨List.forall_mem_cons.2 ⟨?_, honward⟩, List.forall_mem_cons.2 ⟨hproper, h.proper⟩,
      List.pairwise_cons.2 ⟨fun u hu => hstop.trans (h.onward u hu), h.apart⟩⟩
    rw [hstart]
    exact .refl p

theorem tokensFrom_ordered : ∀ (fuel : Nat) (p : Position) (cs : List Char) (tokens : List Token),
    tokensFrom fuel p cs = .ok tokens → Ordered p tokens := by
  have hend : ∀ p : Position, Ordered p [⟨.eof, .single p⟩] := fun p =>
    ⟨by simpa using .refl p, by simpa using .single p, List.pairwise_singleton _ _⟩
  intro fuel
  induction fuel with
  | zero =>
    intro p cs tokens h
    cases cs <;> cases h <;> exact hend p
  | succ fuel ih =>
    intro p cs tokens h
    cases cs with
    | nil =>
      cases h
      exact hend p
    | cons c cs =>
      obtain ⟨r, tail, hread, htail, rfl⟩ := tokensFrom_cons_eq_ok h
      exact .append (readAt_forward hread) (ih _ _ _ htail)

/-- **The tokens of a text are in order**, in the text and by line; the last of them ends right after the text. -/
theorem tokens_ordered {source : Source} {tokens : List Token} (h : Scan.tokens source = .ok tokens) :
    Ordered (.origin source) tokens ∧ ∀ t ∈ tokens, t.span.stop.index ≤ source.text.length + 1 := by
  refine ⟨tokensFrom_ordered _ _ _ _ h, ?_⟩
  obtain ⟨words, q, rfl, htiled⟩ := tokens_tiled h
  have hstop := htiled.stop_index
  have horigin : (Position.origin source).index = 0 := rfl
  rw [String.length_toList] at hstop
  refine List.forall_mem_append.2 ⟨fun t ht => ?_, ?_⟩
  · have hbounds := (htiled.bounds t ht).2.2
    rw [String.length_toList] at hbounds
    omega
  · rw [List.forall_mem_singleton]
    show (q.next none).index ≤ _
    rw [Position.next_index]
    omega

end Scan

end Scriptlet
