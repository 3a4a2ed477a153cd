import Scriptlet.Proofs.Joining.Fate
import Scriptlet.Proofs.Joining.Onward
/-!
# Places from where a text cannot be read

A statement that cannot be read is handed back, and the row of statements ends before it.  What comes then would have to be
taken by whoever asked for the statements; but a lexeme that begins an expression is taken there by nobody, except that a
parenthesis or a minus sign may continue an expression that ended before it.  A place is `Stuck` if an expression begins
there and every way to continue across it comes to a place that is stuck.  The end of a text is not stuck.

An expression that is refused where one begins is refused whatever comes after the text, or it is refused at a place that is
stuck (`settled_or_stuck`): had the text gone on across the place, the expression would have been read.
-/
namespace Scriptlet.Grammar

open Production Reading

/-- An expression begins at the place, and whatever goes on across it comes to such a place again. -/
inductive Stuck (A : List Lexeme) : Nat → Prop
  | mk {i : Nat} (h : i < A.length) (starts : A[i].starts = true)
      (onward : ∀ j, Passes (row A []) afterAtom i j → j ≠ i → Stuck A j) : Stuck A i

/-- Whatever goes on from the place comes to one that is stuck. -/
def GoesAstray (A : List Lexeme) (r : Nat → Node → Reading Node) (i : Nat) : Prop :=
  i < (row A []).length ∧ ∀ j, Passes (row A []) r i j → Stuck A j

/-- Where a production stops that strays. -/
def Production.stray (A : List Lexeme) : Production → Nat → Prop
  | .comparison => GoesAstray A afterComparison
  | .sum => GoesAstray A afterSum
  | .product => GoesAstray A afterProduct
  | .factor | .power => fun i => (Cursor.shown (row A []) i).lexeme.isSymbol .power = false ∧ GoesAstray A afterFactor i
  | .call => GoesAstray A afterCall
  | .atom => GoesAstray A afterAtom
  | _ => Stuck A

namespace Stuck

variable {A : List Lexeme} {i : Nat}

theorem lt (h : Stuck A i) : i < A.length := by
  cases h with
  | mk h _ _ => exact h

theorem lexeme_starts (h : Stuck A i) : (Cursor.shown (row A []) i).lexeme.starts = true := by
  cases h with
  | mk h starts _ => rwa [lexeme_row_lt h]

theorem ne_of_starts (h : Stuck A i) {l : Lexeme} (hl : l.starts = false) : (Cursor.shown (row A []) i).lexeme ≠ l := by
  rintro rfl
  rw [h.lexeme_starts] at hl
  cases hl

theorem lt_length (h : Stuck A i) : i < (row A []).length := by
  have := h.lt
  rw [length_row]
  omega

theorem goesAstray (h : Stuck A i) : GoesAstray A afterAtom i := by
  refine ⟨h.lt_length, fun j hj => ?_⟩
  by_cases hij : j = i
  · rwa [hij]
  · cases h with
    | mk _ _ onward => exact onward j hj hij

end Stuck

/-! ## Refusals go up -/

theorem Reply.ext {α : Type} {r : Reply α} {result : Except Refusal α} {taken : Nat} {cursor : Cursor}
    (hr : r.result = result) (ht : r.taken = taken) (hc : r.cursor = cursor) : r = ⟨result, taken, cursor⟩ := by
  subst hr ht hc
  rfl

/-- The production that reads the first operand of one. -/
def Production.below : Production → Production
  | .expression => .comparison
  | .comparison => .sum
  | .sum => .product
  | .product => .factor
  | .factor => .power
  | .power => .call
  | _ => .atom

theorem relabel_error {α : Type} {e : Expected} {r : Reading α} {c c' : Cursor} {k : Nat} {x : Refusal}
    (hk : k ≠ 0 ∨ x = .tooDeep) (h : r c = ⟨.error x, k, c'⟩) : r.relabel e c = ⟨.error x, k, c'⟩ := by
  rw [relabel, h]
  cases x with
  | tooDeep => rfl
  | unexpected e' span => exact if_neg (hk.resolve_right (by simp))

section Errors

variable {c c' : Cursor} {d k : Nat} {x : Refusal} (hlead : leads c.current.lexeme = false)
  (hminus : c.current.lexeme.isSymbol .minus = false)

include hlead hminus

theorem error_of_below (hk : k ≠ 0 ∨ x = .tooDeep) : ∀ p : Production, p.isOperand = true → p ≠ .atom →
    readAt d p.below c = ⟨.error x, k, c'⟩ → readAt (d + 1) p c = ⟨.error x, k, c'⟩
  | .expression, _, _, h => by
    simp only [leads, Bool.or_eq_false_iff] at hlead
    show expressionForm (readAt d) c = _
    rw [expressionForm, lexeme_bind_apply, if_neg (ne_true_of_eq_false hlead.2)]
    exact relabel_error hk (bind_apply_error h)
  | .comparison, _, _, h => by
    simp only [leads, Bool.or_eq_false_iff] at hlead
    show comparisonForm (readAt d) c = _
    rw [comparisonForm, current_bind_apply, if_neg (ne_true_of_eq_false hlead.1)]
    exact relabel_error hk (bind_apply_error h)
  | .sum, _, _, h => bind_apply_error h
  | .product, _, _, h => bind_apply_error h
  | .factor, _, _, h => by
    show factorForm (readAt d) c = _
    rw [factorForm, current_bind_apply, if_neg (ne_true_of_eq_false hminus)]
    exact h
  | .power, _, _, h => bind_apply_error h
  | .call, _, _, h => bind_apply_error h
  | .atom, _, hne, _ => absurd rfl hne

/-- Where an atom is refused that took something, the expression is refused that begins with it. -/
theorem expression_error (hk : k ≠ 0 ∨ x = .tooDeep) (h : readAt d .atom c = ⟨.error x, k, c'⟩) :
    readAt (d + 7) .expression c = ⟨.error x, k, c'⟩ := by
  have step : ∀ {d : Nat} (p : Production), p.isOperand = true → p ≠ .atom →
      readAt d p.below c = ⟨.error x, k, c'⟩ → readAt (d + 1) p c = ⟨.error x, k, c'⟩ :=
    error_of_below hlead hminus hk
  have hcall := step .call rfl nofun h
  have hpower := step .power rfl nofun hcall
  have hfactor := step .factor rfl nofun hpower
  have hproduct := step .product rfl nofun hfactor
  have hsum := step .sum rfl nofun hproduct
  have hcomparison := step .comparison rfl nofun hsum
  exact step .expression rfl nofun hcomparison

/-- Without the depth to get to an atom, an expression is too deep. -/
theorem readAt_tooDeep : ∀ (d : Nat) (p : Production), p.isOperand = true → d ≤ p.rank →
    readAt d p c = ⟨.error .tooDeep, 0, c⟩
  | 0, _, _, _ => rfl
  | d + 1, p, hp, hd => by
    have hne : p ≠ .atom := by
      rintro rfl
      cases hd
    refine error_of_below hlead hminus (.inr rfl) p hp hne (readAt_tooDeep d p.below ?_ ?_)
    · cases p <;> simp_all [below, isOperand]
    · cases p <;> simp_all [rank, below, isOperand] <;> omega

end Errors

/-! ## Going on from a place -/

section Places

variable {tokens : List Token} (ht : Ended tokens) {i j : Nat} (hi : i < tokens.length)

include ht hi

/-- Where no parenthesis opens there are no arguments. -/
theorem afterCall_of_afterAtom (hopen : (Cursor.shown tokens i).lexeme.isSymbol .openParen = false)
    (h : Passes tokens afterAtom i j) : Passes tokens afterCall i j := by
  obtain ⟨m, _, _, ⟨d, l, x, happlied⟩, h⟩ := (onward_applied.passes_bind onward_afterCall ht hi).1 h
  rw [applied, reads_lexeme_bind, Cursor.on_current, if_neg (ne_true_of_eq_false hopen), reads_pure] at happlied
  cases on_row_inj happlied.2
  exact h

/-- Where one opens there are. -/
theorem arguments_of_afterAtom (hopen : (Cursor.shown tokens i).lexeme = .symbol .openParen)
    (h : Passes tokens afterAtom i j) : ∃ d ns m, m < tokens.length ∧
      Reads (argumentsForm (readAt d)) (.on tokens (i + 1)) ns (.on tokens m) ∧ Passes tokens afterCall m j := by
  obtain ⟨m, _, hm, ⟨d, l, x, happlied⟩, h⟩ := (onward_applied.passes_bind onward_afterCall ht hi).1 h
  rw [applied, reads_lexeme_bind, Cursor.on_current, if_pos (Lexeme.isSymbol_iff.2 hopen), reads_take_bind,
    Cursor.next_on] at happlied
  obtain ⟨ns, c, hns, happlied⟩ := reads_bind.1 happlied
  obtain ⟨_, rfl⟩ := reads_pure.1 happlied
  exact ⟨d, ns, m, hm, hns, h⟩

/-- Where no factor is joined, terms may be. -/
theorem afterProduct_of_afterCall (hno : joinsFactors (Cursor.shown tokens i).lexeme = false)
    (h : Passes tokens afterCall i j) : Passes tokens afterProduct i j := by
  obtain ⟨m, _, _, hpowers, hrest⟩ := (onward_powers.passes_bind onward_afterFactor ht hi).1 h
  rw [hpowers.eq_of_joined rfl (fun ht d => readAt_sound ht d .factor) ht hi (isSymbol_power_of_joinsFactors hno)] at hrest
  obtain ⟨m', _, _, hfactors, hrest⟩ := (onward_factors.passes_bind onward_afterProduct ht hi).1 hrest
  rwa [hfactors.eq_of_joined rfl (fun ht d => readAt_sound ht d .factor) ht hi hno] at hrest

/-- Where nothing is joined, nothing goes on. -/
theorem eq_of_afterCall (hfactors : joinsFactors (Cursor.shown tokens i).lexeme = false)
    (hterms : joinsTerms (Cursor.shown tokens i).lexeme = false)
    (hcomparands : joinsComparands (Cursor.shown tokens i).lexeme = false)
    (hconditions : joinsConditions (Cursor.shown tokens i).lexeme = false) (h : Passes tokens afterCall i j) : j = i := by
  obtain ⟨m, _, _, hp, hrest⟩ :=
    (onward_terms.passes_bind onward_afterSum ht hi).1 (afterProduct_of_afterCall ht hi hfactors h)
  rw [hp.eq_of_joined rfl (fun ht d => readAt_sound ht d .product) ht hi hterms] at hrest
  obtain ⟨m', _, _, hp', hrest⟩ := (onward_comparands.passes_bind onward_afterComparison ht hi).1 hrest
  rw [hp'.eq_of_joined rfl (fun ht d => readAt_sound ht d .sum) ht hi hcomparands] at hrest
  exact hrest.eq_of_joined rfl (fun ht d => readAt_sound ht d .comparison) ht hi hconditions

theorem eq_of_afterAtom (hno : continues (Cursor.shown tokens i).lexeme = false) (h : Passes tokens afterAtom i j) :
    j = i := by
  simp only [continues, Bool.or_eq_false_iff] at hno
  obtain ⟨⟨⟨⟨hopen, hfactors⟩, hterms⟩, hcomparands⟩, hconditions⟩ := hno
  exact eq_of_afterCall ht hi hfactors hterms hcomparands hconditions (afterCall_of_afterAtom ht hi hopen h)

/-- What goes on across a minus sign is an expression that begins with it. -/
theorem expression_of_minus (hminus : (Cursor.shown tokens i).lexeme = .symbol .minus) (h : Passes tokens afterAtom i j) :
    ∃ x, Accepts tokens .expression i x j := by
  have h := afterCall_of_afterAtom ht hi (by rw [hminus]; rfl) h
  have h := afterProduct_of_afterCall ht hi (by rw [hminus]; rfl) h
  obtain ⟨m, _, hm, hterms, h⟩ := (onward_terms.passes_bind onward_afterSum ht hi).1 h
  obtain ⟨d, a, k, _, hk, ha, hterms⟩ :=
    hterms.cons_of_joined rfl (fun ht d => readAt_sound ht d .product) ht hi (by rw [hminus]; rfl)
  have hone := Covers.one ht hminus (by simp)
  -- The first term after the sign is a factor and others joined to it; the sign belongs to this factor.
  cases d with
  | zero => exact (reads_tooDeep.1 ha).elim
  | succ d =>
    obtain ⟨f, c, hf, hfactors⟩ := reads_bind.1 ha
    obtain ⟨m', _, rfl, hm', _⟩ := readAt_sound ht d .factor hone.2.1 hf
    have hopposite := accepts_opposite hminus (.of_reads ht.ne_nil hf)
    obtain ⟨x, hx⟩ := accepts_product_joined ht hm'.2.1 hopposite ⟨d, _, _, hfactors⟩
    obtain ⟨y, hy⟩ := accepts_sum_joined ht hk hx hterms
    exact expression_afterSum ht hm (by rw [hminus]; rfl) hy h

/-- Arguments are none, or after the first one stands a comma or the closing parenthesis. -/
theorem arguments_cases {d m : Nat} {ns : List Node}
    (h : Reads (argumentsForm (readAt d)) (.on tokens i) ns (.on tokens m)) :
    (Cursor.shown tokens i).lexeme = .symbol .closeParen ∨
    ∃ v f, f < tokens.length ∧ Reads (readAt d .expression) (.on tokens i) v (.on tokens f) ∧
      ((Cursor.shown tokens f).lexeme = .symbol .comma ∨
       (Cursor.shown tokens f).lexeme = .symbol .closeParen ∧ m = f + 1) := by
  rw [argumentsForm, reads_lexeme_bind, reads_ite, Lexeme.isSymbol_iff] at h
  rcases h with ⟨hclose, _⟩ | ⟨_, h⟩
  · exact .inl hclose
  · obtain ⟨items, c₁, hitems, h⟩ := reads_bind.1 h
    rw [reads_expectSymbol_bind, reads_pure] at h
    obtain ⟨v, c₂, hv, hitems⟩ := reads_bind.1 hitems
    obtain ⟨f, _, rfl, hf, _⟩ := readAt_sound ht d .expression hi hv
    obtain ⟨more, c₃, hmore, hitems⟩ := reads_bind.1 hitems
    obtain ⟨_, rfl⟩ := reads_pure.1 hitems
    refine .inr ⟨v, f, hf.2.1, hv, ?_⟩
    rcases (reads_repeating_iff ht (readAt_sound ht d .expression) rfl (fun items _ a => a :: items) hf.2.1).1 hmore with
      ⟨_, _, rfl⟩ | ⟨hcomma, _⟩
    · obtain ⟨hclose, _, hm⟩ := h
      rw [Cursor.next_on] at hm
      exact .inr ⟨hclose, on_row_inj hm⟩
    · exact .inl (Lexeme.isSymbol_iff.1 hcomma)

end Places

/-! ## Refused expressions -/

section Refused

variable {A : List Lexeme} (hA : ∀ l ∈ A, l ≠ .eof) {i : Nat} (hi : i < A.length)

/-- Where no expression begins, none is read, whatever comes after the text. -/
theorem settled_of_not_starts (hstarts : A[i].starts = false) (d : Nat) : Settled A (readAt d .expression) i := by
  obtain ⟨refusal, _, hrefuses⟩ := readAt_refuses d .expression rfl
  refine ⟨.error (refusal .forgotten), 0, by omega, fun Z _ => ?_⟩
  rw [hrefuses _ (by rw [Cursor.on_current, lexeme_row_lt hi, hstarts]), Cursor.on_current, span_row, Nat.add_zero]

section Parenthesis

variable (hopen : A[i] = .symbol .openParen) {b : Nat} {x : Refusal}

include hi hopen

theorem atom_of_paren (Z : List Lexeme) :
    readAt (b + 1) .atom (.on (row A Z) i) = parenthesised (readAt b) (.on (row A Z) i) := by
  show atomForm (readAt b) _ = _
  rw [atomForm, current_bind_apply, Cursor.on_current, lexeme_row_lt hi, hopen]

/-- An expression in parentheses that is refused for what is inside. -/
theorem expression_of_inner_error {Z : List Lexeme} {k : Nat} {c : Cursor}
    (h : readAt b .expression (.on (row A Z) (i + 1)) = ⟨.error x, k, c⟩) :
    readAt (b + 8) .expression (.on (row A Z) i) = ⟨.error x, 1 + k, c⟩ := by
  have hcurrent : (Cursor.on (row A Z) i).current.lexeme = .symbol .openParen := by
    rw [Cursor.on_current, lexeme_row_lt hi, hopen]
  refine expression_error (d := b + 1) (by rw [hcurrent]; rfl) (by rw [hcurrent]; rfl) (.inl (by omega)) ?_
  rw [atom_of_paren hi hopen, parenthesised, bind_apply_ok (show take (.on (row A Z) i) = ⟨.ok (), 1, .on (row A Z) (i + 1)⟩ by
    rw [take, Cursor.next_on]), bind_apply_error h]

/-- And one that is refused because it is not closed. -/
theorem expression_of_missing_close {Z : List Lexeme} {k : Nat} {v : Node}
    (h : readAt b .expression (.on (row A Z) (i + 1)) = ⟨.ok v, k, .on (row A Z) (i + 1 + k)⟩)
    (hclose : (Cursor.shown (row A Z) (i + 1 + k)).lexeme.isSymbol .closeParen = false) :
    readAt (b + 8) .expression (.on (row A Z) i) =
      ⟨.error (.unexpected .closeParen .forgotten), 1 + k, .on (row A Z) (i + 1 + k)⟩ := by
  have hcurrent : (Cursor.on (row A Z) i).current.lexeme = .symbol .openParen := by
    rw [Cursor.on_current, lexeme_row_lt hi, hopen]
  refine expression_error (d := b + 1) (by rw [hcurrent]; rfl) (by rw [hcurrent]; rfl) (.inl (by omega)) ?_
  have hexpect : expectSymbol .closeParen .closeParen (.on (row A Z) (i + 1 + k)) =
      ⟨.error (.unexpected .closeParen .forgotten), 0, .on (row A Z) (i + 1 + k)⟩ := by
    rw [expectSymbol, lexeme_bind_apply, Cursor.on_current, if_neg (ne_true_of_eq_false hclose), fail, Cursor.on_current, span_row]
  rw [atom_of_paren hi hopen, parenthesised, bind_apply_ok (show take (.on (row A Z) i) = ⟨.ok (), 1, .on (row A Z) (i + 1)⟩ by
    rw [take, Cursor.next_on]), bind_apply_ok h, bind_apply_error hexpect]
  rfl

theorem settled_of_inner_error {k : Nat} (hk : i + 1 + k ≤ A.length)
    (h : ∀ Z, Rest Z → readAt b .expression (.on (row A Z) (i + 1)) = ⟨.error x, k, .on (row A Z) (i + 1 + k)⟩) :
    Settled A (readAt (b + 8) .expression) i := by
  refine ⟨.error x, 1 + k, by omega, fun Z hZ => ?_⟩
  rw [expression_of_inner_error hi hopen (h Z hZ), Nat.add_assoc]

theorem settled_of_missing_close {k : Nat} {v : Node} (hk : i + 1 + k < A.length)
    (hclose : A[i + 1 + k].isSymbol .closeParen = false)
    (h : ∀ Z, Rest Z → readAt b .expression (.on (row A Z) (i + 1)) = ⟨.ok v, k, .on (row A Z) (i + 1 + k)⟩) :
    Settled A (readAt (b + 8) .expression) i := by
  refine ⟨.error (.unexpected .closeParen .forgotten), 1 + k, by omega, fun Z hZ => ?_⟩
  rw [expression_of_missing_close hi hopen (h Z hZ) (by rw [lexeme_row_lt hk, hclose]), Nat.add_assoc]

/-- If it depends on what comes after the text whether the parentheses are refused, the expression in them does not end at a
comma. -/
theorem no_comma_of_unsettled (hnot : ¬Settled A (readAt (b + 8) .expression) i)
    (hfated : Fated A (A.length + 1) (Stuck A) (readAt b .expression)) {v : Node} {f : Nat} (hf : f < A.length)
    (hread : Reads (readAt b .expression) (.on (row A []) (i + 1)) v (.on (row A []) f))
    (hcomma : (Cursor.shown (row A []) f).lexeme = .symbol .comma) : False := by
  rcases hfated.fate (i + 1) (by omega) with ⟨res, k, hk, h⟩ | ⟨a, ha, _⟩ | h
  · cases res with
    | error x => exact hnot (settled_of_inner_error hi hopen hk h)
    | ok a =>
      have ha : Reads (readAt b .expression) (.on (row A []) (i + 1)) a (.on (row A []) (i + 1 + k)) := by
        rw [Reads, h [] rest_nil]
        exact ⟨rfl, rfl⟩
      obtain rfl := on_row_inj (ha.unique hread).2
      rw [lexeme_row_lt hf] at hcomma
      exact hnot (settled_of_missing_close hi hopen hf (by rw [hcomma]; rfl) h)
  · -- It would end with the text, where no comma is.
    have := on_row_inj (ha.unique hread).2
    omega
  · obtain ⟨j, hj, hstuck⟩ := h v _ hread
    cases on_row_inj hj
    exact hstuck.ne_of_starts rfl hcomma

end Parenthesis

section Denied

variable {d : Nat} {e : Expected} {span : Span}
  (hdenied : (readAt d .expression (.on (row A []) i)).result = .error (.unexpected e span))

include hdenied in
theorem not_accepts_of_denied {x : Node} {j : Nat} : ¬Accepts (row A []) .expression i x j := by
  intro h
  rcases h.eq_or_tooDeep row_ne_nil d with h | h
  · rw [hdenied] at h
    cases h
  · have := hdenied.symm.trans h.1
    cases this

variable (hfated : ∀ b, b < d → Fated A (A.length + 1) (Stuck A) (readAt b .expression))
  (hopen : A[i] = .symbol .openParen) (hnot : ¬Settled A (readAt d .expression) i)

include hA hdenied hfated hopen hnot

/-- A refused expression that begins with a parenthesis, and could be taken for arguments: inside is one expression, and a
parenthesis closes it. -/
theorem inner_of_arguments {d' m : Nat} {ns : List Node}
    (hargs : Reads (argumentsForm (readAt d')) (.on (row A []) (i + 1)) ns (.on (row A []) m)) :
    ∃ v f, m = f + 1 ∧ f < A.length ∧ Accepts (row A []) .expression (i + 1) v f ∧
      (Cursor.shown (row A []) f).lexeme = .symbol .closeParen := by
  have ht := ended_row hA rest_nil
  have hcurrent : (Cursor.on (row A []) i).current.lexeme = .symbol .openParen := by
    rw [Cursor.on_current, lexeme_row_lt hi, hopen]
  -- The depth suffices to look inside the parentheses.
  obtain ⟨b, rfl⟩ : ∃ b, d = b + 8 := by
    by_cases hd : 8 ≤ d
    · exact ⟨d - 8, by omega⟩
    · rw [readAt_tooDeep (by rw [hcurrent]; rfl) (by rw [hcurrent]; rfl) d .expression rfl
        (show d ≤ 7 by omega)] at hdenied
      cases hdenied
  have hone : i + 1 < (row A []).length := by
    rw [length_row]
    omega
  rcases arguments_cases ht hone hargs with hclose | ⟨v, f, hf, hv, hstop⟩
  · -- Nothing is inside, so the expression is refused in any case.
    obtain ⟨refusal, _, hrefuses⟩ := readAt_refuses b .expression rfl
    have hlt := lt_of_lexeme_row hclose (by simp)
    refine (hnot (settled_of_inner_error hi hopen (x := refusal .forgotten) (k := 0) (by omega) fun Z _ => ?_)).elim
    rw [lexeme_row_lt hlt] at hclose
    rw [hrefuses _ (by rw [Cursor.on_current, lexeme_row_lt hlt, hclose]; rfl), Cursor.on_current, span_row, Nat.add_zero]
  · have hv : Accepts (row A []) .expression (i + 1) v f := .of_reads ht.ne_nil hv
    rcases hv.eq_or_tooDeep row_ne_nil b with hdeep | hread
    · -- Then the whole expression is too deep, and not refused.
      have hinner := expression_of_inner_error hi hopen (Z := []) (b := b) (x := .tooDeep) (Reply.ext hdeep rfl rfl)
      rw [hinner] at hdenied
      cases hdenied
    · rcases hstop with hcomma | ⟨hclose, hm⟩
      · exact (no_comma_of_unsettled hi hopen hnot (hfated b (by omega)) (lt_of_lexeme_row hcomma (by simp)) hread hcomma).elim
      · exact ⟨v, f, hm, lt_of_lexeme_row hclose (by simp), hv, hclose⟩

theorem stuck_of_paren : Stuck A i := by
  have ht := ended_row hA rest_nil
  have hlength : i < (row A []).length := by
    rw [length_row]
    omega
  have hshown : (Cursor.shown (row A []) i).lexeme = .symbol .openParen := by rw [lexeme_row_lt hi, hopen]
  have habsurd : ∀ {l k j}, k < (row A []).length → Accepts (row A []) .call i l k → Passes (row A []) afterCall k j →
      False := by
    intro l k j hk hcall hpasses
    obtain ⟨x, hx⟩ := expression_afterCall ht hk (by rw [hshown]; rfl) (by rw [hshown]; rfl) hcall hpasses
    exact not_accepts_of_denied hdenied hx
  refine .mk hi (by rw [hopen]; rfl) fun j hj _ => ?_
  obtain ⟨d', ns, m, hm, hargs, hpasses⟩ := arguments_of_afterAtom ht hlength hshown hj
  obtain ⟨v, f, rfl, hf, hv, hclose⟩ := inner_of_arguments hA hi hdenied hfated hopen hnot hargs
  have hatom := accepts_parenthesised hshown hv hclose
  -- The parentheses can be read, so it is what follows them that was refused: arguments, since nothing else is tried.
  by_cases hcall : (Cursor.shown (row A []) (f + 1)).lexeme = .symbol .openParen
  · rw [eq_of_afterCall ht hm (by rw [hcall]; rfl) (by rw [hcall]; rfl) (by rw [hcall]; rfl) (by rw [hcall]; rfl) hpasses]
    have hlt := lt_of_lexeme_row hcall (by simp)
    refine .mk hlt (by rw [← lexeme_row_lt (Z := []) hlt, hcall]; rfl) fun k hk _ => ?_
    obtain ⟨d'', ns', m', hm', hargs', hpasses'⟩ := arguments_of_afterAtom ht hm hcall hk
    have hdeeper : FromDepth fun d => Reads (argumentsForm (readAt d)) (.on (row A []) (f + 1 + 1)) ns' (.on (row A []) m') :=
      ⟨d'', fun d hd => reads_deeper (arguments_deeper hd) row_ne_nil hargs'⟩
    exact (habsurd hm' (accepts_application hatom hcall hdeeper) hpasses').elim
  · have hno : (Cursor.shown (row A []) (f + 1)).lexeme.isSymbol .openParen = false :=
      Bool.eq_false_iff.2 fun h => hcall (Lexeme.isSymbol_iff.1 h)
    exact (habsurd hm (accepts_call hatom hno) hpasses).elim

end Denied

theorem continues_of_starts {l : Lexeme} (h : l.starts = true) (hopen : l ≠ .symbol .openParen)
    (hminus : l ≠ .symbol .minus) : continues l = false := by
  cases l with
  | symbol s => cases s <;> simp_all [Lexeme.starts, continues, joinsFactors, joinsTerms, joinsComparands, joinsConditions,
      Lexeme.isSymbol, Lexeme.isKeyword, isProductSign, isComparison]
  | keyword k => cases k <;> simp_all [Lexeme.starts, continues, joinsFactors, joinsTerms, joinsComparands, joinsConditions,
      Lexeme.isSymbol, Lexeme.isKeyword]
  | _ => rfl

include hA hi in
/-- **An expression that is refused inside a text is refused whatever comes after the text, or it is stuck.** -/
theorem settled_or_stuck {d : Nat} {e : Expected} {span : Span}
    (hdenied : (readAt d .expression (.on (row A []) i)).result = .error (.unexpected e span))
    (hfated : ∀ b, b < d → Fated A (A.length + 1) (Stuck A) (readAt b .expression)) :
    Settled A (readAt d .expression) i ∨ Stuck A i := by
  have ht := ended_row hA rest_nil
  have hlength : i < (row A []).length := by
    rw [length_row]
    omega
  have hshown : (Cursor.shown (row A []) i).lexeme = A[i] := lexeme_row_lt hi
  by_cases hstarts : A[i].starts = true
  · by_cases hsettled : Settled A (readAt d .expression) i
    · exact .inl hsettled
    refine .inr ?_
    by_cases hopen : A[i] = .symbol .openParen
    · exact stuck_of_paren hA hi hdenied hfated hopen hsettled
    by_cases hminus : A[i] = .symbol .minus
    · refine .mk hi hstarts fun j hj _ => ?_
      obtain ⟨x, hx⟩ := expression_of_minus ht hlength (hshown.trans hminus) hj
      exact (not_accepts_of_denied hdenied hx).elim
    · refine .mk hi hstarts fun j hj hne => ?_
      have hno := continues_of_starts hstarts hopen hminus
      exact (hne (eq_of_afterAtom ht hlength (by rw [hshown, hno]) hj)).elim
  · exact .inl (settled_of_not_starts hi (by simpa using hstarts) d)

end Refused

end Scriptlet.Grammar
