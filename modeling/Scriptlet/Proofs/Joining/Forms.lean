import Scriptlet.Proofs.Joining.Stuck
/-!
# The fate of operands

If every production has a fate at some depth, so has every form of operands that is built from them.  An operand that strays stops at a
place from where what follows it in the looser production goes astray too; a form with a keyword or a parenthesis after an
expression that strays fails there, since no such lexeme begins an expression.
-/
namespace Scriptlet.Grammar

open Production Reading

section Strays

variable {A : List Lexeme} {α β : Type} {Φ Ψ : Nat → Prop} {i : Nat}

theorem strays_of_not_reads {r : Reading α} (h : ∀ a c, ¬Reads r (.on (row A []) i) a c) : Strays A Φ r i :=
  fun a c ha => (h a c ha).elim

theorem strays_ite {p : Lexeme → Bool} {r s : Reading α} (hp : p (Cursor.shown (row A []) i).lexeme = false)
    (hs : Strays A Φ s i) : Strays A Φ (lexeme >>= fun l => if p l = true then r else s) i := by
  intro a c ha
  rw [reads_lexeme_bind, Cursor.on_current, if_neg (ne_true_of_eq_false hp)] at ha
  exact hs a c ha

namespace Stuck

variable (h : Stuck A i)

include h

theorem isKeyword_eq_false {k : Keyword} (hk : (Lexeme.keyword k).starts = false) :
    (Cursor.shown (row A []) i).lexeme.isKeyword k = false :=
  Bool.eq_false_iff.2 fun hl => h.ne_of_starts hk (Lexeme.isKeyword_iff.1 hl)

theorem expectKeyword {k : Keyword} (hk : (Lexeme.keyword k).starts = false) {f : Unit → Reading β} :
    Strays A Φ (Reading.expectKeyword k >>= f) i := by
  refine strays_of_not_reads fun a c ha => ?_
  rw [reads_expectKeyword_bind] at ha
  exact h.ne_of_starts hk ha.1

theorem expectSymbol {s : Symbol} {e : Expected} (hs : (Lexeme.symbol s).starts = false) {f : Unit → Reading β} :
    Strays A Φ (Reading.expectSymbol s e >>= f) i := by
  refine strays_of_not_reads fun a c ha => ?_
  rw [reads_expectSymbol_bind] at ha
  exact h.ne_of_starts hs ha.1

end Stuck

variable (hA : ∀ l ∈ A, l ≠ .eof)

include hA

/-- What goes astray in two steps is, after the first, at a place from where the second goes astray. -/
theorem GoesAstray.strays {r r' : Nat → Node → Reading Node} (hr : Onward r) (hr' : Onward r')
    (h : GoesAstray A (fun d l => r d l >>= r' d) i) (d : Nat) (l : Node) : Strays A (GoesAstray A r') (r d l) i := by
  have ht := ended_row hA rest_nil
  intro x c hx
  obtain ⟨j, rfl, hij, hj⟩ := hr.stays ht h.1 hx
  refine ⟨j, rfl, hj, fun k hk => h.2 k ?_⟩
  exact (hr.passes_bind hr' ht h.1).2 ⟨j, hij, hj, ⟨d, l, x, hx⟩, hk⟩

/-- And in one step it is stuck. -/
theorem GoesAstray.strays_last {r : Nat → Node → Reading Node} (hr : Onward r) (h : GoesAstray A r i) (d : Nat) (l : Node) :
    Strays A (Stuck A) (r d l) i := by
  intro x c hx
  obtain ⟨j, rfl, _, _⟩ := hr.stays (ended_row hA rest_nil) h.1 hx
  exact ⟨j, rfl, h.2 j ⟨d, l, x, hx⟩⟩

end Strays

section Operands

variable {A : List Lexeme} (hA : ∀ l ∈ A, l ≠ .eof) {d : Nat}
  (hform : ∀ p : Production, p ≠ .statements → Fated A (A.length + 1) (p.stray A) (readAt d p))

/-- A chain strays with its first operand and with the further ones. -/
theorem fated_chain {operand further : Reading Node} {joins : Lexeme → Bool} (heof : joins .eof = false)
    (hnewline : joins .newline = false) {Φ Ψ Ξ : Nat → Prop} {D : List Lexeme → Node → Lexeme → Prop}
    (hA : ∀ l ∈ A, l ≠ .eof) (hsound : ∀ Z, Rest Z → Sound (row A Z) further D) (ho : Fated A (A.length + 1) Φ operand)
    (hf : Fated A (A.length + 1) Ψ further)
    (hΦ : ∀ l j, Φ j → Strays A Ξ (repeating (round joins Node.binary further) l) j)
    (hΨ : ∀ l j, Ψ j → Strays A Ξ (repeating (round joins Node.binary further) l) j) :
    Fated A (A.length + 1) Ξ (chain operand further joins) :=
  ho.bind (fated_repeating hA hsound heof hnewline Node.binary hf hΨ) hΦ

include hA hform

theorem expressionForm_fated : Fated A (A.length + 1) (Production.expression.stray A) (expressionForm (readAt d)) := by
  refine .ite_lexeme rfl rfl ?_ (.relabel _ ?_)
  · refine Fated.take.bind_settled fun _ => (Fated.expectName _).bind_settled fun _ =>
      (Fated.expectSymbol _ _).bind_settled fun _ => ?_
    exact (hform .expression nofun).bind (fun _ => .pure _) fun _ _ => .pure
  · have hstray : ∀ l j, GoesAstray A afterComparison j → Strays A (Stuck A) (afterComparison d l) j :=
      fun l j h => h.strays_last hA onward_afterComparison d l
    exact fated_chain rfl rfl hA (fun Z hZ => readAt_sound (ended_row hA hZ) d .comparison) (hform .comparison nofun)
      (hform .comparison nofun) hstray hstray

theorem comparisonForm_fated : Fated A (A.length + 1) (Production.comparison.stray A) (comparisonForm (readAt d)) := by
  refine .ite_current rfl rfl (fun t => ?_) (.relabel _ ?_)
  · exact Fated.take.bind_settled fun _ => (hform .comparison nofun).bind (fun _ => .pure _) fun _ _ => .pure
  · have hstray := fun l j (h : GoesAstray A afterSum j) => h.strays hA onward_comparands onward_afterComparison d l
    exact fated_chain rfl rfl hA (fun Z hZ => readAt_sound (ended_row hA hZ) d .sum) (hform .sum nofun)
      (hform .sum nofun) hstray hstray

theorem sum_fated :
    Fated A (A.length + 1) (Production.sum.stray A) (chain (readAt d .product) (readAt d .product) joinsTerms) := by
  have hstray := fun l j (h : GoesAstray A afterProduct j) => h.strays hA onward_terms onward_afterSum d l
  exact fated_chain rfl rfl hA (fun Z hZ => readAt_sound (ended_row hA hZ) d .product) (hform .product nofun)
    (hform .product nofun) hstray hstray

theorem product_fated :
    Fated A (A.length + 1) (Production.product.stray A) (chain (readAt d .factor) (readAt d .factor) joinsFactors) := by
  have hstray := fun l j (h : Production.factor.stray A j) => h.2.strays hA onward_factors onward_afterProduct d l
  exact fated_chain rfl rfl hA (fun Z hZ => readAt_sound (ended_row hA hZ) d .factor) (hform .factor nofun)
    (hform .factor nofun) hstray hstray

omit hA in
theorem factorForm_fated : Fated A (A.length + 1) (Production.factor.stray A) (factorForm (readAt d)) := by
  refine .ite_current rfl rfl (fun t => ?_) (hform .power nofun)
  exact Fated.take.bind_settled fun _ => (hform .factor nofun).bind (fun _ => .pure _) fun _ _ => .pure

theorem power_fated : Fated A (A.length + 1) (Production.power.stray A)
    (chain (readAt d .call) (readAt d .factor) (·.isSymbol .power)) := by
  refine fated_chain rfl rfl hA (fun Z hZ => readAt_sound (ended_row hA hZ) d .factor) (hform .call nofun)
    (hform .factor nofun) (fun l j h => ?_) fun l j h => ?_
  · -- Powers are joined until no sign of a power stands there.
    intro x c hx
    obtain ⟨k, rfl, hk⟩ := GoesAstray.strays hA onward_powers onward_afterFactor h d l x c hx
    obtain ⟨k', hc, _, _, hno⟩ :=
      joined_stops rfl (fun ht d => readAt_sound ht d .factor) (ended_row hA rest_nil) h.1 hx
    cases on_row_inj hc
    exact ⟨k, rfl, hno, hk⟩
  · exact strays_repeating Node.binary h.2.1 h.1 h

theorem argumentsForm_fated : Fated A (A.length + 1) (fun _ => False) (argumentsForm (readAt d)) := by
  refine .ite_lexeme rfl rfl (Fated.take.bind_settled fun _ => .pure _) ?_
  have hitems := fated_commaSeparated hA (fun Z hZ => readAt_sound (ended_row hA hZ) d .expression)
    (hform .expression nofun) fun j hj => ⟨Stuck.lt hj, Stuck.ne_of_starts hj rfl⟩
  exact hitems.bind (fun _ => (Fated.expectSymbol _ _).bind_settled fun _ => .pure _) fun _ j hj => Stuck.expectSymbol hj rfl

theorem callForm_fated : Fated A (A.length + 1) (Production.call.stray A) (callForm (readAt d)) := by
  refine (hform .atom nofun).bind (fun callee => .ite_lexeme rfl rfl ?_ (.pure _)) fun callee j hj => ?_
  · exact Fated.take.bind_settled fun _ => (argumentsForm_fated hA hform).bind_settled fun _ => .pure _
  · exact GoesAstray.strays hA onward_applied onward_afterCall hj d callee

omit hA in
theorem atomForm_fated : Fated A (A.length + 1) (Production.atom.stray A) (atomForm (readAt d)) := by
  refine .of_current (fun t => ?_) rfl rfl (.fail .operand)
  obtain ⟨l, span⟩ := t
  have hinner : ∀ {p : Production} {r : Reading Node}, Fated A (A.length + 1) (Stuck A) r →
      Fated A A.length (GoesAstray A afterAtom) r := fun h => (h.mono fun _ hj => hj.goesAstray).inside
  cases l with
  | numeral n => exact Fated.take.bind_settled fun _ => .pure _
  | string s => exact Fated.take.bind_settled fun _ => .pure _
  | name s => exact Fated.take.bind_settled fun _ => .pure _
  | symbol s =>
    cases s with
    | openParen =>
      refine Fated.take.bind_settled fun _ => (hform .expression nofun).bind (fun _ => ?_) fun _ j hj => ?_
      · exact (Fated.expectSymbol _ _).bind_settled fun _ => .pure _
      · exact Stuck.expectSymbol hj rfl
    | openSquare => exact hinner (p := .list) (hform .list nofun)
    | _ => exact (Fated.fail _).inside
  | keyword k =>
    cases k with
    | if_ => exact hinner (p := .choice) (hform .choice nofun)
    | for_ => exact hinner (p := .count) (hform .count nofun)
    | while_ => exact hinner (p := .loop) (hform .loop nofun)
    | fn => exact hinner (p := .function) (hform .function nofun)
    | _ => exact (Fated.fail _).inside
  | _ => exact (Fated.fail _).inside

end Operands

end Scriptlet.Grammar
