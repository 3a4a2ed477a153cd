import Scriptlet.Proofs.Grammar.Acceptance
/-!
# What may follow an operand

After an atom an expression goes on with arguments, then with factors, terms, comparands and conditions that are joined to
what was read.  Where it stops depends neither on the tree that was read so far nor, once it succeeds, on the depth, so it
can be said with places alone: `Passes tokens r i j` if from the place `i` the reading `r` comes to `j`, at some depth and
after some tree.

An operand that is followed by such a row is read by the looser productions as a whole (`expression_of_call` and the steps
before it in this module).
-/
namespace Scriptlet.Grammar

open Production Reading

/-! ## Going on -/

/-- A reading of what follows a tree, at each depth: it does not depend on the tree where it stops, more depth does not
change its success, and it stays on the tokens. -/
structure Onward (r : Nat → Node → Reading Node) : Prop where
  deeper : ∀ {d d' : Nat}, d ≤ d' → ∀ l, Follows True id id (r d l) (r d' l)
  free : ∀ {tokens : List Token}, Ended tokens → ∀ {d i : Nat} {l x : Node} {c : Cursor}, i < tokens.length →
    Reads (r d l) (.on tokens i) x c → ∀ l', ∃ x', Reads (r d l') (.on tokens i) x' c
  stays : ∀ {tokens : List Token}, Ended tokens → ∀ {d i : Nat} {l x : Node} {c : Cursor}, i < tokens.length →
    Reads (r d l) (.on tokens i) x c → ∃ j, c = .on tokens j ∧ i ≤ j ∧ j < tokens.length

/-- From one place the reading comes to another. -/
def Passes (tokens : List Token) (r : Nat → Node → Reading Node) (i j : Nat) : Prop :=
  ∃ d l x, Reads (r d l) (.on tokens i) x (.on tokens j)

theorem reads_deeper {α : Type} {r r' : Reading α} (h : Follows True id id r r') {tokens : List Token} (ht : tokens ≠ [])
    {i : Nat} {a : α} {c : Cursor} (hr : Reads r (.on tokens i) a c) : Reads r' (.on tokens i) a c := by
  rw [Reads, h.eq_of_not_tooDeep ht (by rw [hr.1]; simp)]
  exact hr

theorem readAt_deeper {d d' : Nat} (h : d ≤ d') (p : Production) : Follows True id id (readAt d p) (readAt d' p) := by
  rw [← Production.relocate_id p]
  exact readAt_follows id h (.inl trivial) p

theorem arguments_deeper {d d' : Nat} (h : d ≤ d') :
    Follows True id id (argumentsForm (readAt d)) (argumentsForm (readAt d')) := by
  have hfollows := argumentsForm_follows fun p => readAt_follows id h (.inl trivial) p
  rwa [Node.relocate_id_eq, List.map_id_fun] at hfollows

/-- What is read at some depth is read from some depth on. -/
theorem Accepts.of_reads {tokens : List Token} (ht : tokens ≠ []) {d : Nat} {p : Production} {i j : Nat} {a : p.Result}
    (h : Reads (readAt d p) (.on tokens i) a (.on tokens j)) : Accepts tokens p i a j :=
  ⟨d, fun _ hd => reads_deeper (readAt_deeper hd p) ht h⟩

/-- What is read from some depth on is refused nowhere, but may be too deep. -/
theorem Accepts.eq_or_tooDeep {tokens : List Token} (ht : tokens ≠ []) {p : Production} {i j : Nat} {a : p.Result}
    (h : Accepts tokens p i a j) (d : Nat) :
    (readAt d p (.on tokens i)).result = .error .tooDeep ∨ Reads (readAt d p) (.on tokens i) a (.on tokens j) := by
  obtain ⟨d₀, h⟩ := h
  rw [Classical.or_iff_not_imp_left]
  intro hd
  have hreads : Reads (readAt (d + d₀) p) (.on tokens i) a (.on tokens j) := h (d + d₀) (by omega)
  rwa [Reads, (readAt_deeper (Nat.le_add_right d d₀) p).eq_of_not_tooDeep ht hd] at hreads

namespace Onward

variable {r r' : Nat → Node → Reading Node} {tokens : List Token} {i j k : Nat}

theorem bind (h : Onward r) (h' : Onward r') : Onward fun d l => r d l >>= r' d where
  deeper hd l := .bind (h.deeper hd l) fun a => h'.deeper hd a
  free ht d i l x c hi hr l' := by
    obtain ⟨y, c₁, hy, hx⟩ := reads_bind.1 hr
    obtain ⟨j, rfl, _, hj⟩ := h.stays ht hi hy
    obtain ⟨y', hy'⟩ := h.free ht hi hy l'
    obtain ⟨x', hx'⟩ := h'.free ht hj hx y'
    exact ⟨x', reads_bind.2 ⟨y', _, hy', hx'⟩⟩
  stays ht d i l x c hi hr := by
    obtain ⟨y, c₁, hy, hx⟩ := reads_bind.1 hr
    obtain ⟨j, rfl, hij, hj⟩ := h.stays ht hi hy
    obtain ⟨k, rfl, hjk, hk⟩ := h'.stays ht hj hx
    exact ⟨k, rfl, Nat.le_trans hij hjk, hk⟩

/-- After any tree, from some depth on. -/
theorem fromDepth (h : Onward r) (ht : Ended tokens) (hi : i < tokens.length) (hp : Passes tokens r i j) (l : Node) :
    ∃ x, FromDepth fun d => Reads (r d l) (.on tokens i) x (.on tokens j) := by
  obtain ⟨d, l', x', hr⟩ := hp
  obtain ⟨x, hx⟩ := h.free ht hi hr l
  exact ⟨x, d, fun d' hd => reads_deeper (h.deeper hd l) ht.ne_nil hx⟩

theorem passes_bind (h : Onward r) (h' : Onward r') (ht : Ended tokens) (hi : i < tokens.length) :
    Passes tokens (fun d l => r d l >>= r' d) i k ↔
      ∃ j, i ≤ j ∧ j < tokens.length ∧ Passes tokens r i j ∧ Passes tokens r' j k := by
  constructor
  · rintro ⟨d, l, x, hr⟩
    obtain ⟨y, c₁, hy, hx⟩ := reads_bind.1 hr
    obtain ⟨j, rfl, hij, hj⟩ := h.stays ht hi hy
    exact ⟨j, hij, hj, ⟨d, l, y, hy⟩, ⟨d, y, x, hx⟩⟩
  · rintro ⟨j, _, hj, hp, hp'⟩
    have ⟨_, l, _, _⟩ := hp
    obtain ⟨y, d, hy⟩ := h.fromDepth ht hi hp l
    obtain ⟨x, d', hx⟩ := h'.fromDepth ht hj hp' y
    exact ⟨d + d', l, x, reads_bind.2 ⟨y, _, hy _ (by omega), hx _ (by omega)⟩⟩

end Onward

/-! ## Rows of operands -/

/-- Further operands, each after a lexeme that joins it. -/
def joined (joins : Lexeme → Bool) (further : Nat → Reading Node) (d : Nat) (l : Node) : Reading Node :=
  repeating (round joins Node.binary (further d)) l

section Joined

variable {joins : Lexeme → Bool} (heof : joins .eof = false) {further : Nat → Reading Node}
  (hdeeper : ∀ {d d' : Nat}, d ≤ d' → Follows True id id (further d) (further d'))
  {D : List Lexeme → Node → Lexeme → Prop}
  (hsound : ∀ {tokens : List Token}, Ended tokens → ∀ d, Sound tokens (further d) D)

include heof hsound

/-- Where it stops nothing joins. -/
theorem joined_stops {tokens : List Token} (ht : Ended tokens) {d i : Nat} {l x : Node} {c : Cursor} (hi : i < tokens.length)
    (h : Reads (joined joins further d l) (.on tokens i) x c) :
    ∃ j, c = .on tokens j ∧ i ≤ j ∧ j < tokens.length ∧ joins (Cursor.shown tokens j).lexeme = false := by
  obtain ⟨j, v, rfl, hj, _, hno⟩ := repeating_sound ht (hsound ht d) heof (fun _ _ _ => True) (fun _ _ _ _ _ _ _ _ _ => trivial)
    (.refl hi) trivial h
  exact ⟨j, rfl, hj.1, hj.2.1, hno⟩

theorem joined_free {tokens : List Token} (ht : Ended tokens) {d i : Nat} {l x : Node} {c : Cursor} (hi : i < tokens.length)
    (h : Reads (joined joins further d l) (.on tokens i) x c) (l' : Node) :
    ∃ x', Reads (joined joins further d l') (.on tokens i) x' c := by
  induction hn : tokens.length - i using Nat.strongRecOn generalizing l l' i with
  | _ n ih =>
    subst hn
    rcases (reads_repeating_iff ht (hsound ht d) heof Node.binary hi).1 h with ⟨hno, _, rfl⟩ | ⟨hjoins, a, j, hij, hj, ha, h⟩
    · exact ⟨l', (reads_repeating_iff ht (hsound ht d) heof Node.binary hi).2 (.inl ⟨hno, rfl, rfl⟩)⟩
    · obtain ⟨x', hx'⟩ := ih _ (by omega) hj h (.binary l' (Cursor.shown tokens i).lexeme a) rfl
      exact ⟨x', (reads_repeating_iff ht (hsound ht d) heof Node.binary hi).2 (.inr ⟨hjoins, a, j, hij, hj, ha, hx'⟩)⟩

include hdeeper in
theorem onward_joined : Onward (joined joins further) where
  deeper hd l := .repeating l fun l => .bind .lexeme fun op =>
    .ite (.bind .take fun _ => .bind (hdeeper hd) fun a => .pure rfl) (.pure rfl)
  free ht _ _ _ _ _ hi h := joined_free heof hsound ht hi h
  stays ht _ _ _ _ _ hi h := by
    obtain ⟨j, hc, hij, hj, _⟩ := joined_stops heof hsound ht hi h
    exact ⟨j, hc, hij, hj⟩

variable {tokens : List Token} (ht : Ended tokens) {i j : Nat} (hi : i < tokens.length)
  (h : Passes tokens (joined joins further) i j)

include ht hi h

theorem Passes.eq_of_joined (hno : joins (Cursor.shown tokens i).lexeme = false) : j = i := by
  obtain ⟨d, l, x, h⟩ := h
  rcases (reads_repeating_iff ht (hsound ht d) heof Node.binary hi).1 h with ⟨_, _, hc⟩ | ⟨hyes, _⟩
  · exact congrArg (fun c => c.index.toNat) hc
  · rw [hno] at hyes
    cases hyes

/-- Where a lexeme joins, an operand is read after it, and the row goes on. -/
theorem Passes.cons_of_joined (hyes : joins (Cursor.shown tokens i).lexeme = true) :
    ∃ d a k, i < k ∧ k < tokens.length ∧ Reads (further d) (.on tokens (i + 1)) a (.on tokens k) ∧
      Passes tokens (joined joins further) k j := by
  obtain ⟨d, l, x, h⟩ := h
  rcases (reads_repeating_iff ht (hsound ht d) heof Node.binary hi).1 h with ⟨hno, _⟩ | ⟨_, a, k, hik, hk, ha, h⟩
  · rw [hno] at hyes
    cases hyes
  · exact ⟨d, a, k, hik, hk, ha, d, _, x, h⟩

end Joined

/-! ## After each production -/

section After

open Lexeme

def afterComparison : Nat → Node → Reading Node := joined joinsConditions fun d => readAt d .comparison

def afterSum (d : Nat) (l : Node) : Reading Node :=
  joined joinsComparands (fun d => readAt d .sum) d l >>= afterComparison d

def afterProduct (d : Nat) (l : Node) : Reading Node :=
  joined joinsTerms (fun d => readAt d .product) d l >>= afterSum d

def afterFactor (d : Nat) (l : Node) : Reading Node :=
  joined joinsFactors (fun d => readAt d .factor) d l >>= afterProduct d

def afterCall (d : Nat) (l : Node) : Reading Node :=
  joined (isSymbol .power) (fun d => readAt d .factor) d l >>= afterFactor d

/-- The arguments of a call, if a parenthesis opens. -/
def applied (d : Nat) (callee : Node) : Reading Node := do
  if (← lexeme).isSymbol .openParen then
    take
    return .call callee (← argumentsForm (readAt d))
  else return callee

def afterAtom (d : Nat) (l : Node) : Reading Node := applied d l >>= afterCall d

theorem onward_afterComparison : Onward afterComparison :=
  onward_joined rfl (fun h => readAt_deeper h .comparison) fun ht d => readAt_sound ht d .comparison

theorem onward_comparands : Onward (joined joinsComparands fun d => readAt d .sum) :=
  onward_joined rfl (fun h => readAt_deeper h .sum) fun ht d => readAt_sound ht d .sum

theorem onward_terms : Onward (joined joinsTerms fun d => readAt d .product) :=
  onward_joined rfl (fun h => readAt_deeper h .product) fun ht d => readAt_sound ht d .product

theorem onward_factors : Onward (joined joinsFactors fun d => readAt d .factor) :=
  onward_joined rfl (fun h => readAt_deeper h .factor) fun ht d => readAt_sound ht d .factor

theorem onward_powers : Onward (joined (isSymbol .power) fun d => readAt d .factor) :=
  onward_joined rfl (fun h => readAt_deeper h .factor) fun ht d => readAt_sound ht d .factor

theorem onward_applied : Onward applied where
  deeper hd l :=
    .bind .lexeme fun _ => .ite (.bind .take fun _ => .bind (arguments_deeper hd) fun _ => .pure rfl) (.pure rfl)
  free ht d i l x c hi hr l' := by
    simp only [applied, reads_lexeme_bind, reads_ite, reads_take_bind, reads_pure] at hr ⊢
    rcases hr with ⟨hopen, hr⟩ | ⟨hopen, rfl, rfl⟩
    · obtain ⟨arguments, c₁, hargs, hr⟩ := reads_bind.1 hr
      obtain ⟨rfl, rfl⟩ := reads_pure.1 hr
      exact ⟨.call l' arguments, .inl ⟨hopen, reads_bind.2 ⟨arguments, _, hargs, reads_pure.2 ⟨rfl, rfl⟩⟩⟩⟩
    · exact ⟨l', .inr ⟨hopen, rfl, rfl⟩⟩
  stays ht d i l x c hi hr := by
    simp only [applied, reads_lexeme_bind, reads_ite, reads_take_bind, reads_pure, isSymbol_iff, Cursor.next_on] at hr
    rcases hr with ⟨hopen, hr⟩ | ⟨_, _, rfl⟩
    · obtain ⟨arguments, c₁, hargs, hr⟩ := reads_bind.1 hr
      obtain ⟨rfl, rfl⟩ := reads_pure.1 hr
      have hone := Covers.one ht hopen (by simp)
      obtain ⟨j, _, rfl, hj, _⟩ := argumentsForm_sound ht (readAt_sound ht d) hone.2.1 hargs
      exact ⟨j, rfl, Nat.le_trans (Nat.le_succ i) hj.1, hj.2.1⟩
    · exact ⟨i, rfl, Nat.le_refl i, hi⟩

theorem onward_afterSum : Onward afterSum := onward_comparands.bind onward_afterComparison

theorem onward_afterProduct : Onward afterProduct := onward_terms.bind onward_afterSum

theorem onward_afterFactor : Onward afterFactor := onward_factors.bind onward_afterProduct

theorem onward_afterCall : Onward afterCall := onward_powers.bind onward_afterFactor

end After

/-! ## From tight to loose -/

section Climbing

variable {tokens : List Token} (ht : Ended tokens) {i j k : Nat} {l : Node} (hj : j < tokens.length)

include ht hj

theorem accepts_power_joined (h : Accepts tokens .call i l j)
    (hp : Passes tokens (joined (Lexeme.isSymbol .power) fun d => readAt d .factor) j k) :
    ∃ x, Accepts tokens .power i x k := by
  obtain ⟨x, hx⟩ := onward_powers.fromDepth ht hj hp l
  exact ⟨x, (h.and hx).succ fun d ⟨h, hx⟩ => reads_bind.2 ⟨l, _, h, hx⟩⟩

theorem accepts_product_joined (h : Accepts tokens .factor i l j)
    (hp : Passes tokens (joined joinsFactors fun d => readAt d .factor) j k) : ∃ x, Accepts tokens .product i x k := by
  obtain ⟨x, hx⟩ := onward_factors.fromDepth ht hj hp l
  exact ⟨x, (h.and hx).succ fun d ⟨h, hx⟩ => reads_bind.2 ⟨l, _, h, hx⟩⟩

theorem accepts_sum_joined (h : Accepts tokens .product i l j)
    (hp : Passes tokens (joined joinsTerms fun d => readAt d .product) j k) : ∃ x, Accepts tokens .sum i x k := by
  obtain ⟨x, hx⟩ := onward_terms.fromDepth ht hj hp l
  exact ⟨x, (h.and hx).succ fun d ⟨h, hx⟩ => reads_bind.2 ⟨l, _, h, hx⟩⟩

variable (hstart : leads (Cursor.shown tokens i).lexeme = false)

include hstart

theorem expression_afterComparison (h : Accepts tokens .comparison i l j) (hp : Passes tokens afterComparison j k) :
    ∃ x, Accepts tokens .expression i x k := by
  obtain ⟨x, hx⟩ := onward_afterComparison.fromDepth ht hj hp l
  refine ⟨x, (h.and hx).succ fun d ⟨h, hx⟩ => ?_⟩
  simp only [leads, Bool.or_eq_false_iff] at hstart
  show Reads (expressionForm (readAt d)) _ _ _
  rw [expressionForm, reads_lexeme_bind, Cursor.on_current, if_neg (ne_true_of_eq_false hstart.2), reads_relabel]
  exact reads_bind.2 ⟨l, _, h, hx⟩

theorem expression_afterSum (h : Accepts tokens .sum i l j) (hp : Passes tokens afterSum j k) :
    ∃ x, Accepts tokens .expression i x k := by
  obtain ⟨m, _, hm, hp, hp'⟩ := (onward_comparands.passes_bind onward_afterComparison ht hj).1 hp
  obtain ⟨x, hx⟩ := onward_comparands.fromDepth ht hj hp l
  refine expression_afterComparison (l := x) ht hm hstart ((h.and hx).succ fun d ⟨h, hx⟩ => ?_) hp'
  simp only [leads, Bool.or_eq_false_iff] at hstart
  show Reads (comparisonForm (readAt d)) _ _ _
  rw [comparisonForm, reads_current_bind, Cursor.on_current, if_neg (ne_true_of_eq_false hstart.1), reads_relabel]
  exact reads_bind.2 ⟨l, _, h, hx⟩

theorem expression_afterFactor (h : Accepts tokens .factor i l j) (hp : Passes tokens afterFactor j k) :
    ∃ x, Accepts tokens .expression i x k := by
  obtain ⟨m, _, hm, hfactors, hp⟩ := (onward_factors.passes_bind onward_afterProduct ht hj).1 hp
  obtain ⟨m', _, hm', hterms, hp⟩ := (onward_terms.passes_bind onward_afterSum ht hm).1 hp
  obtain ⟨x, hx⟩ := accepts_product_joined ht hj h hfactors
  obtain ⟨y, hy⟩ := accepts_sum_joined ht hm hx hterms
  exact expression_afterSum ht hm' hstart hy hp

theorem expression_afterCall (hminus : (Cursor.shown tokens i).lexeme.isSymbol .minus = false)
    (h : Accepts tokens .call i l j) (hp : Passes tokens afterCall j k) : ∃ x, Accepts tokens .expression i x k := by
  obtain ⟨m, _, hm, hpowers, hp⟩ := (onward_powers.passes_bind onward_afterFactor ht hj).1 hp
  obtain ⟨x, hx⟩ := accepts_power_joined ht hj h hpowers
  exact expression_afterFactor ht hm hstart (accepts_factor hx hminus) hp

end Climbing

end Scriptlet.Grammar
