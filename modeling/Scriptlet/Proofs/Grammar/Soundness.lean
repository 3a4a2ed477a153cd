import Scriptlet.Proofs.Grammar.Derivation
import Scriptlet.Proofs.Grammar.Starts
/-!
# What is read is derived

A production that succeeds has read a row of lexemes that the grammar derives, with the tree it returns (`readAt_sound`), and
stands on a token after it.  A program that is read is derived from all its lexemes but the mark of the end
(`program_derived`).

Two things have to be seen on the way.  The sign of a power joins factors too, but a factor never leaves one behind, so
the rule for products does not name it.  And a loop with a condition looks for its body at a `do`, where no expression
begins, so it is never read.
-/
namespace Scriptlet

namespace Grammar

open Production Reading

/-! ## Sound readings -/

/-- From one number to another, both of tokens, stand the lexemes. -/
def Covers (tokens : List Token) (i : Nat) (u : List Lexeme) (j : Nat) : Prop :=
  i ≤ j ∧ j < tokens.length ∧ between tokens i j = u

namespace Covers

variable {tokens : List Token} {i j k : Nat} {u v : List Lexeme}

theorem refl (hi : i < tokens.length) : Covers tokens i [] i := ⟨Nat.le_refl i, hi, between_self tokens i⟩

theorem trans : Covers tokens i u j → Covers tokens j v k → Covers tokens i (u ++ v) k
  | ⟨hij, _, hu⟩, ⟨hjk, hk, hv⟩ => ⟨Nat.le_trans hij hjk, hk, by rw [between_append tokens hij hjk, hu, hv]⟩

/-- A lexeme other than the end is taken alone. -/
theorem one (ht : Ended tokens) {x : Lexeme} (hx : (Cursor.shown tokens i).lexeme = x) (hne : x ≠ .eof) :
    Covers tokens i [x] (i + 1) := by
  have hi : i + 1 < tokens.length := ht.succ_lt (hx ▸ hne)
  exact ⟨Nat.le_succ i, hi, by rw [between_cons (by omega) (Nat.lt_succ_self i), hx, between_self]⟩

theorem eq_add (h : Covers tokens i u j) : j = i + u.length := by
  obtain ⟨hij, hj, rfl⟩ := h
  rw [between, List.length_map, List.length_take, List.length_drop]
  omega

end Covers

theorem Cursor.on_current (tokens : List Token) (i : Nat) : (Cursor.on tokens i).current = Cursor.shown tokens i := rfl

/-- A reading that succeeds stops on a token of the row, and has read lexemes that are related to its result and to the
lexeme where it stopped. -/
def Sound {α : Type} (tokens : List Token) (r : Reading α) (D : List Lexeme → α → Lexeme → Prop) : Prop :=
  ∀ ⦃i : Nat⦄ ⦃a : α⦄ ⦃c' : Cursor⦄, i < tokens.length → Reads r (.on tokens i) a c' →
    ∃ j u, c' = .on tokens j ∧ Covers tokens i u j ∧ D u a (Cursor.shown tokens j).lexeme

/-- One round of a repetition: a lexeme that joins is taken, and what `further` reads is added to what there is. -/
abbrev Reading.round {α σ : Type} (joins : Lexeme → Bool) (add : σ → Lexeme → α → σ) (further : Reading α) (s : σ) :
    Reading (Option σ) := do
  let op ← lexeme
  if joins op then
    take
    return some (add s op (← further))
  else return none

theorem Sound.imp {α : Type} {tokens : List Token} {r : Reading α} {D E : List Lexeme → α → Lexeme → Prop}
    (h : ∀ u a next, D u a next → E u a next) (hr : Sound tokens r D) : Sound tokens r E := by
  intro i a c' hi ha
  obtain ⟨j, u, hc, hj, hD⟩ := hr hi ha
  exact ⟨j, u, hc, hj, h _ _ _ hD⟩

section Repetition

variable {tokens : List Token} (ht : Ended tokens)

include ht

section Rounds

variable {α σ : Type} {further : Reading α} {D : List Lexeme → α → Lexeme → Prop} (hf : Sound tokens further D)
  {joins : Lexeme → Bool} (heof : joins .eof = false) {add : σ → Lexeme → α → σ}

include hf heof

/-- A round that adds something has taken a lexeme that joins, and then what `further` reads. -/
theorem reads_round {s t : σ} {i : Nat} {c' : Cursor} (h : Reads (round joins add further s) (.on tokens i) (some t) c') :
    ∃ a j v, c' = .on tokens j ∧ Covers tokens i [(Cursor.shown tokens i).lexeme] (i + 1) ∧ Covers tokens (i + 1) v j ∧
      joins (Cursor.shown tokens i).lexeme = true ∧ t = add s (Cursor.shown tokens i).lexeme a ∧
      D v a (Cursor.shown tokens j).lexeme := by
  simp only [Reading.round, reads_lexeme_bind, reads_ite, reads_take_bind, reads_pure, reduceCtorEq, false_and, and_false,
    or_false, Cursor.next_on] at h
  obtain ⟨hj, h⟩ := h
  obtain ⟨a, c₁, ha, h⟩ := reads_bind.1 h
  obtain ⟨hst, rfl⟩ := reads_pure.1 h
  cases hst
  rw [Cursor.on_current] at hj
  have hi := Covers.one ht (i := i) rfl (fun he => by rw [he, heof] at hj; cases hj)
  obtain ⟨j, v, rfl, hv, hD⟩ := hf hi.2.1 ha
  exact ⟨a, j, v, rfl, hi, hv, hj, rfl, hD⟩

theorem advances_round : Advances tokens (round joins add further) := by
  intro s t i c' _ h
  obtain ⟨a, j, v, rfl, _, hv, _⟩ := reads_round ht hf heof h
  exact ⟨j, rfl, hv.1, hv.2.1⟩

/-- An invariant of the rounds holds of all that a repetition has read, and at its end nothing joins. -/
theorem repeating_sound (I : List Lexeme → σ → Lexeme → Prop)
    (hI : ∀ u s op v a next, I u s op → joins op = true → D v a next → I (u ++ op :: v) (add s op a) next)
    {s s' : σ} {i k : Nat} {u : List Lexeme} {c' : Cursor} (hu : Covers tokens k u i)
    (hs : I u s (Cursor.shown tokens i).lexeme)
    (h : Reads (repeating (round joins add further) s) (.on tokens i) s' c') :
    ∃ j v, c' = .on tokens j ∧ Covers tokens k v j ∧ I v s' (Cursor.shown tokens j).lexeme ∧
      joins (Cursor.shown tokens j).lexeme = false := by
  obtain ⟨j, _, _, ⟨v, hv, hIv⟩, hend⟩ := repeating_invariant tokens (advances_round ht hf heof)
    (I := fun s m => ∃ v, Covers tokens k v m ∧ I v s (Cursor.shown tokens m).lexeme)
    (fun s t m n _ _ ⟨v, hv, hIv⟩ hr => by
      obtain ⟨a, n', w, hnn, hm, hw, hjo, rfl, hD⟩ := reads_round ht hf heof hr
      cases hnn
      exact ⟨_, hv.trans (hm.trans hw), hI _ _ _ _ _ _ hIv hjo hD⟩)
    hu.2.1 ⟨u, hu, hs⟩ h
  simp only [Reading.round, reads_lexeme_bind, reads_ite, reads_take_bind, reads_pure, true_and, Bool.not_eq_true] at hend
  rcases hend with ⟨_, hend⟩ | ⟨hno, rfl⟩
  · obtain ⟨_, _, _, hend⟩ := reads_bind.1 hend
    cases (reads_pure.1 hend).1
  · exact ⟨j, v, rfl, hv, hIv, hno⟩

end Rounds

omit ht in
theorem reads_newline_round {m i : Nat} {t : Option Nat} {c' : Cursor} : Reads (do
      if (← lexeme).isNewline then
        take
        return some (m + 1)
      else return none) (.on tokens i) t c' ↔
    ((Cursor.shown tokens i).lexeme = .newline ∧ t = some (m + 1) ∧ c' = .on tokens (i + 1)) ∨
    ((Cursor.shown tokens i).lexeme ≠ .newline ∧ t = none ∧ c' = .on tokens i) := by
  simp only [reads_lexeme_bind, reads_ite, reads_take_bind, reads_pure, Lexeme.isNewline_iff, Cursor.next_on]
  exact Iff.rfl

theorem advances_newline : Advances tokens fun m : Nat => do
      if (← lexeme).isNewline then
        take
        return some (m + 1)
      else return none := by
  intro m t i c' _ h
  rcases reads_newline_round.1 h with ⟨hl, _, rfl⟩ | ⟨_, hn, _⟩
  · exact ⟨i + 1, rfl, Nat.lt_succ_self i, (Covers.one ht hl (by simp)).2.1⟩
  · cases hn

theorem newlines_sound :
    Sound tokens newlines fun u n next => u = List.replicate n .newline ∧ next ≠ .newline := by
  intro i n c' hi h
  obtain ⟨j, _, _, hI, hend⟩ := repeating_invariant tokens (advances_newline ht)
    (I := fun m k => Covers tokens i (List.replicate m .newline) k)
    (fun m t k k' _ _ hI hr => by
      rcases reads_newline_round.1 hr with ⟨hl, hm, hc⟩ | ⟨_, hn, _⟩
      · cases hm
        cases hc
        rw [List.replicate_succ']
        exact hI.trans (.one ht hl (by simp))
      · cases hn) hi (show Covers tokens i (List.replicate 0 .newline) i from .refl hi) h
  rcases reads_newline_round.1 hend with ⟨_, hn, _⟩ | ⟨hl, _, rfl⟩
  · cases hn
  · exact ⟨j, _, rfl, hI, rfl, hl⟩

theorem commaSeparated_sound {α : Type} {item : Reading α} {D : List Lexeme → α → Lexeme → Prop}
    (hitem : Sound tokens item D) {R : List Lexeme → List α → Prop} (hone : ∀ u a next, D u a next → R u [a])
    (hmore : ∀ u as v a next, R u as → D v a next → R (u ++ .symbol .comma :: v) (as ++ [a])) :
    Sound tokens item.commaSeparated fun u as _ => R u as := by
  intro i as c' hi h
  obtain ⟨a, c₁, ha, h⟩ := reads_bind.1 h
  obtain ⟨j, u, rfl, hj, hD⟩ := hitem hi ha
  obtain ⟨items, c₂, hrow, h⟩ := reads_bind.1 h
  obtain ⟨rfl, rfl⟩ := reads_pure.1 h
  obtain ⟨k, v, rfl, hk, hR, _⟩ := repeating_sound ht hitem rfl (fun u items _ => R u items.reverse)
    (fun u items op v a next hu hop hv => by
      rw [Lexeme.isSymbol_iff.1 hop, List.reverse_cons]
      exact hmore _ _ _ _ _ hu hv) hj (show R u [a].reverse from hone _ _ _ hD) hrow
  exact ⟨k, v, rfl, hk, hR⟩

/-- In a chain nothing that joins is left behind.  The operators are those that join where an operand may stop. -/
theorem chain_sound {operand further : Reading Node} {joins : Lexeme → Bool} {first second : Form} (ops : List Lexeme)
    (K : Lexeme → Prop) (hops : ∀ l, K l → joins l = true → l ∈ ops) (heof : joins .eof = false)
    (ho : Sound tokens operand fun u n next => Derives first u n ∧ K next)
    (hf : Sound tokens further fun u n next => Derives second u n ∧ K next) :
    Sound tokens (chain operand further joins) fun u n next =>
      Joined first ops second u n ∧ K next ∧ joins next = false := by
  intro i n c' hi h
  obtain ⟨n₀, c₁, ho', h⟩ := reads_bind.1 h
  obtain ⟨j, u, rfl, hj, hD, hK⟩ := ho hi ho'
  obtain ⟨k, v, rfl, hk, ⟨hJ, hK'⟩, hno⟩ := repeating_sound ht hf heof
    (fun u n next => Joined first ops second u n ∧ K next)
    (fun u l op v r next hu hop hv => ⟨.more hu.1 (hops op hu.2 hop) hv.1, hv.2⟩) hj ⟨.one hD, hK⟩ h
  exact ⟨k, v, rfl, hk, hJ, hK', hno⟩

end Repetition

/-! ## The forms -/

/-- What the lexemes that a production reads, its result and the lexeme after them have in common. -/
def Production.Derivation : (p : Production) → List Lexeme → p.Result → Lexeme → Prop
  | .statements, u, block, _ => Statements u block.items
  | .expression, u, n, _ => Derives .expression u n
  | .comparison, u, n, _ => Derives .comparison u n
  | .sum, u, n, _ => Derives .sum u n
  | .product, u, n, _ => Derives .product u n
  | .factor, u, n, next => Derives .factor u n ∧ next ≠ .symbol .power
  | .power, u, n, next => Derives .power u n ∧ next ≠ .symbol .power
  | .call, u, n, _ => Derives .call u n
  | .atom, u, n, _ => Derives .atom u n
  | .list, u, n, _ => Derives .list u n
  | .choice, u, n, _ => Derives .choice u n
  | .elifChoice, u, c, _ => ∃ v, u = .keyword .elif :: v ∧ CaseRow v c
  | .otherwise, u, body, _ => RestRow u ⟨[], body⟩
  | .choiceTail, u, tail, _ => RestRow u tail
  | .count, u, n, _ => Derives .count u n
  | .loop, _, _, _ => False
  | .function, u, n, _ => Derives .function u n

section Forms

variable {tokens : List Token} (ht : Ended tokens) {read : (p : Production) → Reading p.Result}
  (hread : ∀ p : Production, Sound tokens (read p) p.Derivation)

include ht hread

theorem expressionForm_sound : Sound tokens (expressionForm read) (Derivation .expression) := by
  intro i n c' hi h
  simp only [expressionForm, reads_lexeme_bind, reads_ite, reads_relabel, reads_take_bind, Lexeme.isKeyword_iff,
    Cursor.next_on] at h
  rcases h with ⟨hvar, h⟩ | ⟨_, h⟩
  · obtain ⟨⟨x, span⟩, c₁, hname, h⟩ := reads_bind.1 h
    obtain ⟨hx, _, rfl⟩ := reads_expectName.1 hname
    simp only [Cursor.next_on, reads_expectSymbol_bind] at h
    obtain ⟨heq, h⟩ := h
    obtain ⟨value, c₂, hv, h⟩ := reads_bind.1 h
    obtain ⟨rfl, rfl⟩ := reads_pure.1 h
    have hhead := (Covers.one ht hvar (by simp)).trans ((Covers.one ht hx (by simp)).trans (.one ht heq (by simp)))
    obtain ⟨j, u, rfl, hj, hD⟩ := hread .expression hhead.2.1 hv
    exact ⟨j, _, rfl, hhead.trans hj, .assign hD⟩
  · refine Sound.imp (fun u n _ h => .conditions h.1) (chain_sound ht [.keyword .and, .keyword .or] (fun _ => True)
      (fun l _ hl => ?_) rfl ?_ ?_) hi h
    · simpa [joinsConditions] using hl
    · exact (hread .comparison).imp fun _ _ _ h => ⟨h, trivial⟩
    · exact (hread .comparison).imp fun _ _ _ h => ⟨h, trivial⟩

theorem comparisonForm_sound : Sound tokens (comparisonForm read) (Derivation .comparison) := by
  intro i n c' hi h
  simp only [comparisonForm, reads_current_bind, reads_ite, reads_relabel, reads_take_bind, Lexeme.isKeyword_iff,
    Cursor.next_on] at h
  rcases h with ⟨hnot, h⟩ | ⟨_, h⟩
  · obtain ⟨operand, c₁, ho, h⟩ := reads_bind.1 h
    obtain ⟨rfl, rfl⟩ := reads_pure.1 h
    have hhead := Covers.one ht hnot (by simp)
    obtain ⟨j, u, rfl, hj, hD⟩ := hread .comparison hhead.2.1 ho
    refine ⟨j, _, rfl, hhead.trans hj, ?_⟩
    rw [show (Cursor.on tokens i).current = ⟨.keyword .not, (Cursor.on tokens i).current.span⟩ by rw [← hnot]]
    exact .negation hD
  · refine Sound.imp (fun u n _ h => .comparands h.1) (chain_sound ht _ (fun _ => True)
      (fun l _ hl => ?_) rfl ?_ ?_) hi h
    · cases l with
      | symbol s => cases s <;> simp_all [joinsComparands, isComparison]
      | _ => simp [joinsComparands] at hl
    · exact (hread .sum).imp fun _ _ _ h => ⟨h, trivial⟩
    · exact (hread .sum).imp fun _ _ _ h => ⟨h, trivial⟩

theorem sum_sound : Sound tokens (chain (read .product) (read .product) joinsTerms) (Derivation .sum) := by
  refine Sound.imp (fun u n _ h => .terms h.1) (chain_sound ht [.symbol .plus, .symbol .minus] (fun _ => True)
    (fun l _ hl => ?_) rfl ?_ ?_)
  · simpa [joinsTerms] using hl
  · exact (hread .product).imp fun _ _ _ h => ⟨h, trivial⟩
  · exact (hread .product).imp fun _ _ _ h => ⟨h, trivial⟩

/-- The sign of a power joins factors too, but no factor stops at one. -/
theorem product_sound : Sound tokens (chain (read .factor) (read .factor) joinsFactors) (Derivation .product) := by
  refine Sound.imp (fun u n _ h => .factors h.1) (chain_sound ht _ (· ≠ .symbol .power)
    (fun l hl hj => ?_) rfl (hread .factor) (hread .factor))
  cases l with
  | symbol s => cases s <;> simp_all [joinsFactors, isProductSign]
  | _ => simp [joinsFactors] at hj

theorem factorForm_sound : Sound tokens (factorForm read) (Derivation .factor) := by
  intro i n c' hi h
  simp only [factorForm, reads_current_bind, reads_ite, reads_take_bind, Lexeme.isSymbol_iff, Cursor.next_on] at h
  rcases h with ⟨hminus, h⟩ | ⟨_, h⟩
  · obtain ⟨operand, c₁, ho, h⟩ := reads_bind.1 h
    obtain ⟨rfl, rfl⟩ := reads_pure.1 h
    have hhead := Covers.one ht hminus (by simp)
    obtain ⟨j, u, rfl, hj, hD, hnext⟩ := hread .factor hhead.2.1 ho
    refine ⟨j, _, rfl, hhead.trans hj, ?_, hnext⟩
    rw [show (Cursor.on tokens i).current = ⟨.symbol .minus, (Cursor.on tokens i).current.span⟩ by rw [← hminus]]
    exact .opposite hD
  · obtain ⟨j, u, rfl, hj, hD, hnext⟩ := hread .power hi h
    exact ⟨j, u, rfl, hj, .unsigned hD, hnext⟩

theorem power_sound : Sound tokens (chain (read .call) (read .factor) (·.isSymbol .power)) (Derivation .power) := by
  refine Sound.imp (fun u n next h => ⟨.powers h.1, fun hn => ?_⟩) (chain_sound ht [.symbol .power] (fun _ => True)
    (fun l _ hl => ?_) rfl ?_ ?_)
  · have := h.2.2
    rw [hn] at this
    cases this
  · simpa using hl
  · exact (hread .call).imp fun _ _ _ h => ⟨h, trivial⟩
  · exact (hread .factor).imp fun _ _ _ h => ⟨h.1, trivial⟩

theorem itemRow_sound : Sound tokens (commaSeparated (read .expression)) fun u ns _ => ItemRow u ns :=
  commaSeparated_sound ht (hread .expression) (fun _ _ _ h => .one h) (fun _ _ _ _ _ hu hv => .more hu hv)

theorem argumentsForm_sound :
    Sound tokens (argumentsForm read) fun u ns _ => ∃ v, u = v ++ [.symbol .closeParen] ∧ Items v ns := by
  intro i ns c' hi h
  simp only [argumentsForm, reads_lexeme_bind, reads_ite, reads_take_bind, reads_pure, Lexeme.isSymbol_iff,
    Cursor.next_on] at h
  rcases h with ⟨hclose, rfl, rfl⟩ | ⟨_, h⟩
  · exact ⟨_, _, rfl, .one ht hclose (by simp), [], rfl, .none⟩
  · obtain ⟨row, c₁, hr, h⟩ := reads_bind.1 h
    obtain ⟨j, v, rfl, hj, hrow⟩ := itemRow_sound ht hread hi hr
    simp only [reads_expectSymbol_bind, reads_pure, Cursor.next_on] at h
    obtain ⟨hclose, rfl, rfl⟩ := h
    exact ⟨_, _, rfl, hj.trans (.one ht hclose (by simp)), v, rfl, .row hrow⟩

theorem callForm_sound : Sound tokens (callForm read) (Derivation .call) := by
  intro i n c' hi h
  obtain ⟨callee, c₁, hc, h⟩ := reads_bind.1 h
  obtain ⟨j, u, rfl, hj, hD⟩ := hread .atom hi hc
  simp only [reads_lexeme_bind, reads_ite, reads_take_bind, reads_pure, Lexeme.isSymbol_iff, Cursor.next_on] at h
  rcases h with ⟨hopen, h⟩ | ⟨_, rfl, rfl⟩
  · obtain ⟨arguments, c₂, ha, h⟩ := reads_bind.1 h
    obtain ⟨rfl, rfl⟩ := reads_pure.1 h
    have hhead := hj.trans (.one ht hopen (by simp))
    obtain ⟨k, _, rfl, hk, v, rfl, hv⟩ := argumentsForm_sound ht hread hhead.2.1 ha
    refine ⟨k, _, rfl, hhead.trans hk, ?_⟩
    rw [List.append_assoc]
    exact .call hD hv
  · exact ⟨j, u, rfl, hj, .callee hD⟩

theorem parenthesised_sound (i : Nat) (n : Node) (c' : Cursor) (hopen : (Cursor.shown tokens i).lexeme = .symbol .openParen)
    (h : Reads (parenthesised read) (.on tokens i) n c') :
    ∃ j u, c' = .on tokens j ∧ Covers tokens i u j ∧ Derives .atom u n := by
  have hhead := Covers.one ht hopen (by simp)
  simp only [parenthesised, reads_take_bind, Cursor.next_on] at h
  obtain ⟨node, c₁, hn, h⟩ := reads_bind.1 h
  obtain ⟨j, u, rfl, hj, hD⟩ := hread .expression hhead.2.1 hn
  simp only [reads_expectSymbol_bind, reads_pure, Cursor.next_on] at h
  obtain ⟨hclose, rfl, rfl⟩ := h
  exact ⟨_, _, rfl, hhead.trans (hj.trans (.one ht hclose (by simp))), .parenthesised hD⟩

theorem atomForm_sound : Sound tokens (atomForm read) (Derivation .atom) := by
  intro i n c' hi h
  simp only [atomForm, reads_current_bind, Cursor.on_current] at h
  -- The lexeme where the atom begins decides its form.
  generalize hl : (Cursor.shown tokens i).lexeme = l at h
  split at h
  · simp only [reads_take_bind, reads_pure, Cursor.next_on] at h
    obtain ⟨rfl, rfl⟩ := h
    exact ⟨_, _, rfl, .one ht hl (by simp), .number⟩
  · simp only [reads_take_bind, reads_pure, Cursor.next_on] at h
    obtain ⟨rfl, rfl⟩ := h
    exact ⟨_, _, rfl, .one ht hl (by simp), .string⟩
  · simp only [reads_take_bind, reads_pure, Cursor.next_on] at h
    obtain ⟨rfl, rfl⟩ := h
    exact ⟨_, _, rfl, .one ht hl (by simp), .access⟩
  · exact parenthesised_sound ht hread i n c' hl h
  · obtain ⟨j, u, hc, hj, hD⟩ := hread .list hi h
    exact ⟨j, u, hc, hj, .ofList hD⟩
  · obtain ⟨j, u, hc, hj, hD⟩ := hread .choice hi h
    exact ⟨j, u, hc, hj, .ofChoice hD⟩
  · obtain ⟨j, u, hc, hj, hD⟩ := hread .count hi h
    exact ⟨j, u, hc, hj, .ofCount hD⟩
  · obtain ⟨j, u, hc, hj, hD⟩ := hread .loop hi h
    exact hD.elim
  · obtain ⟨j, u, hc, hj, hD⟩ := hread .function hi h
    exact ⟨j, u, hc, hj, .ofFunction hD⟩
  · exact (reads_fail.1 h).elim

theorem listForm_sound : Sound tokens (listForm read) (Derivation .list) := by
  intro i n c' hi h
  simp only [listForm, reads_current_bind, reads_expectSymbol_bind, Cursor.next_on] at h
  obtain ⟨hopen, h⟩ := h
  have hhead := Covers.one ht hopen (by simp)
  simp only [reads_lexeme_bind, reads_ite, reads_take_bind, reads_pure_bind, reads_current_bind, reads_pure,
    Lexeme.isSymbol_iff, Cursor.next_on] at h
  rcases h with ⟨hclose, rfl, rfl⟩ | ⟨_, h⟩
  · exact ⟨_, _, rfl, hhead.trans (.one ht hclose (by simp)), .list .none⟩
  · obtain ⟨items, c₁, hr, h⟩ := reads_bind.1 h
    obtain ⟨j, v, rfl, hj, hrow⟩ := itemRow_sound ht hread hhead.2.1 hr
    simp only [reads_expectSymbol_bind, reads_pure_bind, reads_current_bind, reads_pure, Cursor.next_on] at h
    obtain ⟨hclose, rfl, rfl⟩ := h
    exact ⟨_, _, rfl, hhead.trans (hj.trans (.one ht hclose (by simp))), .list (.row hrow)⟩

theorem closedBlock_sound {i : Nat} {body : Body} {c' : Cursor} (hline : (Cursor.shown tokens i).lexeme = .newline)
    (h : Reads (closedBlock read) (.on tokens i) body c') :
    ∃ j u ns span, c' = .on tokens j ∧ Covers tokens i (.newline :: (u ++ [.keyword .end_])) j ∧ Statements u ns ∧
      body = .block (.list ns span) := by
  have hhead := Covers.one ht hline (by simp)
  simp only [closedBlock, reads_take_bind, Cursor.next_on] at h
  obtain ⟨block, c₁, hb, h⟩ := reads_bind.1 h
  obtain ⟨j, u, rfl, hj, hD⟩ := hread .statements hhead.2.1 hb
  simp only [reads_expectKeyword_bind, reads_pure, Cursor.next_on] at h
  obtain ⟨hend, rfl, rfl⟩ := h
  exact ⟨_, u, _, _, rfl, hhead.trans (hj.trans (.one ht hend (by simp))), hD, rfl⟩

theorem bodyForm_sound : Sound tokens (bodyForm read) fun u body _ => BodyRow u body := by
  intro i body c' hi h
  simp only [bodyForm, reads_lexeme_bind, reads_ite, Lexeme.isNewline_iff] at h
  rcases h with ⟨hline, h⟩ | ⟨_, h⟩
  · obtain ⟨j, u, ns, span, rfl, hj, hD, rfl⟩ := closedBlock_sound ht hread hline h
    exact ⟨j, _, rfl, hj, .block hD⟩
  · obtain ⟨n, c₁, hn, h⟩ := reads_bind.1 h
    obtain ⟨rfl, rfl⟩ := reads_pure.1 h
    obtain ⟨j, u, rfl, hj, hD⟩ := hread .expression hi hn
    exact ⟨j, u, rfl, hj, .inline hD⟩

theorem choiceFrom_sound (k : Keyword) :
    Sound tokens (choiceFrom read k) fun u c _ => ∃ v, u = .keyword k :: v ∧ CaseRow v c := by
  intro i c c' hi h
  simp only [choiceFrom, reads_expectKeyword_bind, Cursor.next_on] at h
  obtain ⟨hk, h⟩ := h
  have hhead := Covers.one ht hk (by simp)
  obtain ⟨test, c₁, htest, h⟩ := reads_bind.1 h
  obtain ⟨j, u, rfl, hj, hD⟩ := hread .expression hhead.2.1 htest
  simp only [reads_expectKeyword_bind, reads_lexeme_bind, reads_ite, reads_take_bind, Lexeme.isNewline_iff,
    Cursor.next_on] at h
  obtain ⟨hthen, ⟨hline, h⟩ | ⟨_, h⟩⟩ := h
  · have hto := hj.trans ((Covers.one ht hthen (by simp)).trans (.one ht hline (by simp)))
    obtain ⟨block, c₂, hb, h⟩ := reads_bind.1 h
    obtain ⟨m, v, rfl, hm, hS⟩ := hread .statements hto.2.1 hb
    simp only [reads_lexeme_bind, reads_ite, reads_take_bind, reads_pure, Lexeme.isKeyword_iff, Cursor.next_on] at h
    rcases h with ⟨hend, rfl, rfl⟩ | ⟨_, h⟩
    · refine ⟨_, _, rfl, hhead.trans (hto.trans (hm.trans (.one ht hend (by simp)))), _, rfl, ?_⟩
      rw [List.append_assoc]
      exact .closed hD hS
    · obtain ⟨tail, c₃, htail, h⟩ := reads_bind.1 h
      obtain ⟨rfl, rfl⟩ := reads_pure.1 h
      obtain ⟨n, w, rfl, hn, hR⟩ := hread .choiceTail hm.2.1 htail
      refine ⟨n, _, rfl, hhead.trans (hto.trans (hm.trans hn)), _, rfl, ?_⟩
      rw [List.append_assoc]
      exact .block (v := v) hD hS hR
  · have hto := hj.trans (Covers.one ht hthen (by simp))
    obtain ⟨value, c₂, hv, h⟩ := reads_bind.1 h
    obtain ⟨m, v, rfl, hm, hV⟩ := hread .expression hto.2.1 hv
    obtain ⟨tail, c₃, htail, h⟩ := reads_bind.1 h
    obtain ⟨rfl, rfl⟩ := reads_pure.1 h
    obtain ⟨n, w, rfl, hn, hR⟩ := hread .choiceTail hm.2.1 htail
    refine ⟨n, _, rfl, hhead.trans (hto.trans (hm.trans hn)), _, rfl, ?_⟩
    rw [List.append_assoc]
    exact .inline (v := v) hD hV hR

theorem otherwiseForm_sound : Sound tokens (otherwiseForm read) (Derivation .otherwise) := by
  intro i body c' hi h
  simp only [otherwiseForm, reads_lexeme_bind, reads_ite, reads_take_bind, reads_pure, Lexeme.isKeyword_iff,
    Cursor.next_on] at h
  rcases h with ⟨helse, h⟩ | ⟨_, rfl, rfl⟩
  · have hhead := Covers.one ht helse (by simp)
    obtain ⟨b, c₁, hb, h⟩ := reads_bind.1 h
    obtain ⟨rfl, rfl⟩ := reads_pure.1 h
    obtain ⟨j, u, rfl, hj, hD⟩ := bodyForm_sound ht hread hhead.2.1 hb
    exact ⟨j, _, rfl, hhead.trans hj, .otherwise hD⟩
  · exact ⟨i, [], rfl, .refl hi, .empty⟩

omit ht in
theorem choiceTailForm_sound : Sound tokens (choiceTailForm read) (Derivation .choiceTail) := by
  intro i tail c' hi h
  simp only [choiceTailForm, reads_lexeme_bind, reads_ite] at h
  rcases h with ⟨_, h⟩ | ⟨_, h⟩
  · obtain ⟨c, c₁, hc, h⟩ := reads_bind.1 h
    obtain ⟨rfl, rfl⟩ := reads_pure.1 h
    obtain ⟨j, _, rfl, hj, v, rfl, hD⟩ := hread .elifChoice hi hc
    exact ⟨j, _, rfl, hj, .elif hD⟩
  · obtain ⟨body, c₁, hb, h⟩ := reads_bind.1 h
    obtain ⟨rfl, rfl⟩ := reads_pure.1 h
    exact hread .otherwise hi hb

theorem countForm_sound : Sound tokens (countForm read) (Derivation .count) := by
  intro i n c' hi h
  simp only [countForm, reads_expectKeyword_bind, Cursor.next_on] at h
  obtain ⟨hfor, h⟩ := h
  obtain ⟨⟨x, span⟩, c₁, hname, h⟩ := reads_bind.1 h
  obtain ⟨hx, _, rfl⟩ := reads_expectName.1 hname
  simp only [Cursor.next_on, reads_expectSymbol_bind] at h
  obtain ⟨heq, h⟩ := h
  have hhead := (Covers.one ht hfor (by simp)).trans ((Covers.one ht hx (by simp)).trans (.one ht heq (by simp)))
  obtain ⟨first, c₂, hf, h⟩ := reads_bind.1 h
  obtain ⟨j, u, rfl, hj, hU⟩ := hread .expression hhead.2.1 hf
  simp only [reads_expectKeyword_bind, Cursor.next_on] at h
  obtain ⟨hto, h⟩ := h
  have hj' := hj.trans (.one ht hto (by simp))
  obtain ⟨last, c₃, hl, h⟩ := reads_bind.1 h
  obtain ⟨k, v, rfl, hk, hV⟩ := hread .expression hj'.2.1 hl
  simp only [reads_lexeme_bind, reads_ite, reads_take_bind, reads_pure_bind, reads_expectKeyword_bind,
    Lexeme.isKeyword_iff, Cursor.next_on] at h
  rcases h with ⟨hstep, h⟩ | ⟨_, hdo, h⟩
  · have hk' := hk.trans (.one ht hstep (by simp))
    obtain ⟨step, c₄, hs, h⟩ := reads_bind.1 h
    obtain ⟨l, s, rfl, hl, hS⟩ := hread .expression hk'.2.1 hs
    simp only [reads_pure_bind, reads_expectKeyword_bind, Cursor.next_on] at h
    obtain ⟨hdo, h⟩ := h
    have hl' := hl.trans (.one ht hdo (by simp))
    obtain ⟨body, c₅, hb, h⟩ := reads_bind.1 h
    obtain ⟨rfl, rfl⟩ := reads_pure.1 h
    obtain ⟨m, w, rfl, hm, hB⟩ := bodyForm_sound ht hread hl'.2.1 hb
    refine ⟨m, _, rfl, hhead.trans (hj'.trans (hk'.trans (hl'.trans hm))), ?_⟩
    simp only [List.append_assoc]
    exact .countBy hU hV hS hB
  · have hk' := hk.trans (.one ht hdo (by simp))
    obtain ⟨body, c₅, hb, h⟩ := reads_bind.1 h
    obtain ⟨rfl, rfl⟩ := reads_pure.1 h
    obtain ⟨m, w, rfl, hm, hB⟩ := bodyForm_sound ht hread hk'.2.1 hb
    refine ⟨m, _, rfl, hhead.trans (hj'.trans (hk'.trans hm)), ?_⟩
    simp only [List.append_assoc]
    exact .count hU hV hB

omit ht hread in
/-- The body of a loop with a condition is looked for at a `do`, where no expression begins. -/
theorem not_reads_loopForm {named : Prop} (hr : Refuses named (read .expression)) (c c' : Cursor) (n : Node) :
    ¬Reads (loopForm read) c n c' := by
  intro h
  simp only [loopForm, reads_expectKeyword_bind] at h
  obtain ⟨_, h⟩ := h
  obtain ⟨test, c₁, _, h⟩ := reads_bind.1 h
  simp only [reads_take_bind, reads_lexeme_bind, reads_ite, reads_fail, and_false, or_false, Lexeme.isKeyword_iff] at h
  obtain ⟨hdo, h⟩ := h
  obtain ⟨body, c₂, hb, _⟩ := reads_bind.1 h
  exact hr.not_reads (by rw [hdo]; rfl) hb

omit hread in
theorem expectName_sound (e : Expected) : Sound tokens (expectName e) fun u name _ => u = [.name name.text] := by
  intro i name c' hi h
  obtain ⟨hx, _, rfl⟩ := reads_expectName.1 h
  exact ⟨_, _, Cursor.next_on tokens i, .one ht hx (by simp), rfl⟩

omit hread in
theorem parametersForm_sound :
    Sound tokens parametersForm fun u names _ => ∃ v, u = v ++ [.symbol .closeParen] ∧ Parameters v names := by
  intro i names c' hi h
  simp only [parametersForm, reads_lexeme_bind] at h
  split at h
  · obtain ⟨row, c₁, hr, h⟩ := reads_bind.1 h
    have hname := expectName_sound ht .parameter
    obtain ⟨j, v, rfl, hj, hrow⟩ := commaSeparated_sound ht hname (R := NameRow) (fun _ _ _ h => h ▸ .one)
      (fun _ _ _ _ _ hu hv => hv ▸ .more hu) hi hr
    simp only [reads_expectSymbol_bind, reads_pure, Cursor.next_on] at h
    obtain ⟨hclose, rfl, rfl⟩ := h
    exact ⟨_, _, rfl, hj.trans (.one ht hclose (by simp)), v, rfl, .row hrow⟩
  · simp only [reads_expectSymbol_bind, reads_pure, Cursor.next_on] at h
    obtain ⟨hclose, rfl, rfl⟩ := h
    exact ⟨_, _, rfl, .one ht hclose (by simp), [], rfl, .none⟩

/-- A function after its opening parenthesis. -/
def functionRest (read : (p : Production) → Reading p.Result) (name : Option Name) : Reading Node := do
  let parameters ← parametersForm
  if (← lexeme).isSymbol .arrow then
    take
    return .function name parameters (.inline (← read .expression))
  else if (← lexeme).isNewline then return .function name parameters (← closedBlock read)
  else fail .arrowOrNewline

theorem functionRest_sound (name : Option Name) : Sound tokens (functionRest read name) fun w n _ =>
    ∃ u v parameters body, w = u ++ .symbol .closeParen :: v ∧ Parameters u parameters ∧ ResultRow v body ∧
      n = .function name parameters body := by
  intro i n c' hi h
  obtain ⟨parameters, c₁, hp, h⟩ := reads_bind.1 h
  obtain ⟨j, _, rfl, hj, u, rfl, hP⟩ := parametersForm_sound ht hi hp
  simp only [reads_lexeme_bind, reads_ite, reads_take_bind, reads_fail, and_false, or_false, Lexeme.isSymbol_iff,
    Lexeme.isNewline_iff, Cursor.next_on] at h
  rcases h with ⟨harrow, h⟩ | ⟨_, hline, h⟩
  · have hj' := hj.trans (.one ht harrow (by simp))
    obtain ⟨value, c₂, hv, h⟩ := reads_bind.1 h
    obtain ⟨rfl, rfl⟩ := reads_pure.1 h
    obtain ⟨k, v, rfl, hk, hV⟩ := hread .expression hj'.2.1 hv
    refine ⟨k, _, rfl, hj'.trans hk, u, .symbol .arrow :: v, parameters, _, ?_, hP, .arrow hV, rfl⟩
    simp only [List.append_assoc, List.cons_append, List.nil_append]
  · obtain ⟨body, c₂, hb, h⟩ := reads_bind.1 h
    obtain ⟨rfl, rfl⟩ := reads_pure.1 h
    obtain ⟨k, v, ns, span, rfl, hk, hS, rfl⟩ := closedBlock_sound ht hread hline hb
    refine ⟨k, _, rfl, hj.trans hk, u, _, parameters, _, ?_, hP, .block hS, rfl⟩
    simp only [List.append_assoc, List.cons_append, List.nil_append]

theorem functionForm_sound : Sound tokens (functionForm read) (Derivation .function) := by
  intro i n c' hi h
  simp only [functionForm, reads_expectKeyword_bind, reads_lexeme_bind, Cursor.next_on] at h
  obtain ⟨hfn, h⟩ := h
  have hhead := Covers.one ht hfn (by simp)
  split at h
  · obtain ⟨⟨x, span⟩, c₁, hname, h⟩ := reads_bind.1 h
    obtain ⟨hx, _, rfl⟩ := reads_expectName.1 hname
    simp only [Cursor.next_on, reads_expectSymbol_bind, reads_pure_bind] at h
    obtain ⟨hopen, h⟩ := h
    have hhead := hhead.trans ((Covers.one ht hx (by simp)).trans (.one ht hopen (by simp)))
    obtain ⟨j, _, rfl, hj, u, v, parameters, body, rfl, hP, hR, rfl⟩ := functionRest_sound ht hread _ hhead.2.1 h
    exact ⟨j, _, rfl, hhead.trans hj, .named hP hR⟩
  · simp only [Cursor.next_on, reads_expectSymbol_bind, reads_pure_bind] at h
    obtain ⟨hopen, h⟩ := h
    have hhead := hhead.trans (.one ht hopen (by simp))
    obtain ⟨j, _, rfl, hj, u, v, parameters, body, rfl, hP, hR, rfl⟩ := functionRest_sound ht hread _ hhead.2.1 h
    exact ⟨j, _, rfl, hhead.trans hj, .unnamed hP hR⟩

variable {φ : Position → Position} {g : Node → Node} {r' : Reading Node}
  (hback : Follows False φ g (read .expression) r')

include hback

/-- One round of a row of statements: it ends without a newline or after a statement that was handed back, or it reads a
statement after the newlines, or it hands one back and stays after the newlines. -/
theorem nextStatement_cases {s : Progress} {i : Nat} {t : Option Progress} {c' : Cursor} (hi : i < tokens.length)
    (h : Reads (nextStatement read s) (.on tokens i) t c') :
    ∃ n k, Covers tokens i (List.replicate n .newline) k ∧
      ((n = 0 ∨ s.goesOn = false) ∧ t = none ∧ c' = .on tokens k ∨
       n ≠ 0 ∧ s.goesOn = true ∧
        ((∃ node u j, t = some { s with items := node :: s.items } ∧ c' = .on tokens j ∧ Covers tokens k u j ∧
            Derives .expression u node) ∨
         ∃ m, t = some { s with handedBack := m, goesOn := false } ∧ c' = .on tokens k)) := by
  obtain ⟨n, c₁, hn, h⟩ := reads_bind.1 h
  obtain ⟨k, u, rfl, hk, rfl, _⟩ := newlines_sound ht hi hn
  refine ⟨n, k, hk, ?_⟩
  simp only [reads_ite, reads_pure, not_or, Bool.not_eq_false] at h
  rcases h with ⟨hstop, rfl, rfl⟩ | ⟨⟨hn, hgo⟩, h⟩
  · exact .inl ⟨hstop, rfl, rfl⟩
  · obtain ⟨tried, c₂, hx, h⟩ := reads_bind.1 h
    refine .inr ⟨hn, hgo, ?_⟩
    rcases (reads_attempt hback ht.ne_nil).1 hx with ⟨node, rfl, hnode⟩ | ⟨e, span, rfl, _, rfl⟩
    · obtain ⟨rfl, rfl⟩ := reads_pure.1 h
      obtain ⟨j, u, rfl, hj, hD⟩ := hread .expression hk.2.1 hnode
      exact .inl ⟨node, u, j, rfl, rfl, hj, hD⟩
    · obtain ⟨rfl, rfl⟩ := reads_pure.1 h
      exact .inr ⟨_, rfl, rfl⟩

theorem advances_nextStatement : Advances tokens (nextStatement read) := by
  intro s t i c' hi h
  obtain ⟨n, k, hk, ⟨_, hnone, _⟩ | ⟨hn, _, hmore⟩⟩ := nextStatement_cases ht hread hback hi h
  · cases hnone
  · have hik : k = i + n := by simpa using hk.eq_add
    rcases hmore with ⟨node, u, j, _, rfl, hj, _⟩ | ⟨m, _, rfl⟩
    · have hkj := hj.1
      exact ⟨j, rfl, by omega, hj.2.1⟩
    · exact ⟨k, rfl, by omega, hk.2.1⟩

theorem statementsForm_sound : Sound tokens (statementsForm read) (Derivation .statements) := by
  intro i block c' hi h
  simp only [statementsForm, reads_current_bind] at h
  obtain ⟨n, c₁, hn, h⟩ := reads_bind.1 h
  obtain ⟨k, _, rfl, hk, rfl, _⟩ := newlines_sound ht hi hn
  obtain ⟨first, c₂, hf, h⟩ := reads_bind.1 h
  obtain ⟨j, u, rfl, hj, hU⟩ := hread .expression hk.2.1 hf
  obtain ⟨row, c₃, hrow, h⟩ := reads_bind.1 h
  simp only [reads_current_bind, reads_pure] at h
  obtain ⟨rfl, rfl⟩ := h
  -- Between rounds the statements read so far are followed by newlines only once one was handed back.
  obtain ⟨l, _, hl, ⟨v, m, hv, hV, hm⟩, hend⟩ := repeating_invariant tokens (advances_nextStatement ht hread hback)
    (s := ⟨[first], 0, true⟩)
    (I := fun s l => ∃ v m, Covers tokens k (v ++ List.replicate m .newline) l ∧ StatementRow v s.items.reverse ∧
      (s.goesOn = true → m = 0))
    (fun s t l l' hl hl' hrow hr => by
      obtain ⟨v, m, hv, hV, hm⟩ := hrow
      obtain ⟨n, k', hk', ⟨_, hnone, _⟩ | ⟨hn, hgo, hmore⟩⟩ := nextStatement_cases ht hread hback (by omega) hr
      · cases hnone
      · cases hm hgo
        obtain ⟨p, rfl⟩ : ∃ p, n = p + 1 := ⟨n - 1, by omega⟩
        rcases hmore with ⟨node, w, j, hs, hc, hj, hW⟩ | ⟨q, hs, hc⟩
        · cases hs
          cases hc
          refine ⟨v ++ (List.replicate (p + 1) .newline ++ w), 0, ?_, ?_, fun _ => rfl⟩
          · simpa using hv.trans (hk'.trans hj)
          · rw [List.reverse_cons]
            exact .more p hV hW
        · cases hs
          cases hc
          exact ⟨v, p + 1, by simpa using hv.trans hk', hV, by simp⟩)
    hj.2.1 ⟨u, 0, by simpa using hj, .one hU, fun _ => rfl⟩ hrow
  obtain ⟨p, q, hq, ⟨_, _, rfl⟩ | ⟨_, _, ⟨_, _, _, hnone, _⟩ | ⟨_, hnone, _⟩⟩⟩ :=
    nextStatement_cases ht hread hback hl hend
  · refine ⟨q, _, rfl, hk.trans (hv.trans hq), ?_⟩
    rw [List.append_assoc, List.replicate_append_replicate]
    exact .mk n (m + p) hV
  · cases hnone
  · cases hnone

end Forms

/-! ## All productions -/

open Production in
theorem body_sound {tokens : List Token} (ht : Ended tokens) {read : (p : Production) → Reading p.Result}
    (hread : ∀ p : Production, Sound tokens (read p) p.Derivation) {named : Prop}
    (hrefuses : Refuses named (read .expression)) {φ : Position → Position} {g : Node → Node} {r' : Reading Node}
    (hback : Follows False φ g (read .expression) r') :
    ∀ p : Production, Sound tokens (body read p) p.Derivation
  | .statements => statementsForm_sound ht hread hback
  | .expression => expressionForm_sound ht hread
  | .comparison => comparisonForm_sound ht hread
  | .sum => sum_sound ht hread
  | .product => product_sound ht hread
  | .factor => factorForm_sound ht hread
  | .power => power_sound ht hread
  | .call => callForm_sound ht hread
  | .atom => atomForm_sound ht hread
  | .list => listForm_sound ht hread
  | .choice => by
    intro i n c' hi h
    obtain ⟨c, c₁, hc, h⟩ := reads_bind.1 h
    obtain ⟨rfl, rfl⟩ := reads_pure.1 h
    obtain ⟨j, _, rfl, hj, v, rfl, hD⟩ := choiceFrom_sound ht hread .if_ hi hc
    exact ⟨j, _, rfl, hj, .choice hD⟩
  | .elifChoice => choiceFrom_sound ht hread .elif
  | .otherwise => otherwiseForm_sound ht hread
  | .choiceTail => choiceTailForm_sound hread
  | .count => countForm_sound ht hread
  | .loop => fun _ n c' _ h => absurd h (not_reads_loopForm hrefuses _ c' n)
  | .function => functionForm_sound ht hread

/-- **What a production reads is derived by the grammar.** -/
theorem readAt_sound {tokens : List Token} (ht : Ended tokens) :
    ∀ (d : Nat) (p : Production), Sound tokens (readAt d p) p.Derivation
  | 0, _ => fun _ _ _ _ h => (reads_tooDeep.1 h).elim
  | d + 1, p => body_sound ht (readAt_sound ht d) (readAt_refuses d .expression rfl)
      (readAt_follows id (Nat.le_refl d) (.inr rfl) .expression) p

/-! ## Whole programs -/

theorem reads_program {depth : Nat} {c c' : Cursor} {tree : Node} : Reads (program depth) c tree c' ↔
    ∃ block, Reads (readAt depth .statements) c block c' ∧ c'.current.lexeme = .eof ∧ tree = block.node := by
  simp only [program, closed]
  constructor
  · intro h
    obtain ⟨block, c₁, h, hnode⟩ := reads_bind.1 h
    obtain ⟨rfl, rfl⟩ := reads_pure.1 hnode
    obtain ⟨block', c₂, hb, h⟩ := reads_bind.1 h
    simp only [reads_lexeme_bind, reads_ite, reads_pure, reads_fail, and_false, or_false, Lexeme.isEof_iff] at h
    obtain ⟨heof, rfl, rfl⟩ := h
    exact ⟨block, hb, heof, rfl⟩
  · rintro ⟨block, hb, heof, rfl⟩
    refine reads_bind.2 ⟨block, c', reads_bind.2 ⟨block, c', hb, ?_⟩, reads_pure.2 ⟨rfl, rfl⟩⟩
    simp only [reads_lexeme_bind, reads_ite, reads_pure, heof, Lexeme.isEof, and_self, true_or]

/-- **A program that is read is derived by the grammar from all its lexemes.**  The reading stops on the mark of the end, and
the lexemes before it are statements whose trees are those of the program. -/
theorem program_derived {source : Source} {tokens : List Token} (ht : Scan.tokens source = .ok tokens) {depth : Nat}
    {tree : Node} (h : (program depth (.start tokens)).result = .ok tree) :
    (program depth (.start tokens)).cursor.index + 1 = tokens.length ∧
      tokens.getLast? = some (program depth (.start tokens)).cursor.current ∧
      (program depth (.start tokens)).cursor.current.lexeme = .eof ∧
      ∃ statements span, tree = .list statements span ∧ Statements (tokens.dropLast.map Token.lexeme) statements := by
  have hended := Ended.of_tokens ht
  rw [Cursor.start_eq_on] at h ⊢
  obtain ⟨block, hb, heof, rfl⟩ := reads_program.1 ⟨h, rfl⟩
  obtain ⟨j, u, hc, ⟨_, hj, rfl⟩, hD⟩ := readAt_sound hended depth .statements hended.length_pos hb
  rw [hc] at heof ⊢
  have hlast := hended.eq_last hj heof
  refine ⟨by simp only [Cursor.on]; omega, ?_, heof, block.items, block.span, rfl, ?_⟩
  · rw [Cursor.on_current, Cursor.shown_of_lt hj, List.getLast?_eq_getElem?, ← hlast, Nat.add_sub_cancel,
      List.getElem?_eq_getElem hj]
  · rw [List.dropLast_eq_take, ← hlast, Nat.add_sub_cancel]
    exact hD

/-- The hypotheses hold of a text with a function, a loop and a choice. -/
theorem program_derived_nested : ∃ tokens tree,
    Scan.tokens ⟨"nested", "fn f(x) -> -x ** 2; for i = 1 to 3 do\nf(i)\nend\n\n if 1 then [] else 2"⟩ = .ok tokens ∧
    (program 40 (.start tokens)).result = .ok tree ∧
    (program 40 (.start tokens)).cursor.index + 1 = tokens.length ∧
    tokens.getLast? = some (program 40 (.start tokens)).cursor.current ∧
    (program 40 (.start tokens)).cursor.current.lexeme = .eof ∧
    ∃ statements span, tree = .list statements span ∧ Statements (tokens.dropLast.map Token.lexeme) statements := by
  have hok : (Parse.program ⟨40, 0, 0, 0⟩
      ⟨"nested", "fn f(x) -> -x ** 2; for i = 1 to 3 do\nf(i)\nend\n\n if 1 then [] else 2"⟩).toBool = true := by
    decide +kernel
  obtain ⟨tree, h⟩ := exists_ok_of_toBool hok
  obtain ⟨tokens, ht, hr⟩ := Parse.program_eq_ok.1 h
  exact ⟨tokens, tree, ht, hr, program_derived ht hr⟩

end Grammar

end Scriptlet
