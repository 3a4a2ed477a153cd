import Scriptlet.Proofs.Joining.Forms
import Scriptlet.Proofs.Joining.Statements
/-!
# The fate of every production

Forms with keywords hold expressions, which have a fate, and blocks.  A block that is closed by `end` has to be closed inside
the lexemes.  The block of a choice may do without: then the choice ends with the lexemes, and it is unclosed.

By induction on the depth every production but the statements themselves has a fate (`readAt_fated`).
-/
namespace Scriptlet.Grammar

open Production Reading

/-! ## What may follow a choice -/

/-- Nothing follows a choice where no keyword for it stands. -/
theorem reads_tail_none {tokens : List Token} {d i : Nat} (helif : (Cursor.shown tokens i).lexeme.isKeyword .elif = false)
    (helse : (Cursor.shown tokens i).lexeme.isKeyword .else_ = false) {tail : ChoiceTail} {c : Cursor}
    (h : Reads (readAt d .choiceTail) (.on tokens i) tail c) : tail = ⟨[], none⟩ ∧ c = .on tokens i := by
  cases d with
  | zero => exact (reads_tooDeep.1 h).elim
  | succ d =>
    rw [readAt, body, choiceTailForm, reads_lexeme_bind, Cursor.on_current, if_neg (ne_true_of_eq_false helif)] at h
    obtain ⟨o, c₁, ho, h⟩ := reads_bind.1 h
    obtain ⟨rfl, rfl⟩ := reads_pure.1 h
    cases d with
    | zero => exact (reads_tooDeep.1 ho).elim
    | succ d =>
      rw [readAt, body, otherwiseForm, reads_lexeme_bind, Cursor.on_current, if_neg (ne_true_of_eq_false helse)] at ho
      obtain ⟨rfl, rfl⟩ := reads_pure.1 ho
      exact ⟨rfl, rfl⟩

theorem Stuck.tail {A : List Lexeme} {d j : Nat} (h : Stuck A j) : Strays A (Stuck A) (readAt d .choiceTail) j := by
  intro tail c htail
  obtain ⟨_, rfl⟩ := reads_tail_none (h.isKeyword_eq_false rfl) (h.isKeyword_eq_false rfl) htail
  exact ⟨j, rfl, h⟩

section Forms

variable {A : List Lexeme} {d : Nat}

theorem not_reads_at_end {a : Node} {c : Cursor} : ¬Reads (readAt d .expression) (.on (row A []) A.length) a c := by
  refine (readAt_refuses d .expression rfl).not_reads ?_
  rw [Cursor.on_current, lexeme_row_nil]
  rfl

variable (hA : ∀ l ∈ A, l ≠ .eof)
  (hform : ∀ p : Production, p ≠ .statements → Fated A (A.length + 1) (p.stray A) (readAt d p))
  (hblock : ∀ i, i ≤ A.length → Fate A (Stuck A) (readAt d .statements) i ∨ Unended A (readAt d .statements) i)

/-! ## Blocks -/

section Blocks

include hblock

/-- After statements: what follows them has a fate; if they end with the lexemes, it reads nothing there alone, or as much as
it reads of what would close a block. -/
theorem fated_block {β : Type} {f : Block → Reading β} (hf : ∀ b, Fated A (A.length + 1) (Stuck A) (f b))
    (hstuck : ∀ b j, Stuck A j → Strays A (Stuck A) (f b) j)
    (hend : ∀ b x c, Reads (f b) (.on (row A []) A.length) x c → c = .on (row A []) A.length ∧
      Reads (f b) (.on (row A closing) (A.length + 1)) x (.on (row A closing) (A.length + 2))) :
    Fated A (A.length + 1) (Stuck A) (readAt d .statements >>= f) := by
  have hsteady : ∀ b, Follows False id id (f b) (f b) := fun b => (hf b).steady
  refine ⟨.bind (readAt_follows_self d .statements) hsteady, Nat.le_refl _, fun i hi => ?_⟩
  rcases hblock i (by omega) with hfate | ⟨b, halone, hclosing⟩
  · exact .bind (by omega) hfate (fun b j _ hj => (hf b).fate j (by omega)) hsteady hstuck
  · by_cases hread : ∃ x c, Reads (f b) (.on (row A []) A.length) x c
    · obtain ⟨x, c, hx⟩ := hread
      obtain ⟨rfl, hx'⟩ := hend b x c hx
      exact .inr (.inl ⟨x, reads_bind.2 ⟨b, _, halone, hx⟩, reads_bind.2 ⟨b, _, hclosing, hx'⟩⟩)
    · refine .inr (.inr fun x c hx => ?_)
      obtain ⟨b', c₁, hb', hx⟩ := reads_bind.1 hx
      obtain ⟨rfl, rfl⟩ := hb'.unique halone
      exact (hread ⟨x, c, hx⟩).elim

theorem closedBlock_fated : Fated A A.length (Stuck A) (closedBlock (readAt d)) := by
  refine Fated.take.bind_settled fun _ => fated_block hblock (fun b => ?_) (fun b j hj => hj.expectKeyword rfl) ?_
  · exact (Fated.expectKeyword .end_).bind_settled fun _ => .pure _
  · intro b x c hx
    rw [reads_expectKeyword_bind, Cursor.on_current, lexeme_row_nil] at hx
    cases hx.1

include hform

theorem bodyForm_fated : Fated A (A.length + 1) (Stuck A) (bodyForm (readAt d)) := by
  refine .ite_newline (closedBlock_fated hblock) ?_ fun a c h => ?_
  · exact (hform .expression nofun).bind (fun _ => .pure _) fun _ _ => .pure
  · obtain ⟨n, c₁, hn, _⟩ := reads_bind.1 h
    exact not_reads_at_end hn

/-! ## Choices -/

theorem choiceFrom_fated (k : Keyword) : Fated A (A.length + 1) (Stuck A) (choiceFrom (readAt d) k) := by
  have htail : ∀ first : Case, Fated A (A.length + 1) (Stuck A)
      (do return (⟨first, ← readAt d .choiceTail⟩ : Choice)) := fun first =>
    (hform .choiceTail nofun).bind (fun _ => .pure _) fun _ _ => .pure
  refine (Fated.expectKeyword k).bind_settled fun _ => (hform .expression nofun).bind (fun test => ?_) fun test j hj =>
    Stuck.expectKeyword hj rfl
  refine (Fated.expectKeyword .then_).bind_settled fun _ => .ite_newline (Fated.take.bind_settled fun _ => ?_) ?_ ?_
  · refine fated_block hblock (fun b => ?_) (fun b j hj => ?_) fun b x c hx => ?_
    · exact .ite_lexeme rfl rfl (Fated.take.bind_settled fun _ => .pure _) (htail _)
    · exact strays_ite (hj.isKeyword_eq_false rfl) (hj.tail.bind fun _ _ => .pure)
    · -- Alone nothing follows the block; else the `end` belongs to it.
      rw [reads_lexeme_bind, Cursor.on_current, lexeme_row_nil] at hx
      obtain ⟨tail, c₁, htail, hx⟩ := reads_bind.1 hx
      obtain ⟨rfl, rfl⟩ := reads_pure.1 hx
      obtain ⟨rfl, rfl⟩ := reads_tail_none (by rw [lexeme_row_nil]; rfl) (by rw [lexeme_row_nil]; rfl) htail
      refine ⟨rfl, ?_⟩
      rw [reads_lexeme_bind, Cursor.on_current, lexeme_row_end, if_pos (Lexeme.isKeyword_iff.2 rfl), reads_take_bind, Cursor.next_on]
      exact reads_pure.2 ⟨rfl, rfl⟩
  · refine (hform .expression nofun).bind (fun n => htail _) fun n j hj => ?_
    exact (Stuck.tail hj).bind fun _ _ => .pure
  · intro x c hx
    obtain ⟨n, c₁, hn, _⟩ := reads_bind.1 hx
    exact not_reads_at_end hn

theorem otherwiseForm_fated : Fated A (A.length + 1) (Stuck A) (otherwiseForm (readAt d)) := by
  refine .ite_lexeme rfl rfl (Fated.take.bind_settled fun _ => ?_) (.pure _)
  exact (bodyForm_fated hform hblock).bind (fun _ => .pure _) fun _ _ => .pure

omit hblock in
theorem choiceTailForm_fated : Fated A (A.length + 1) (Stuck A) (choiceTailForm (readAt d)) := by
  refine .ite_lexeme rfl rfl (.inside ?_) ?_
  · exact (hform .elifChoice nofun).bind (fun _ => .pure _) fun _ _ => .pure
  · exact (hform .otherwise nofun).bind (fun _ => .pure _) fun _ _ => .pure

/-! ## Loops and functions -/

theorem countForm_fated : Fated A (A.length + 1) (Stuck A) (countForm (readAt d)) := by
  have hrest : ∀ (name : Name) (first last : Node) (step : Option Node), Fated A (A.length + 1) (Stuck A) (do
      expectKeyword .do_
      return Node.count name first last step (← bodyForm (readAt d))) := fun name first last step =>
    (Fated.expectKeyword .do_).bind_settled fun _ =>
      (bodyForm_fated hform hblock).bind (fun _ => .pure _) fun _ _ => .pure
  refine (Fated.expectKeyword .for_).bind_settled fun _ => (Fated.expectName _).bind_settled fun name =>
    (Fated.expectSymbol _ _).bind_settled fun _ => (hform .expression nofun).bind (fun first => ?_) fun _ j hj =>
      Stuck.expectKeyword hj rfl
  refine (Fated.expectKeyword .to_).bind_settled fun _ => (hform .expression nofun).bind (fun last => ?_) fun _ j hj => ?_
  · refine .ite_lexeme rfl rfl (Fated.take.bind_settled fun _ => ?_) ?_
    · refine (hform .expression nofun).bind (fun step => ?_) fun step j hj => ?_
      · exact (Fated.pure (some step)).bind_settled (hrest name first last)
      · rw [Reading.pure_bind]
        exact Stuck.expectKeyword hj rfl
    · exact (Fated.pure none).bind_settled (hrest name first last)
  · refine strays_ite (Stuck.isKeyword_eq_false hj rfl) ?_
    rw [Reading.pure_bind]
    exact Stuck.expectKeyword hj rfl

include hA

omit hform hblock in
theorem parametersForm_fated : Fated A (A.length + 1) (fun _ => False) parametersForm := by
  have hclose : ∀ (e : Expected) (names : List Name), Fated A (A.length + 1) (fun _ => False) (do
      expectSymbol .closeParen e
      return names) := fun e names => (Fated.expectSymbol _ _).bind_settled fun _ => .pure _
  refine .of_lexeme (fun l => ?_) rfl rfl (hclose .parameterOrClose [])
  cases l with
  | name text =>
    refine .inside (Fated.bind_settled ?_ (hclose .commaOrCloseParameters))
    exact fated_commaSeparated hA (fun Z hZ => expectName_sound (ended_row hA hZ) _) (.expectName _) fun j hj => hj.elim
  | _ => exact (hclose .parameterOrClose []).inside

theorem functionForm_fated : Fated A (A.length + 1) (Stuck A) (functionForm (readAt d)) := by
  -- What follows the name is the same whether there is one or not.
  have hrest : ∀ name : Option Name, Fated A (A.length + 1) (Stuck A) (do
      let parameters ← parametersForm
      if (← lexeme).isSymbol .arrow then
        take
        return Node.function name parameters (.inline (← readAt d .expression))
      else if (← lexeme).isNewline then return .function name parameters (← closedBlock (readAt d))
      else fail .arrowOrNewline) := by
    intro name
    refine (parametersForm_fated hA).bind_settled fun parameters => .ite_lexeme rfl rfl ?_ (.ite_newline ?_ (.fail _) ?_)
    · refine Fated.take.bind_settled fun _ => ?_
      exact (hform .expression nofun).bind (fun _ => .pure _) fun _ _ => .pure
    · exact (closedBlock_fated hblock).bind (fun _ => .pure _) fun _ _ => .pure
    · exact fun a c h => reads_fail.1 h
  have hunnamed : Fated A (A.length + 1) (Stuck A) _ :=
    (Fated.expectSymbol .openParen .nameOrOpenParen).bind_settled fun _ => (Fated.pure none).bind_settled hrest
  refine (Fated.expectKeyword .fn).bind_settled fun _ => .of_lexeme (fun l => ?_) rfl rfl hunnamed
  cases l with
  | name text =>
    refine .inside ((Fated.expectName _).bind_settled fun name => (Fated.expectSymbol _ _).bind_settled fun _ => ?_)
    exact (Fated.pure (some name)).bind_settled hrest
  | _ => exact hunnamed.inside

end Blocks

include hA hform in
theorem listForm_fated : Fated A (A.length + 1) (Stuck A) (listForm (readAt d)) := by
  have hrest : ∀ (start : Position) (items : List Node), Fated A (A.length + 1) (Stuck A) (do
      return Node.list items ⟨start, (← current).span.stop⟩) := fun start items => .of_span (fun _ => .pure _) fun _ _ => rfl
  refine .of_span (fun t => (Fated.expectSymbol _ _).bind_settled fun _ => ?_) fun _ _ => rfl
  refine .ite_lexeme rfl rfl (Fated.take.bind_settled fun _ => (Fated.pure []).bind_settled (hrest _)) ?_
  have hitems := fated_commaSeparated hA (fun Z hZ => readAt_sound (ended_row hA hZ) d .expression)
    (hform .expression nofun) fun j hj => ⟨Stuck.lt hj, Stuck.ne_of_starts hj rfl⟩
  refine hitems.bind (fun items => ?_) fun _ j hj => Stuck.expectSymbol hj rfl
  exact (Fated.expectSymbol _ _).bind_settled fun _ => (Fated.pure items).bind_settled (hrest _)

end Forms

/-! ## All productions -/

section Productions

variable {A : List Lexeme} (hA : ∀ l ∈ A, l ≠ .eof)

include hA

theorem body_fated {d : Nat} (hform : ∀ p : Production, p ≠ .statements → Fated A (A.length + 1) (p.stray A) (readAt d p))
    (hblock : ∀ i, i ≤ A.length → Fate A (Stuck A) (readAt d .statements) i ∨ Unended A (readAt d .statements) i) :
    ∀ p : Production, p ≠ .statements → Fated A (A.length + 1) (p.stray A) (body (readAt d) p)
  | .statements, hne => absurd rfl hne
  | .expression, _ => expressionForm_fated hA hform
  | .comparison, _ => comparisonForm_fated hA hform
  | .sum, _ => sum_fated hA hform
  | .product, _ => product_fated hA hform
  | .factor, _ => factorForm_fated hform
  | .power, _ => power_fated hA hform
  | .call, _ => callForm_fated hA hform
  | .atom, _ => atomForm_fated hform
  | .list, _ => listForm_fated hA hform
  | .choice, _ => (choiceFrom_fated hform hblock .if_).bind (fun _ => .pure _) fun _ _ => .pure
  | .elifChoice, _ => choiceFrom_fated hform hblock .elif
  | .otherwise, _ => otherwiseForm_fated hform hblock
  | .choiceTail, _ => choiceTailForm_fated hform
  | .count, _ => countForm_fated hform hblock
  | .loop, _ => by
    -- No text has this form.
    refine ⟨readAt_follows_self (d + 1) .loop, Nat.le_refl _, fun i _ => .inr (.inr fun a c h => ?_)⟩
    exact (not_reads_loopForm (readAt_refuses d .expression rfl) _ _ _ h).elim
  | .function, _ => functionForm_fated hA hform hblock

/-- **Every production but the statements has a fate.** -/
theorem readAt_fated (d : Nat) : ∀ p : Production, p ≠ .statements → Fated A (A.length + 1) (p.stray A) (readAt d p) := by
  induction d using Nat.strongRecOn with
  | _ d ih =>
    intro p hp
    cases d with
    | zero => exact ⟨.tooDeep _, Nat.le_refl _, fun i hi => .inl ⟨.error .tooDeep, 0, by omega, fun _ _ => rfl⟩⟩
    | succ d =>
      refine body_fated hA (ih d (Nat.lt_succ_self d)) (fun i hi => ?_) p hp
      cases d with
      | zero => exact .inl (.inl ⟨.error .tooDeep, 0, hi, fun _ _ => rfl⟩)
      | succ d => exact statements_fate hA (fun b hb => ih b (by omega) .expression nofun) hi

end Productions

end Scriptlet.Grammar
