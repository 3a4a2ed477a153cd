import Scriptlet.Proofs.Grammar.Backtracking
import Scriptlet.Proofs.Grammar.Spans
/-!
# Reading comes to an end

Nothing in the grammar is without end but for two reasons: productions read one another, and some repeat a round until it
adds nothing.  The definitions bound both, the first by a depth and the second by the number of tokens that are left.  Here
it is shown that neither bound is ever felt.

- A production that reads one that is not lower than itself (`Production.height`) has taken a lexeme that nests (`nests`): a
  parenthesis, a sign or a keyword.  So ten productions to each of these are deep enough (`readAt_halts`), and ten to each
  token all the more, although the cursor goes back after a statement that fails and may go past the end of the tokens,
  where it keeps showing the mark of the end.
- Every round takes a token and there is none to add at the mark of the end.  So a repetition without a bound on its rounds
  ends too, and ends as the bounded one does (`loops_repeating`).
-/
namespace Scriptlet.Grammar

open Production Reading

/-! ## Repetition without a bound -/

section Unbounded

variable {σ : Type}

/-- Rounds are repeated, as many as it takes, until one adds nothing or fails. -/
inductive Loops (step : σ → Reading (Option σ)) : σ → Cursor → Reply σ → Prop
  | done {s : σ} {c c' : Cursor} {k : Nat} : step s c = ⟨.ok none, k, c'⟩ → Loops step s c ⟨.ok s, k, c'⟩
  | failed {s : σ} {c c' : Cursor} {k : Nat} {e : Refusal} : step s c = ⟨.error e, k, c'⟩ → Loops step s c ⟨.error e, k, c'⟩
  | again {s t : σ} {c c' : Cursor} {k : Nat} {reply : Reply σ} : step s c = ⟨.ok (some t), k, c'⟩ → Loops step t c' reply →
      Loops step s c { reply with taken := k + reply.taken }

/-- A round that adds something takes a token, and past the last token there is nothing to add. -/
structure Dwindles (tokens : List Token) (step : σ → Reading (Option σ)) : Prop where
  forward : ∀ s t i c', Reads (step s) (.on tokens i) (some t) c' → ∃ j, c' = .on tokens j ∧ i < j
  stops : ∀ s i, tokens.length ≤ i → step s (.on tokens i) = ⟨.ok none, 0, .on tokens i⟩

theorem loops_rounds {tokens : List Token} {step : σ → Reading (Option σ)} (h : Dwindles tokens step) :
    ∀ (fuel : Nat) (s : σ) (i : Nat), tokens.length ≤ i + fuel → Loops step s (.on tokens i) (rounds step fuel s (.on tokens i))
  | 0, s, i, hfuel => .done (h.stops s i hfuel)
  | fuel + 1, s, i, hfuel => by
    show Loops step s _ (Reading.bind (step s) _ _)
    unfold Reading.bind
    cases hround : step s (.on tokens i) with
    | mk result k c' =>
      cases result with
      | error e => exact .failed hround
      | ok t =>
        cases t with
        | none => exact .done hround
        | some t =>
          obtain ⟨j, rfl, hij⟩ := h.forward s t i c' ⟨by rw [hround], by rw [hround]⟩
          exact .again hround (loops_rounds h fuel t j (by omega))

/-- **A repetition ends as it would without a bound on its rounds.** -/
theorem loops_repeating {tokens : List Token} {step : σ → Reading (Option σ)} (h : Dwindles tokens step) (s : σ) (i : Nat) :
    Loops step s (.on tokens i) (repeating step s (.on tokens i)) := by
  apply loops_rounds h
  rw [Cursor.remaining_on]
  omega

end Unbounded

/-! ## Rounds of the grammar -/

/-- Takes a newline. -/
def newlineRound (n : Nat) : Reading (Option Nat) := do
  if (← lexeme).isNewline then
    take
    return some (n + 1)
  else return none

/-- Takes a comma and an item. -/
def itemRound {α : Type} (item : Reading α) (items : List α) : Reading (Option (List α)) := do
  if (← lexeme).isSymbol .comma then
    take
    return some ((← item) :: items)
  else return none

/-- Takes an operator and an operand. -/
def operandRound (further : Reading Node) (joins : Lexeme → Bool) (left : Node) : Reading (Option Node) := do
  let op ← lexeme
  if joins op then
    take
    return some (.binary left op (← further))
  else return none

theorem newlines_eq : newlines = repeating newlineRound 0 := rfl

theorem moreItems_eq {α : Type} (item : Reading α) : moreItems item = repeating (itemRound item) := rfl

theorem chain_eq (operand further : Reading Node) (joins : Lexeme → Bool) :
    chain operand further joins = operand >>= repeating (operandRound further joins) := rfl

/-! ## Readings that are deep enough -/

/-- From the token of number `i` the reading is deep enough, and if it succeeds it is at the same token or a later one. -/
def Halts {α : Type} (tokens : List Token) (i : Nat) (r : Reading α) : Prop :=
  (r (.on tokens i)).result ≠ .error .tooDeep ∧ Lands tokens i r fun _ _ => True

namespace Halts

variable {α β σ : Type} {tokens : List Token} {i : Nat}

theorem pure (a : α) : Halts tokens i (Pure.pure a : Reading α) := by
  constructor
  · intro h
    cases h
  · exact .pure trivial

theorem fail (e : Expected) : Halts tokens i (Reading.fail e : Reading α) := by
  constructor
  · intro h
    cases h
  · exact .fail e

theorem fail_bind (e : Expected) (f : α → Reading β) : Halts tokens i (Reading.fail e >>= f) := by
  constructor
  · intro h
    cases h
  · intro b c' h
    obtain ⟨a, c₁, hfail, -⟩ := reads_bind.1 h
    exact (reads_fail.1 hfail).elim

theorem bind {r : Reading α} {f : α → Reading β} (hr : Halts tokens i r) (hf : ∀ a j, i ≤ j → Halts tokens j (f a)) :
    Halts tokens i (r >>= f) := by
  refine ⟨?_, hr.2.bind fun a j hij _ => (hf a j hij).2⟩
  show (Reading.bind r f _).result ≠ _
  cases hresult : (r (.on tokens i)).result with
  | error e =>
    simp only [Reading.bind, hresult]
    intro h
    cases h
    exact hr.1 hresult
  | ok a =>
    obtain ⟨j, hj, hij, -⟩ := hr.2 ⟨hresult, rfl⟩
    simp only [Reading.bind, hresult, hj]
    exact (hf a j hij).1

theorem lexeme_bind {f : Lexeme → Reading α} (h : Halts tokens i (f (Cursor.shown tokens i).lexeme)) :
    Halts tokens i (lexeme >>= f) := by
  refine ⟨?_, .lexeme_bind h.2⟩
  rw [lexeme_bind_apply]
  exact h.1

theorem current_bind {f : Token → Reading α} (h : Halts tokens i (f (Cursor.shown tokens i))) :
    Halts tokens i (current >>= f) := by
  refine ⟨?_, .current_bind h.2⟩
  rw [current_bind_apply]
  exact h.1

theorem ite {p : Prop} [Decidable p] {r s : Reading α} (hr : p → Halts tokens i r) (hs : ¬ p → Halts tokens i s) :
    Halts tokens i (if p then r else s) := by
  by_cases hp : p
  · rw [if_pos hp]
    exact hr hp
  · rw [if_neg hp]
    exact hs hp

theorem take_bind {f : Unit → Reading α} (h : Halts tokens (i + 1) (f ())) : Halts tokens i (Reading.take >>= f) := by
  refine ⟨?_, .take_bind h.2⟩
  show (f () (Cursor.on tokens i).next).result ≠ _
  rw [Cursor.next_on]
  exact h.1

theorem relabel {e : Expected} {r : Reading α} (h : Halts tokens i r) : Halts tokens i (r.relabel e) := by
  refine ⟨?_, .relabel h.2⟩
  cases hresult : (r (.on tokens i)).result with
  | ok a => simp [Reading.relabel, hresult]
  | error refusal =>
    cases refusal with
    | tooDeep => exact absurd hresult h.1
    | unexpected e' span =>
      simp only [Reading.relabel, hresult]
      by_cases htaken : (r (.on tokens i)).taken = 0
      · simp [htaken]
      · simp [htaken, hresult]

theorem attempt {r : Reading α} {φ : Position → Position} {g : α → β} {r' : Reading β} (hsteady : Follows False φ g r r')
    (ht : tokens ≠ []) (h : Halts tokens i r) : Halts tokens i r.attempt := by
  refine ⟨?_, (Lands.attempt hsteady ht h.2).imp fun _ _ _ _ => trivial⟩
  cases hresult : (r (.on tokens i)).result with
  | ok a => simp [Reading.attempt, hresult]
  | error refusal =>
    cases refusal with
    | tooDeep => exact absurd hresult h.1
    | unexpected e span => simp [Reading.attempt, hresult]

theorem repeating {step : σ → Reading (Option σ)} (h : ∀ s j, i ≤ j → Halts tokens j (step s)) (s : σ) :
    Halts tokens i (Reading.repeating step s) := by
  have hrounds : ∀ fuel s j, i ≤ j → Halts tokens j (rounds step fuel s) := by
    intro fuel
    induction fuel with
    | zero => exact fun s j _ => .pure s
    | succ fuel ih =>
      intro s j hij
      apply (h s j hij).bind
      intro o k hjk
      cases o with
      | none => exact .pure s
      | some t => exact ih t k (by omega)
  exact hrounds _ s i (Nat.le_refl i)

end Halts

/-! ## Taking what is there -/

section Taking

variable {α β : Type} {tokens : List Token} {i : Nat}

theorem expect_halts {p : Lexeme → Bool} (e : Expected) {f : Unit → Reading α}
    (h : p (Cursor.shown tokens i).lexeme = true → Halts tokens (i + 1) (f ())) :
    Halts tokens i ((do if p (← lexeme) then take else fail e) >>= f) := by
  rw [bind_assoc]
  apply Halts.lexeme_bind
  rw [ite_bind]
  apply Halts.ite
  · exact fun hl => .take_bind (h hl)
  · exact fun _ => .fail_bind e f

theorem expectKeyword_halts (k : Keyword) {f : Unit → Reading α}
    (h : (Cursor.shown tokens i).lexeme = .keyword k → Halts tokens (i + 1) (f ())) :
    Halts tokens i (expectKeyword k >>= f) :=
  expect_halts (p := (·.isKeyword k)) (.keyword k) fun hk => h (Lexeme.isKeyword_iff.1 hk)

theorem expectSymbol_halts (s : Symbol) (e : Expected) {f : Unit → Reading α}
    (h : (Cursor.shown tokens i).lexeme = .symbol s → Halts tokens (i + 1) (f ())) : Halts tokens i (expectSymbol s e >>= f) :=
  expect_halts (p := (·.isSymbol s)) e fun hs => h (Lexeme.isSymbol_iff.1 hs)

theorem expectName_halts (e : Expected) : Halts tokens i (expectName e) := by
  apply Halts.current_bind
  cases (Cursor.shown tokens i).lexeme with
  | name text => exact .take_bind (.pure _)
  | _ => exact .fail e

theorem newlines_halts : Halts tokens i newlines := by
  rw [newlines_eq]
  apply Halts.repeating
  exact fun _ _ _ => .lexeme_bind (.ite (fun _ => .take_bind (.pure _)) fun _ => .pure _)

theorem commaSeparated_halts {item : Reading α} (h : ∀ j, i ≤ j → Halts tokens j item) :
    Halts tokens i (commaSeparated item) := by
  unfold commaSeparated
  rw [moreItems_eq]
  refine (h i (Nat.le_refl i)).bind fun first j hij => .bind (.repeating (fun items k hjk => ?_) _) fun _ _ _ => .pure _
  exact .lexeme_bind (.ite (fun _ => .take_bind ((h (k + 1) (by omega)).bind fun _ _ _ => .pure _)) fun _ => .pure _)

/-- Of a chain only the first operand is read where the chain begins. -/
theorem chain_halts {operand further : Reading Node} {joins : Lexeme → Bool} (hoperand : Halts tokens i operand)
    (hfurther : ∀ k, i ≤ k → joins (Cursor.shown tokens k).lexeme = true → Halts tokens (k + 1) further) :
    Halts tokens i (chain operand further joins) := by
  rw [chain_eq]
  refine hoperand.bind fun first j hij => .repeating (fun left k hjk => .lexeme_bind (.ite (fun hl => ?_) fun _ => .pure _)) _
  exact .take_bind ((hfurther k (by omega) hl).bind fun _ _ _ => .pure _)

end Taking

/-! ## The forms

A form begins at the token of number `i`.  It may read lower productions there or later, and any production after a lexeme
that nests. -/

/-- After the lexeme a production may be read that is not lower than the one in which it stands. -/
def nests : Lexeme → Bool
  | .symbol .openParen | .symbol .openSquare | .symbol .minus | .symbol .power => true
  | .keyword .var | .keyword .not | .keyword .if_ | .keyword .elif | .keyword .else_ | .keyword .for_ | .keyword .while_
  | .keyword .fn => true
  | _ => false

/-- How many productions can begin at one token, from this one down. -/
def Production.height : Production → Nat
  | .statements => 10
  | .expression => 9
  | .comparison => 8
  | .sum => 7
  | .product => 6
  | .factor => 5
  | .power => 4
  | .call => 3
  | .atom | .choiceTail => 2
  | .list | .choice | .elifChoice | .otherwise | .count | .loop | .function => 1

section Parts

variable {tokens : List Token} {read : (p : Production) → Reading p.Result} {i : Nat}
  (hall : ∀ (p : Production) (j : Nat), i ≤ j → Halts tokens j (read p))

include hall

theorem closedBlock_halts : Halts tokens i (closedBlock read) := by
  refine .take_bind ((hall .statements (i + 1) (by omega)).bind fun block j _ => ?_)
  exact expectKeyword_halts .end_ fun _ => .pure _

theorem bodyForm_halts : Halts tokens i (bodyForm read) :=
  .lexeme_bind (.ite (fun _ => closedBlock_halts hall) fun _ =>
    (hall .expression i (Nat.le_refl i)).bind fun _ _ _ => .pure _)

theorem argumentsForm_halts : Halts tokens i (argumentsForm read) := by
  refine .lexeme_bind (.ite (fun _ => .take_bind (.pure _)) fun _ => ?_)
  refine (commaSeparated_halts fun j hij => hall .expression j hij).bind fun arguments j _ => ?_
  exact expectSymbol_halts _ _ fun _ => .pure _

omit hall in
theorem parametersForm_halts : Halts tokens i parametersForm := by
  apply Halts.lexeme_bind
  cases (Cursor.shown tokens i).lexeme with
  | name _ =>
    refine (commaSeparated_halts fun j _ => expectName_halts _).bind fun parameters j _ => ?_
    exact expectSymbol_halts _ _ fun _ => .pure _
  | _ => exact expectSymbol_halts _ _ fun _ => .pure _

theorem functionRest_halts (name : Option Name) : Halts tokens i (functionRest read name) := by
  refine parametersForm_halts.bind fun parameters j hij => .lexeme_bind (.ite (fun _ => .take_bind ?_) fun _ => ?_)
  · exact (hall .expression (j + 1) (by omega)).bind fun _ _ _ => .pure _
  · refine .lexeme_bind (.ite (fun _ => ?_) fun _ => .fail _)
    exact (closedBlock_halts fun p k hk => hall p k (by omega)).bind fun _ _ _ => .pure _

end Parts

section Forms

variable {tokens : List Token} {read : (p : Production) → Reading p.Result} {i : Nat}
  (later : ∀ k, i ≤ k → nests (Cursor.shown tokens k).lexeme = true → ∀ (p : Production) (j : Nat), k < j →
    Halts tokens j (read p))

/-- After a lexeme that nests every production may be read. -/
theorem later_than (later : ∀ k, i ≤ k → nests (Cursor.shown tokens k).lexeme = true → ∀ (p : Production) (j : Nat), k < j →
    Halts tokens j (read p)) {k : Nat} (hik : i ≤ k) {l : Lexeme} (hl : (Cursor.shown tokens k).lexeme = l)
    (hnests : nests l = true) : ∀ (p : Production) (j : Nat), k < j → Halts tokens j (read p) :=
  later k hik (by rw [hl]; exact hnests)

theorem statementsForm_halts (hne : tokens ≠ []) {φ : Position → Position} {g : Node → Node} {r' : Reading Node}
    (hsteady : Follows False φ g (read .expression) r') (here : ∀ j, i ≤ j → Halts tokens j (read .expression)) :
    Halts tokens i (statementsForm read) := by
  refine .current_bind (newlines_halts.bind fun _ j hij => (here j hij).bind fun first k hjk => ?_)
  refine .bind (.repeating (fun s l hkl => newlines_halts.bind fun n m hlm => .ite (fun _ => .pure _) fun _ => ?_) _)
    fun row l _ => .current_bind (.pure _)
  refine (Halts.attempt hsteady hne (here m (by omega))).bind fun tried m' _ => ?_
  cases tried with
  | read node => exact .pure _
  | handedBack k => exact .pure _

include later

theorem expressionForm_halts (here : ∀ j, i ≤ j → Halts tokens j (read .comparison)) :
    Halts tokens i (expressionForm read) := by
  refine .lexeme_bind (.ite (fun hvar => .take_bind ?_) fun _ => .relabel ?_)
  · have hall := later_than later (Nat.le_refl i) (Lexeme.isKeyword_iff.1 hvar) rfl
    refine (expectName_halts _).bind fun name j hij => expectSymbol_halts _ _ fun _ => ?_
    exact (hall .expression (j + 1) (by omega)).bind fun _ _ _ => .pure _
  · exact chain_halts (here i (Nat.le_refl i)) fun k hk _ => here (k + 1) (by omega)

theorem comparisonForm_halts (here : ∀ j, i ≤ j → Halts tokens j (read .sum)) : Halts tokens i (comparisonForm read) := by
  refine .current_bind (.ite (fun hnot => .take_bind ?_) fun _ => .relabel ?_)
  · have hall := later_than later (Nat.le_refl i) (Lexeme.isKeyword_iff.1 hnot) rfl
    exact (hall .comparison (i + 1) (by omega)).bind fun _ _ _ => .pure _
  · exact chain_halts (here i (Nat.le_refl i)) fun k hk _ => here (k + 1) (by omega)

theorem factorForm_halts (here : Halts tokens i (read .power)) : Halts tokens i (factorForm read) := by
  refine .current_bind (.ite (fun hminus => .take_bind ?_) fun _ => here)
  have hall := later_than later (Nat.le_refl i) (Lexeme.isSymbol_iff.1 hminus) rfl
  exact (hall .factor (i + 1) (by omega)).bind fun _ _ _ => .pure _

theorem powerForm_halts (here : Halts tokens i (read .call)) :
    Halts tokens i (chain (read .call) (read .factor) (·.isSymbol .power)) :=
  chain_halts here fun k hk hpower => later_than later hk (Lexeme.isSymbol_iff.1 hpower) rfl .factor (k + 1) (by omega)

theorem callForm_halts (here : Halts tokens i (read .atom)) : Halts tokens i (callForm read) := by
  refine here.bind fun callee j hij => .lexeme_bind (.ite (fun hopen => .take_bind ?_) fun _ => .pure _)
  have hall := later_than later hij (Lexeme.isSymbol_iff.1 hopen) rfl
  exact (argumentsForm_halts fun p k hk => hall p k (by omega)).bind fun _ _ _ => .pure _

theorem atomForm_halts (here : ∀ p : Production, p.height = 1 → Halts tokens i (read p)) : Halts tokens i (atomForm read) := by
  apply Halts.current_bind
  have hparen : (Cursor.shown tokens i).lexeme = .symbol .openParen → Halts tokens i (parenthesised read) := by
    intro hopen
    have hall := later_than later (Nat.le_refl i) hopen rfl
    refine .take_bind ((hall .expression (i + 1) (by omega)).bind fun node j _ => ?_)
    exact expectSymbol_halts _ _ fun _ => .pure _
  generalize (Cursor.shown tokens i).lexeme = l at hparen
  split
  · exact .take_bind (.pure _)
  · exact .take_bind (.pure _)
  · exact .take_bind (.pure _)
  · exact hparen rfl
  · exact here .list rfl
  · exact here .choice rfl
  · exact here .count rfl
  · exact here .loop rfl
  · exact here .function rfl
  · exact .fail _

theorem listForm_halts : Halts tokens i (listForm read) := by
  refine .current_bind (expectSymbol_halts _ _ fun hopen => .lexeme_bind (.ite (fun _ => .take_bind ?_) fun _ => ?_))
  · exact .bind (.pure _) fun _ _ _ => .current_bind (.pure _)
  · have hall := later_than later (Nat.le_refl i) hopen rfl
    refine (commaSeparated_halts fun j hij => hall .expression j (by omega)).bind fun items j _ => ?_
    exact expectSymbol_halts _ _ fun _ => .bind (.pure _) fun _ _ _ => .current_bind (.pure _)

theorem choiceFrom_halts {k : Keyword} (hk : nests (.keyword k) = true) : Halts tokens i (choiceFrom read k) := by
  refine expectKeyword_halts k fun hfirst => ?_
  have hall := later_than later (Nat.le_refl i) hfirst hk
  refine (hall .expression (i + 1) (by omega)).bind fun test j hj => ?_
  refine expectKeyword_halts .then_ fun _ => .lexeme_bind (.ite (fun _ => .take_bind ?_) fun _ => ?_)
  · refine (hall .statements (j + 1 + 1) (by omega)).bind fun block l hl => ?_
    refine .lexeme_bind (.ite (fun _ => .take_bind (.pure _)) fun _ => ?_)
    exact (hall .choiceTail l (by omega)).bind fun _ _ _ => .pure _
  · refine (hall .expression (j + 1) (by omega)).bind fun value l hl => ?_
    exact (hall .choiceTail l (by omega)).bind fun _ _ _ => .pure _

theorem otherwiseForm_halts : Halts tokens i (otherwiseForm read) := by
  refine .lexeme_bind (.ite (fun helse => .take_bind ?_) fun _ => .pure _)
  have hall := later_than later (Nat.le_refl i) (Lexeme.isKeyword_iff.1 helse) rfl
  exact (bodyForm_halts fun p j hj => hall p j (by omega)).bind fun _ _ _ => .pure _

omit later in
theorem choiceTailForm_halts (here : ∀ p : Production, p.height = 1 → Halts tokens i (read p)) :
    Halts tokens i (choiceTailForm read) :=
  .lexeme_bind (.ite (fun _ => (here .elifChoice rfl).bind fun _ _ _ => .pure _) fun _ =>
    (here .otherwise rfl).bind fun _ _ _ => .pure _)

theorem countForm_halts : Halts tokens i (countForm read) := by
  refine expectKeyword_halts .for_ fun hfor => (expectName_halts _).bind fun name j hj => ?_
  have hall := later_than later (Nat.le_refl i) hfor rfl
  refine expectSymbol_halts _ _ fun _ => (hall .expression (j + 1) (by omega)).bind fun first k hk => ?_
  refine expectKeyword_halts .to_ fun _ => (hall .expression (k + 1) (by omega)).bind fun end_ l hl => ?_
  have hrest : ∀ (step : Option Node) (m : Nat), l ≤ m → Halts tokens m (do
      expectKeyword .do_
      return Node.count name first end_ step (← bodyForm read)) := by
    intro step m hm
    refine expectKeyword_halts .do_ fun _ => ?_
    exact (bodyForm_halts fun p j hj => hall p j (by omega)).bind fun _ _ _ => .pure _
  refine .lexeme_bind (.ite (fun _ => .take_bind ?_) fun _ => .bind (.pure _) fun _ => hrest _)
  refine (hall .expression (l + 1) (by omega)).bind fun step m hm => .bind (.pure _) fun _ m' hm' => ?_
  exact hrest _ m' (by omega)

theorem loopForm_halts : Halts tokens i (loopForm read) := by
  refine expectKeyword_halts .while_ fun hwhile => ?_
  have hall := later_than later (Nat.le_refl i) hwhile rfl
  refine (hall .expression (i + 1) (by omega)).bind fun test j hj => ?_
  refine .take_bind (.lexeme_bind (.ite (fun _ => ?_) fun _ => .fail _))
  exact (hall .expression (j + 1) (by omega)).bind fun _ _ _ => .pure _

theorem functionForm_halts : Halts tokens i (functionForm read) := by
  refine expectKeyword_halts .fn fun hfn => .lexeme_bind ?_
  have hall := later_than later (Nat.le_refl i) hfn rfl
  have hrest : ∀ (name : Option Name) (j : Nat), i < j → Halts tokens j (functionRest read name) :=
    fun name j hj => functionRest_halts (fun p k hk => hall p k (by omega)) name
  cases (Cursor.shown tokens (i + 1)).lexeme with
  | name _ =>
    refine (expectName_halts _).bind fun name j hj => expectSymbol_halts _ _ fun _ => ?_
    exact .bind (.pure _) fun name k hk => hrest name k (by omega)
  | _ =>
    refine expectSymbol_halts _ _ fun _ => .bind (.pure _) fun name k hk => ?_
    exact hrest name k (by omega)

theorem body_halts (hne : tokens ≠ []) {φ : Position → Position} {g : Node → Node} {r' : Reading Node}
    (hsteady : Follows False φ g (read .expression) r') (p : Production)
    (here : ∀ q : Production, q.height < p.height → ∀ j, i ≤ j → Halts tokens j (read q)) : Halts tokens i (body read p) := by
  have here' := fun q hq => here q hq i (Nat.le_refl i)
  cases p with
  | statements => exact statementsForm_halts hne hsteady (here .expression (by decide))
  | expression => exact expressionForm_halts later (here .comparison (by decide))
  | comparison => exact comparisonForm_halts later (here .sum (by decide))
  | sum => exact chain_halts (here' .product (by decide)) fun k hk _ => here .product (by decide) (k + 1) (by omega)
  | product => exact chain_halts (here' .factor (by decide)) fun k hk _ => here .factor (by decide) (k + 1) (by omega)
  | factor => exact factorForm_halts later (here' .power (by decide))
  | power => exact powerForm_halts later (here' .call (by decide))
  | call => exact callForm_halts later (here' .atom (by decide))
  | atom => exact atomForm_halts later fun q hq => here' q (by rw [hq]; decide)
  | list => exact listForm_halts later
  | choice => exact (choiceFrom_halts later rfl).bind fun _ _ _ => .pure _
  | elifChoice => exact choiceFrom_halts later rfl
  | otherwise => exact otherwiseForm_halts later
  | choiceTail => exact choiceTailForm_halts fun q hq => here' q (by rw [hq]; decide)
  | count => exact countForm_halts later
  | loop => exact loopForm_halts later
  | function => exact functionForm_halts later

end Forms

/-! ## Every round takes a token -/

/-- The rounds that productions repeat, given a reading for each production. -/
inductive Production.Repeats (read : (p : Production) → Reading p.Result) : {σ : Type} → (σ → Reading (Option σ)) → Prop
  | newlines : Repeats read newlineRound
  | expressions : Repeats read (itemRound (read .expression))
  | parameters : Repeats read (itemRound (expectName .parameter))
  | conditions : Repeats read (operandRound (read .comparison) joinsConditions)
  | comparands : Repeats read (operandRound (read .sum) joinsComparands)
  | terms : Repeats read (operandRound (read .product) joinsTerms)
  | factors : Repeats read (operandRound (read .factor) joinsFactors)
  | powers : Repeats read (operandRound (read .factor) (·.isSymbol .power))
  | statements : Repeats read (nextStatement read)

section Rounds

variable {tokens : List Token} {last : Token} (hlast : tokens.getLast? = some last) (heof : last.lexeme = .eof)

omit heof in
include hlast in
theorem ne_nil_of_getLast? : tokens ≠ [] := by
  rintro rfl
  cases hlast

omit hlast heof in
/-- It is enough to look where rounds come to that add something. -/
theorem Dwindles.of_lands {σ : Type} {step : σ → Reading (Option σ)}
    (hforward : ∀ s i, Lands tokens i (step s) fun o j => o.isSome → i < j)
    (hstops : ∀ s i, tokens.length ≤ i → step s (.on tokens i) = ⟨.ok none, 0, .on tokens i⟩) : Dwindles tokens step := by
  refine ⟨fun s t i c' h => ?_, hstops⟩
  obtain ⟨j, hc, -, hij⟩ := hforward s i h
  exact ⟨j, hc, hij rfl⟩

omit hlast heof in
theorem Dwindles.repeating_stops {σ : Type} {step : σ → Reading (Option σ)} (h : Dwindles tokens step) (s : σ) {i : Nat}
    (hi : tokens.length ≤ i) : repeating step s (.on tokens i) = ⟨.ok s, 0, .on tokens i⟩ := by
  unfold repeating
  cases (Cursor.on tokens i).remaining with
  | zero => rfl
  | succ fuel =>
    show Reading.bind (step s) _ _ = _
    simp only [Reading.bind, h.stops s i hi]
    rfl

include hlast heof

theorem newlineRound_dwindles : Dwindles tokens newlineRound := by
  apply Dwindles.of_lands
  · intro n i
    exact .lexeme_bind (.ite (fun _ => .take_bind (.pure fun _ => Nat.lt_succ_self i)) fun _ => .pure (by simp))
  · intro n i hi
    unfold newlineRound
    rw [lexeme_bind_apply, Cursor.on_current, shown_of_length_le hlast heof hi]
    rfl

theorem itemRound_dwindles {α : Type} {item : Reading α} (hitem : ∀ i, Lands tokens i item fun _ _ => True) :
    Dwindles tokens (itemRound item) := by
  apply Dwindles.of_lands
  · intro items i
    refine .lexeme_bind (.ite (fun _ => .take_bind ((hitem (i + 1)).bind fun a j hij _ => .pure fun _ => ?_)) fun _ => ?_)
    · omega
    · exact .pure (by simp)
  · intro items i hi
    unfold itemRound
    rw [lexeme_bind_apply, Cursor.on_current, shown_of_length_le hlast heof hi]
    rfl

theorem operandRound_dwindles {further : Reading Node} {joins : Lexeme → Bool} (hjoins : joins .eof = false)
    (hfurther : ∀ i, Lands tokens i further fun _ _ => True) : Dwindles tokens (operandRound further joins) := by
  apply Dwindles.of_lands
  · intro left i
    refine .lexeme_bind (.ite (fun _ => .take_bind ((hfurther (i + 1)).bind fun a j hij _ => .pure fun _ => ?_)) fun _ => ?_)
    · omega
    · exact .pure (by simp)
  · intro left i hi
    unfold operandRound
    rw [lexeme_bind_apply, Cursor.on_current, shown_of_length_le hlast heof hi, hjoins]
    rfl

/-- A statement stands after a newline, so also one that is handed back leaves the cursor farther on. -/
theorem nextStatement_dwindles {read : (p : Production) → Reading p.Result} {φ : Position → Position} {g : Node → Node}
    {r' : Reading Node} (hsteady : Follows False φ g (read .expression) r')
    (hread : ∀ i, Lands tokens i (read .expression) fun _ _ => True) : Dwindles tokens (nextStatement read) := by
  have hne := ne_nil_of_getLast? hlast
  have hnewlines : ∀ i, Lands tokens i newlines fun n j => j = i + n := by
    intro i n c' h
    obtain ⟨rfl, -⟩ := reads_newlines_count hlast heof h
    exact ⟨i + n, rfl, Nat.le_add_right i n, rfl⟩
  apply Dwindles.of_lands
  · intro s i
    refine (hnewlines i).bind fun n j _ hj => .ite (fun _ => .pure (by simp)) fun hgo => ?_
    refine (Lands.attempt hsteady hne (hread j)).bind fun tried k hjk _ => ?_
    cases tried with
    | read node => exact .pure fun _ => by omega
    | handedBack taken => exact .pure fun _ => by omega
  · intro s i hi
    have hnone := (newlineRound_dwindles hlast heof).repeating_stops 0 hi
    unfold nextStatement
    show Reading.bind newlines _ _ = _
    rw [newlines_eq]
    simp only [Reading.bind, hnone]
    rfl

/-- Every round that productions repeat takes a token. -/
theorem repeats_dwindles {depth : Nat} {σ : Type} {step : σ → Reading (Option σ)} (h : Repeats (readAt depth) step) :
    Dwindles tokens step := by
  have hne := ne_nil_of_getLast? hlast
  have hread : ∀ (p : Production) (i : Nat), Lands tokens i (readAt depth p) fun _ _ => True :=
    fun p i => (readAt_lands hne depth p i).imp fun _ _ _ _ => trivial
  cases h with
  | newlines => exact newlineRound_dwindles hlast heof
  | expressions => exact itemRound_dwindles hlast heof (hread .expression)
  | parameters => exact itemRound_dwindles hlast heof fun i => (Lands.expectName _).imp fun _ _ _ _ => trivial
  | conditions => exact operandRound_dwindles hlast heof rfl (hread .comparison)
  | comparands => exact operandRound_dwindles hlast heof rfl (hread .sum)
  | terms => exact operandRound_dwindles hlast heof rfl (hread .product)
  | factors => exact operandRound_dwindles hlast heof rfl (hread .factor)
  | powers => exact operandRound_dwindles hlast heof rfl (hread .factor)
  | statements => exact nextStatement_dwindles hlast heof (readAt_follows_self depth .expression) (hread .expression)

end Rounds

/-! ## The bounds are not felt -/

/-- So deep productions may nest that take so many lexemes that nest. -/
def depthFor (nestings : Nat) : Nat := 10 * nestings + 10

/-- How many lexemes that nest stand from a place on. -/
def nestings (tokens : List Token) (i : Nat) : Nat := (tokens.drop i).countP (nests ·.lexeme)

theorem height_pos (p : Production) : 0 < p.height := by
  cases p <;> decide

theorem height_le (p : Production) : p.height ≤ 10 := by
  cases p <;> decide

theorem nestings_le (tokens : List Token) {i j : Nat} (h : i ≤ j) : nestings tokens j ≤ nestings tokens i :=
  (List.drop_sublist_drop_left tokens h).countP_le

theorem nestings_le_length (tokens : List Token) (i : Nat) : nestings tokens i ≤ tokens.length :=
  Nat.le_trans (nestings_le tokens (Nat.zero_le i)) List.countP_le_length

section Bounds

variable {tokens : List Token} {last : Token} (hlast : tokens.getLast? = some last) (heof : last.lexeme = .eof)

include hlast heof

/-- What nests is not the mark of the end, so it is one of the tokens. -/
theorem nestings_lt {i k j : Nat} (hik : i ≤ k) (hk : nests (Cursor.shown tokens k).lexeme = true) (hkj : k < j) :
    nestings tokens j < nestings tokens i := by
  have hlength : k < tokens.length := by
    apply Nat.lt_of_not_le
    intro hbeyond
    rw [shown_of_length_le hlast heof hbeyond] at hk
    cases hk
  have hhere : nestings tokens k = nestings tokens (k + 1) + 1 := by
    unfold nestings
    rw [List.drop_eq_getElem_cons hlength, ← Cursor.shown_of_lt hlength]
    exact List.countP_cons_of_pos hk
  calc nestings tokens j ≤ nestings tokens (k + 1) := nestings_le tokens hkj
    _ < nestings tokens k := by omega
    _ ≤ nestings tokens i := nestings_le tokens hik

/-- **Ten productions to each lexeme that nests are deep enough.** -/
theorem readAt_halts (depth : Nat) : ∀ (p : Production) (i : Nat), p.height + 10 * nestings tokens i ≤ depth →
    Halts tokens i (readAt depth p) := by
  induction depth with
  | zero =>
    intro p i h
    have := height_pos p
    omega
  | succ depth ih =>
    intro p i h
    apply body_halts ?later (ne_nil_of_getLast? hlast) (readAt_follows_self depth .expression) p ?here
    case later =>
      intro k hik hk q j hkj
      have := height_pos p
      have := height_le q
      have := nestings_lt hlast heof hik hk hkj
      exact ih q j (by omega)
    case here =>
      intro q hq j hij
      have := nestings_le tokens hij
      exact ih q j (by omega)

variable {depth : Nat} (hdepth : depthFor (nestings tokens 0) ≤ depth)

include hdepth

theorem readAt_halts_depthFor (p : Production) (i : Nat) : Halts tokens i (readAt depth p) := by
  apply readAt_halts hlast heof
  have := height_le p
  have := nestings_le tokens (Nat.zero_le i)
  unfold depthFor at hdepth
  omega

/-- More depth than is enough changes nothing. -/
theorem readAt_stable {depth' : Nat} (hdeeper : depth ≤ depth') (p : Production) (i : Nat) :
    readAt depth' p (.on tokens i) = readAt depth p (.on tokens i) := by
  have hfollows : Follows True id (p.relocate id) (readAt depth p) (readAt depth' p) :=
    readAt_follows id hdeeper (.inl trivial) p
  rw [relocate_id] at hfollows
  exact hfollows.eq_of_not_tooDeep (ne_nil_of_getLast? hlast) (readAt_halts_depthFor hlast heof hdepth p i).1

theorem program_halts (i : Nat) : Halts tokens i (program depth) := by
  refine .bind (.bind (readAt_halts_depthFor hlast heof hdepth .statements i) fun block j _ => ?_) fun _ _ _ => .pure _
  exact .lexeme_bind (.ite (fun _ => .pure _) fun _ => .fail _)

end Bounds

/-- A program is read as its statements are. -/
theorem program_congr {depth depth' : Nat} {c : Cursor} (h : readAt depth .statements c = readAt depth' .statements c) :
    program depth c = program depth' c := by
  have hclosed : closed (readAt depth .statements) c = closed (readAt depth' .statements) c := by
    show Reading.bind _ _ c = Reading.bind _ _ c
    simp only [Reading.bind, h]
  show Reading.bind _ _ c = Reading.bind _ _ c
  simp only [Reading.bind, hclosed]

/-- **Reading ends.**  Of a row of tokens whose last one marks the end, every production can be read from every place, and
so can the whole program: once productions may nest to a depth that depends on the number of tokens only, the reply is
never that they nest too deep, and more depth does not change it.  What the productions repeat comes to an end too, and
would do so in the same way if nothing bounded the number of rounds. -/
theorem reading_ends {tokens : List Token} {last : Token} (hlast : tokens.getLast? = some last) (heof : last.lexeme = .eof) :
    let bound := depthFor tokens.length
    (∀ (p : Production) (i depth : Nat), bound ≤ depth →
      (readAt depth p (.on tokens i)).result ≠ .error .tooDeep ∧
      readAt depth p (.on tokens i) = readAt bound p (.on tokens i)) ∧
    (∀ depth, bound ≤ depth →
      (program depth (.start tokens)).result ≠ .error .tooDeep ∧
      program depth (.start tokens) = program bound (.start tokens)) ∧
    ∀ (depth : Nat) (σ : Type) (step : σ → Reading (Option σ)), Repeats (readAt depth) step → ∀ (s : σ) (i : Nat),
      Loops step s (.on tokens i) (repeating step s (.on tokens i)) := by
  intro bound
  have hbound : depthFor (nestings tokens 0) ≤ bound := by
    have := nestings_le_length tokens 0
    show 10 * _ + 10 ≤ 10 * _ + 10
    omega
  refine ⟨fun p i depth hdepth => ?_, fun depth hdepth => ?_, fun depth σ step hstep s i => ?_⟩
  · exact ⟨(readAt_halts_depthFor hlast heof (Nat.le_trans hbound hdepth) p i).1, readAt_stable hlast heof hbound hdepth p i⟩
  · rw [Cursor.start_eq_on]
    exact ⟨(program_halts hlast heof (Nat.le_trans hbound hdepth) 0).1,
      program_congr (readAt_stable hlast heof hbound hdepth .statements 0)⟩
  · exact loops_repeating (repeats_dwindles hlast heof hstep) s i

/-- A parenthesis and a number nest sixteen productions, so a depth of twelve is not enough for them; forty are enough for
any three tokens. -/
theorem reading_ends_parenthesis :
    let tokens := bareTokens [.symbol .openParen, .numeral (.whole 1), .eof]
    (readAt 12 .expression (.on tokens 0)).taken = 1 ∧ depthFor tokens.length = 40 ∧
      ∀ depth, 40 ≤ depth → (readAt depth .expression (.on tokens 0)).taken = 2 ∧
        (readAt depth .expression (.on tokens 0)).result ≠ .error .tooDeep := by
  intro tokens
  obtain ⟨hends, -, -⟩ := @reading_ends tokens ⟨.eof, .forgotten⟩ rfl rfl
  refine ⟨by decide +kernel, rfl, fun depth hdepth => ?_⟩
  obtain ⟨hdeep, hsame⟩ := hends .expression 0 depth hdepth
  refine ⟨?_, hdeep⟩
  rw [hsame]
  decide +kernel

end Scriptlet.Grammar
