import Scriptlet.Proofs.Conduct.Standing
import Scriptlet.Proofs.Reading.Success
import Scriptlet.Session
/-!
# Trees that are read can be run

Whatever the grammar reads is runnable: it joins operands by known operators only, and has no lone token
(`program_isRunnable`).  The tokens do not matter for this, so `Yields` looks at the result of a reading alone.
-/
namespace Scriptlet

namespace Grammar

open Production Reading

/-- What a reading gives, if it gives anything, has the property. -/
def Yields {α : Type} (Q : α → Prop) (r : Reading α) : Prop := ∀ c a, (r c).result = .ok a → Q a

namespace Yields

variable {α β σ : Type} {P Q : α → Prop} {R : β → Prop}

theorem any (r : Reading α) : Yields (fun _ => True) r := fun _ _ _ => trivial

theorem pure {a : α} (h : Q a) : Yields Q (Pure.pure a : Reading α) := by
  intro c b hb
  cases hb
  exact h

theorem fail (e : Expected) : Yields Q (Reading.fail e) := fun _ _ h => by cases h

theorem bind {r : Reading α} {f : α → Reading β} (hr : Yields P r) (hf : ∀ a, P a → Yields R (f a)) :
    Yields R (r >>= f) := by
  intro c b hb
  have hbind : (r >>= f) c = Reading.bind r f c := rfl
  rw [hbind, Reading.bind] at hb
  simp only at hb
  split at hb
  · next a ha => exact hf a (hr c a ha) _ b hb
  · cases hb

theorem ite {p : Prop} [Decidable p] {r s : Reading α} (hr : Yields Q r) (hs : Yields Q s) :
    Yields Q (if p then r else s) := by
  split
  · exact hr
  · exact hs

theorem relabel (e : Expected) {r : Reading α} (hr : Yields Q r) : Yields Q (Reading.relabel e r) := by
  intro c a ha
  unfold Reading.relabel at ha
  simp only at ha
  split at ha
  · split at ha
    · cases ha
    · exact hr c a ha
  · exact hr c a ha

theorem attempt {r : Reading α} (hr : Yields Q r) : Yields (fun t => ∀ a, t = .read a → Q a) (Reading.attempt r) := by
  intro c t ht
  unfold Reading.attempt at ht
  simp only at ht
  split at ht
  · next a ha =>
    cases ht
    intro b hb
    cases hb
    exact hr c a ha
  · cases ht
    intro b hb
    cases hb
  · cases ht

theorem repeating {I : σ → Prop} {step : σ → Reading (Option σ)} (hstep : ∀ s, I s → Yields (∀ t, · = some t → I t) (step s))
    {s : σ} (hs : I s) : Yields I (Reading.repeating step s) := by
  have hrounds : ∀ (fuel : Nat) (s : σ), I s → Yields I (rounds step fuel s) := by
    intro fuel
    induction fuel with
    | zero => exact fun s hs => .pure hs
    | succ fuel ih =>
      intro s hs
      refine .bind (hstep s hs) fun o ho => ?_
      cases o with
      | some t => exact ih t (ho t rfl)
      | none => exact .pure hs
  exact fun c => hrounds c.remaining s hs c

theorem commaSeparated {item : Reading α} (h : Yields Q item) : Yields (fun as => ∀ a ∈ as, Q a) item.commaSeparated := by
  refine .bind h fun first hfirst => .bind (P := fun as => ∀ a ∈ as, Q a) ?_ fun as has => .pure fun a ha => ?_
  · refine .repeating (fun as has => ?_) (by simpa using hfirst)
    refine .bind (.any _) fun l _ => .ite (.bind (.any _) fun _ _ => .bind h fun a ha => .pure ?_) (.pure ?_)
    · intro bs hbs
      cases hbs
      simpa using ⟨ha, has⟩
    · intro bs hbs
      cases hbs
  · exact has a (List.mem_reverse.1 ha)

theorem chain {operand further : Reading Node} {joins : Lexeme → Bool} (ho : Yields (·.isRunnable = true) operand)
    (hf : Yields (·.isRunnable = true) further) (hjoins : ∀ l, joins l = true → (BinaryOp.ofLexeme? l).isSome = true) :
    Yields (·.isRunnable = true) (Reading.chain operand further joins) := by
  refine .bind ho fun first hfirst => .repeating (fun left hleft => ?_) hfirst
  refine .bind (.any _) fun op _ => ?_
  split
  · next hop =>
    refine .bind (.any _) fun _ _ => .bind hf fun right hright => .pure fun n hn => ?_
    cases hn
    exact Node.isRunnable_binary.2 ⟨hjoins op hop, hleft, hright⟩
  · exact .pure fun n hn => by cases hn

end Yields

/-! ## The forms -/

/-- What a production gives is runnable. -/
def Production.Runnable : (p : Production) → p.Result → Prop
  | .statements, block => ∀ n ∈ block.items, n.isRunnable = true
  | .elifChoice, c => c.node.isRunnable = true
  | .otherwise, body => Body.optionRunnable body = true
  | .choiceTail, tail => (∀ c ∈ tail.cases, c.isRunnable = true) ∧ Body.optionRunnable tail.otherwise = true
  | .expression, n | .comparison, n | .sum, n | .product, n | .factor, n | .power, n | .call, n | .atom, n | .list, n
  | .choice, n | .count, n | .loop, n | .function, n => n.isRunnable = true

section Forms

variable {read : (p : Production) → Reading p.Result} (hread : ∀ p, Yields p.Runnable (read p))

include hread

theorem expression_yields : Yields (·.isRunnable = true) (read .expression) := hread .expression

theorem block_yields : Yields (fun b => b.node.isRunnable = true) (read .statements) := by
  intro c block h
  exact Node.allRunnable_iff.2 (hread .statements c block h)

theorem statementsForm_yields : Yields (Runnable .statements) (statementsForm read) := by
  refine .bind (.any _) fun start _ => .bind (.any _) fun _ _ => .bind (hread .expression) fun first hfirst => ?_
  have hrow : Yields (fun s => ∀ n ∈ s.items, n.isRunnable = true)
      (Reading.repeating (nextStatement read) ⟨[first], 0, true⟩) := by
    refine .repeating (fun s hs => .bind (.any _) fun k _ => .ite (.pure ?_) (.bind (.attempt (hread .expression)) ?_)) ?_
    · intro t ht
      cases ht
    · intro tried htried
      cases tried with
      | read n =>
        refine .pure fun t ht => ?_
        cases ht
        intro m hm
        rcases List.mem_cons.1 hm with rfl | hm
        · exact htried m rfl
        · exact hs m hm
      | handedBack k =>
        refine .pure fun t ht => ?_
        cases ht
        exact hs
    · intro n hn
      rw [List.mem_singleton.1 hn]
      exact hfirst
  refine .bind hrow fun row hrow => .bind (.any _) fun stop _ => .pure fun n hn => ?_
  exact hrow n (List.mem_reverse.1 hn)

theorem closedBlock_yields : Yields (·.isRunnable = true) (closedBlock read) :=
  .bind (.any _) fun _ _ => .bind (block_yields hread) fun _ hblock => .bind (.any _) fun _ _ => .pure hblock

theorem bodyForm_yields : Yields (·.isRunnable = true) (bodyForm read) :=
  .bind (.any _) fun _ _ => .ite (closedBlock_yields hread) (.bind (hread .expression) fun _ hn => .pure hn)

theorem expressionForm_yields : Yields (·.isRunnable = true) (expressionForm read) := by
  refine .bind (.any _) fun l _ => .ite ?_ (.relabel _ (.chain (hread .comparison) (hread .comparison) ?_))
  · exact .bind (.any _) fun _ _ => .bind (.any _) fun _ _ => .bind (.any _) fun _ _ =>
      .bind (hread .expression) fun _ hn => .pure hn
  · intro l hl
    simp only [joinsConditions, Bool.or_eq_true, Lexeme.isKeyword_iff] at hl
    rcases hl with rfl | rfl <;> rfl

theorem comparisonForm_yields : Yields (·.isRunnable = true) (comparisonForm read) := by
  refine .bind (.any _) fun l _ => .ite ?_ (.relabel _ (.chain (hread .sum) (hread .sum) ?_))
  · exact .bind (.any _) fun _ _ => .bind (hread .comparison) fun _ hn => .pure hn
  · intro l hl
    cases l with
    | symbol s => cases s <;> first | rfl | cases hl
    | _ => cases hl

theorem factorForm_yields : Yields (·.isRunnable = true) (factorForm read) :=
  .bind (.any _) fun _ _ =>
    .ite (.bind (.any _) fun _ _ => .bind (hread .factor) fun _ hn => .pure hn) (hread .power)

theorem argumentsForm_yields : Yields (fun ns => ∀ n ∈ ns, n.isRunnable = true) (argumentsForm read) := by
  refine .bind (.any _) fun _ _ => .ite (.bind (.any _) fun _ _ => .pure (by simp)) ?_
  exact .bind (.commaSeparated (expression_yields hread)) fun _ hns => .bind (.any _) fun _ _ => .pure hns

theorem callForm_yields : Yields (·.isRunnable = true) (callForm read) := by
  refine .bind (hread .atom) fun callee hcallee => .bind (.any _) fun _ _ => .ite ?_ (.pure hcallee)
  refine .bind (.any _) fun _ _ => .bind (argumentsForm_yields hread) fun ns hns => .pure ?_
  exact Node.isRunnable_call.2 ⟨hcallee, hns⟩

theorem atomForm_yields : Yields (·.isRunnable = true) (atomForm read) := by
  refine .bind (.any _) fun token _ => ?_
  split
  · exact .bind (.any _) fun _ _ => .pure rfl
  · exact .bind (.any _) fun _ _ => .pure rfl
  · exact .bind (.any _) fun _ _ => .pure rfl
  · exact .bind (.any _) fun _ _ => .bind (hread .expression) fun _ hn => .bind (.any _) fun _ _ => .pure hn
  · exact hread .list
  · exact hread .choice
  · exact hread .count
  · exact hread .loop
  · exact hread .function
  · exact .fail _

theorem listForm_yields : Yields (·.isRunnable = true) (listForm read) := by
  have hlist : ∀ {items : List Node} (start : Position), (∀ n ∈ items, n.isRunnable = true) →
      Yields (·.isRunnable = true) (do return Node.list items ⟨start, (← current).span.stop⟩) :=
    fun start hitems => .bind (.any _) fun _ _ => .pure (Node.allRunnable_iff.2 hitems)
  refine .bind (.any _) fun token _ => .bind (.any _) fun _ _ => .bind (.any _) fun _ _ => .ite ?_ ?_
  · exact .bind (.any _) fun _ _ => hlist _ (by simp)
  · exact .bind (.commaSeparated (expression_yields hread)) fun items hitems => .bind (.any _) fun _ _ => hlist _ hitems

theorem choiceFrom_yields (k : Keyword) : Yields (fun c => c.node.isRunnable = true) (choiceFrom read k) := by
  have hchoice : ∀ {test : Node} {body : Body} {tail : ChoiceTail}, test.isRunnable = true → body.isRunnable = true →
      Runnable .choiceTail tail → (Choice.node ⟨.mk test body, tail⟩).isRunnable = true := by
    intro test body tail htest hbody htail
    refine Node.isRunnable_choice.2 ⟨List.forall_mem_cons.2 ⟨?_, htail.1⟩, htail.2⟩
    exact Case.isRunnable_mk.2 ⟨htest, hbody⟩
  refine .bind (.any _) fun _ _ => .bind (hread .expression) fun test htest => .bind (.any _) fun _ _ => ?_
  refine .bind (.any _) fun l _ => .ite ?_ ?_
  · refine .bind (.any _) fun _ _ => .bind (block_yields hread) fun block hblock => .bind (.any _) fun _ _ => .ite ?_ ?_
    · exact .bind (.any _) fun _ _ => .pure (hchoice htest hblock ⟨by simp, rfl⟩)
    · exact .bind (hread .choiceTail) fun tail htail => .pure (hchoice htest hblock htail)
  · refine .bind (hread .expression) fun n hn => .bind (hread .choiceTail) fun tail htail => .pure ?_
    exact hchoice htest hn htail

theorem otherwiseForm_yields : Yields (Runnable .otherwise) (otherwiseForm read) :=
  .bind (.any _) fun _ _ =>
    .ite (.bind (.any _) fun _ _ => .bind (bodyForm_yields hread) fun _ hbody => .pure hbody) (.pure rfl)

theorem choiceTailForm_yields : Yields (Runnable .choiceTail) (choiceTailForm read) := by
  refine .bind (.any _) fun _ _ => .ite (.bind (hread .elifChoice) fun c hc => .pure ?_)
    (.bind (hread .otherwise) fun body hbody => .pure ⟨by simp, hbody⟩)
  exact Node.isRunnable_choice.1 hc

theorem countForm_yields : Yields (·.isRunnable = true) (countForm read) := by
  refine .bind (.any _) fun _ _ => .bind (.any _) fun name _ => .bind (.any _) fun _ _ => ?_
  refine .bind (hread .expression) fun first hfirst => .bind (.any _) fun _ _ => ?_
  refine .bind (hread .expression) fun last hlast => .bind (.any _) fun _ _ => ?_
  have hcount : ∀ step : Option Node, Node.optionRunnable step = true → Yields (·.isRunnable = true) (do
      expectKeyword .do_
      return Node.count name first last step (← bodyForm read)) := by
    intro step hstep
    refine .bind (.any _) fun _ _ => .bind (bodyForm_yields hread) fun body hbody => .pure ?_
    exact Node.isRunnable_count.2 ⟨hfirst, hlast, hstep, hbody⟩
  refine .ite ?_ (hcount none rfl)
  exact .bind (.any _) fun _ _ => .bind (hread .expression) fun n hn => hcount (some n) hn

theorem loopForm_yields : Yields (·.isRunnable = true) (loopForm read) := by
  refine .bind (.any _) fun _ _ => .bind (hread .expression) fun test htest => .bind (.any _) fun _ _ => ?_
  refine .bind (.any _) fun _ _ => .ite (.bind (hread .expression) fun n hn => .pure ?_) (.fail _)
  exact Node.isRunnable_loop.2 ⟨htest, hn⟩

theorem functionForm_yields : Yields (·.isRunnable = true) (functionForm read) := by
  have hrest : ∀ name : Option Name, Yields (·.isRunnable = true) (do
      let parameters ← parametersForm
      if (← lexeme).isSymbol .arrow then
        take
        return Node.function name parameters (.inline (← read .expression))
      else if (← lexeme).isNewline then return .function name parameters (← closedBlock read)
      else fail .arrowOrNewline) := by
    intro name
    refine .bind (.any _) fun parameters _ => .bind (.any _) fun _ _ => .ite ?_ (.bind (.any _) fun _ _ => .ite ?_ (.fail _))
    · exact .bind (.any _) fun _ _ => .bind (hread .expression) fun _ hn => .pure hn
    · exact .bind (closedBlock_yields hread) fun _ hbody => .pure hbody
  refine .bind (.any _) fun _ _ => .bind (.any _) fun l _ => ?_
  split
  · exact .bind (.any _) fun name _ => .bind (.any _) fun _ _ => hrest (some name)
  · exact .bind (.any _) fun _ _ => hrest none

theorem body_yields (p : Production) : Yields p.Runnable (body read p) := by
  cases p with
  | statements => exact statementsForm_yields hread
  | expression => exact expressionForm_yields hread
  | comparison => exact comparisonForm_yields hread
  | sum =>
    refine .chain (hread .product) (hread .product) fun l hl => ?_
    simp only [joinsTerms, Bool.or_eq_true, Lexeme.isSymbol_iff] at hl
    rcases hl with rfl | rfl <;> rfl
  | product =>
    refine .chain (hread .factor) (hread .factor) fun l hl => ?_
    cases l with
    | symbol s => cases s <;> first | rfl | cases hl
    | _ => cases hl
  | factor => exact factorForm_yields hread
  | power =>
    refine .chain (hread .call) (hread .factor) fun l hl => ?_
    rw [Lexeme.isSymbol_iff.1 hl]
    rfl
  | call => exact callForm_yields hread
  | atom => exact atomForm_yields hread
  | list => exact listForm_yields hread
  | choice => exact .bind (choiceFrom_yields hread .if_) fun _ hc => .pure hc
  | elifChoice => exact choiceFrom_yields hread .elif
  | otherwise => exact otherwiseForm_yields hread
  | choiceTail => exact choiceTailForm_yields hread
  | count => exact countForm_yields hread
  | loop => exact loopForm_yields hread
  | function => exact functionForm_yields hread

end Forms

theorem readAt_yields (depth : Nat) (p : Production) : Yields p.Runnable (readAt depth p) := by
  induction depth generalizing p with
  | zero => exact fun _ _ h => by cases h
  | succ depth ih => exact body_yields ih p

end Grammar

namespace Scan

/-! ## The faults of reading -/

theorem readNumber_fault {p : Position} {cs : List Char} {f : Fault} (h : readNumber p cs = .error (.fault f)) :
    f = .digitLimit := by
  unfold readNumber at h
  simp only at h
  split at h
  · cases h
  · split at h
    · cases h
      rfl
    · cases h

theorem readString_fault {p : Position} {quote : Char} {cs : List Char} {f : Fault} :
    readString p quote cs ≠ .error (.fault f) := by
  intro h
  unfold readString at h
  simp only at h
  split at h <;> cases h

theorem readExtensible_fault {p : Position} {c : Char} {e : Extension} {cs : List Char} {f : Fault} :
    readExtensible p c e cs ≠ .error (.fault f) := by
  have hdecline : ∀ ahead, readExtensible.decline p c e cs ahead ≠ .error (.fault f) := by
    intro ahead h
    unfold readExtensible.decline at h
    simp only at h
    split at h <;> cases h
  intro h
  unfold readExtensible at h
  split at h
  · split at h
    · cases h
    · exact hdecline _ h
  · exact hdecline _ h

theorem readAt_fault {p : Position} {c : Char} {cs : List Char} {f : Fault} (h : readAt p c cs = .error (.fault f)) :
    f = .digitLimit := by
  unfold readAt at h
  split at h
  · cases h
  split at h
  · cases h
  split at h
  · exact readNumber_fault h
  split at h
  · cases h
  split at h
  · exact (readString_fault h).elim
  split at h
  · exact (readExtensible_fault h).elim
  · cases h
  · cases h

theorem tokensFrom_fault {f : Fault} : ∀ {fuel : Nat} {p : Position} {cs : List Char},
    tokensFrom fuel p cs = .error (.fault f) → f = .digitLimit
  | 0, _, [], h | 0, _, _ :: _, h | _ + 1, _, [], h => by cases h
  | fuel + 1, p, c :: cs, h => by
    cases hread : readAt p c cs with
    | error e =>
      rw [tokensFrom, hread] at h
      cases h
      exact readAt_fault hread
    | ok read =>
      rw [tokensFrom_cons fuel hread] at h
      cases hrest : tokensFrom fuel read.position read.rest with
      | error e =>
        rw [hrest] at h
        cases h
        exact tokensFrom_fault hrest
      | ok tokens =>
        rw [hrest] at h
        cases h

end Scan

namespace Parse

theorem settle_fault {α : Type} {reply : Grammar.Reply α} {f : Fault} (h : settle reply = .error (.fault f)) :
    f = .tooDeep := by
  unfold settle at h
  split at h
  · cases h
  · cases h
  · cases h
    rfl

/-- **The tree of a text is runnable.** -/
theorem program_isRunnable {limits : Limits} {source : Source} {tree : Node} (h : program limits source = .ok tree) :
    tree.isRunnable = true := by
  obtain ⟨tokens, -, htree⟩ := program_eq_ok.1 h
  have hprogram : Grammar.Yields (·.isRunnable = true) (Grammar.program limits.reading) := by
    refine .bind (P := fun b => b.node.isRunnable = true) ?_ fun _ hb => .pure hb
    refine .bind (Grammar.block_yields (Grammar.readAt_yields limits.reading)) fun _ hb => ?_
    exact .bind (.any _) fun _ _ => .ite (.pure hb) (.fail _)
  exact hprogram (.start tokens) tree htree

/-- A text whose reading faults is nested too deep or has a numeral that is too long. -/
theorem program_fault {limits : Limits} {source : Source} {f : Fault} (h : program limits source = .error (.fault f)) :
    f = .tooDeep ∨ f = .digitLimit := by
  unfold program scan at h
  cases hscan : Scan.tokens source with
  | ok tokens =>
    rw [hscan] at h
    exact .inl (settle_fault h)
  | error e =>
    rw [hscan] at h
    cases e with
    | problem p => cases h
    | fault g =>
      cases h
      exact .inr (Scan.tokensFrom_fault hscan)

end Parse

end Scriptlet
