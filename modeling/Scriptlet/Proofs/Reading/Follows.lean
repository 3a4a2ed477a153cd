import Scriptlet.Proofs.Relocation
/-!
# Readings that follow one another

Every cursor that reading can come to is `Cursor.on tokens i`: it stands on the token of number `i`, and past the end it
still shows the last token.  What a reading does there depends on little: on the lexemes from `i` on, not on the tokens
before, not on where the tokens stand in their source, and on the depth it may nest to only if that depth does not suffice.

`Follows lax φ g r r'` says all of this of two readings at once.  Set on texts whose rests are the same up to moving the
positions by `φ`, whatever stands before the rests, `r` and `r'` take the same number of tokens, give results that
correspond under `g`, and fail at the token where they stop.  If `lax` holds, `r` may be too deep instead.  The readings of
the grammar follow one another (`readAt_follows`); the statements used elsewhere are its special cases at the end.
-/
namespace Scriptlet.Grammar

namespace Cursor

/-- The token shown at number `i`: past the end it is the last one. -/
def shown (tokens : List Token) (i : Nat) : Token := tokens[i]?.getD (tokens.getLastD default)

/-- The cursor on the token of number `i`. -/
def on (tokens : List Token) (i : Nat) : Cursor := ⟨tokens.toArray, i, shown tokens i⟩

theorem shown_eq_last {tokens : List Token} {i : Nat} (h : tokens.length ≤ i + 1) :
    shown tokens i = tokens.getLastD default := by
  rw [shown, List.getLastD_eq_getLast?, List.getLast?_eq_getElem?]
  by_cases hi : i < tokens.length
  · rw [show tokens.length - 1 = i by omega]
    cases tokens[i]? <;> rfl
  · rw [List.getElem?_eq_none (by omega)]
    rfl

theorem shown_of_lt {tokens : List Token} {i : Nat} (h : i < tokens.length) : shown tokens i = tokens[i] := by
  rw [shown, List.getElem?_eq_getElem h]
  rfl

theorem getElem?_eq_shown {tokens : List Token} {i : Nat} (h : i < tokens.length) : tokens[i]? = some (shown tokens i) := by
  rw [shown_of_lt h, List.getElem?_eq_getElem h]

/-- Moving keeps what is shown if there is no token at the new place, so it must be the last one already. -/
theorem moveTo_on (tokens : List Token) (i j : Nat) (h : tokens.length ≤ j → tokens.length ≤ i + 1) :
    (on tokens i).moveTo (j : Int) = on tokens j := by
  show (⟨tokens.toArray, j, tokens.toArray[j]?.getD (shown tokens i)⟩ : Cursor) = _
  rw [List.getElem?_toArray]
  by_cases hj : j < tokens.length
  · rw [on, shown_of_lt hj, List.getElem?_eq_getElem hj]
    rfl
  · rw [shown_eq_last (h (by omega)), List.getElem?_eq_none (by omega), on, shown_eq_last (by omega)]
    rfl

theorem start_eq_on (tokens : List Token) : Cursor.start tokens = on tokens 0 := by
  cases tokens <;> rfl

theorem next_on (tokens : List Token) (i : Nat) : (on tokens i).next = on tokens (i + 1) :=
  moveTo_on tokens i (i + 1) id

theorem back_on (tokens : List Token) (i n : Nat) : (on tokens (i + n)).back n = on tokens i := by
  rw [← moveTo_on tokens (i + n) i (by omega), back]
  congr 1
  show ((i + n : Nat) : Int) - (n : Int) = (i : Int)
  omega

theorem remaining_on (tokens : List Token) (i : Nat) : (on tokens i).remaining = tokens.length + 1 - i := by
  simp only [remaining, on, List.size_toArray]
  omega

/-- What is shown depends on the tokens from some place on, if there are any. -/
theorem shown_append (before : List Token) {rest : List Token} (h : rest ≠ []) (i : Nat) :
    shown (before ++ rest) (before.length + i) = shown rest i := by
  rw [shown, shown, List.getElem?_append_right (by omega), Nat.add_sub_cancel_left, List.getLastD_eq_getLast?,
    List.getLastD_eq_getLast?, List.getLast?_append, List.getLast?_eq_some_getLast h]
  rfl

theorem shown_map (f : Token → Token) {tokens : List Token} (h : tokens ≠ []) (i : Nat) :
    shown (tokens.map f) i = f (shown tokens i) := by
  rw [shown, shown, List.getElem?_map, List.getLastD_eq_getLast?, List.getLastD_eq_getLast?, List.getLast?_map,
    List.getLast?_eq_some_getLast h]
  cases tokens[i]? <;> rfl

end Cursor

def Refusal.relocate (φ : Position → Position) : Refusal → Refusal
  | .unexpected e span => .unexpected e (span.relocate φ)
  | .tooDeep => .tooDeep

/-- Results that correspond: of a refusal, the place is moved. -/
def mapResult {α β : Type} (φ : Position → Position) (g : α → β) : Except Refusal α → Except Refusal β
  | .ok a => .ok (g a)
  | .error r => .error (r.relocate φ)

theorem mapResult_eq_ok {α β : Type} {φ : Position → Position} {g : α → β} {x : Except Refusal α} {b : β} :
    mapResult φ g x = .ok b ↔ ∃ a, x = .ok a ∧ g a = b := by
  cases x <;> simp [mapResult]

/-- Two replies from the `i`-th token of corresponding rests. -/
structure Reply.Follows {α β : Type} (φ : Position → Position) (g : α → β) (before before' rest : List Token) (i : Nat)
    (a : Reply α) (b : Reply β) : Prop where
  result : b.result = mapResult φ g a.result
  taken : b.taken = a.taken
  cursor : a.cursor = .on (before ++ rest) (before.length + (i + a.taken))
  cursor' : b.cursor = .on (before' ++ rest.map (Token.relocate φ)) (before'.length + (i + a.taken))
  place : ∀ e span, a.result = .error (.unexpected e span) → span = a.cursor.current.span

namespace Reading

variable {α β γ δ : Type} {lax : Prop} {φ : Position → Position}

/-- `r'` does on corresponding rests what `r` does, unless `lax` holds and `r` is too deep. -/
def Follows (lax : Prop) (φ : Position → Position) (g : α → β) (r : Reading α) (r' : Reading β) : Prop :=
  ∀ (before before' rest : List Token) (i : Nat), rest ≠ [] →
    (lax ∧ (r (.on (before ++ rest) (before.length + i))).result = .error .tooDeep) ∨
    Reply.Follows φ g before before' rest i (r (.on (before ++ rest) (before.length + i)))
      (r' (.on (before' ++ rest.map (Token.relocate φ)) (before'.length + i)))

namespace Follows

theorem pure {g : α → β} {a : α} {b : β} (h : b = g a) :
    Follows lax φ g (Pure.pure a : Reading α) (Pure.pure b : Reading β) := by
  intro before before' rest i _
  refine .inr ⟨?_, rfl, rfl, rfl, fun e span h => by cases h⟩
  rw [h]
  rfl

theorem bind {g : α → β} {h : γ → δ} {r : Reading α} {r' : Reading β} {f : α → Reading γ} {f' : β → Reading δ}
    (hr : Follows lax φ g r r') (hf : ∀ a, Follows lax φ h (f a) (f' (g a))) :
    Follows lax φ h (r >>= f) (r' >>= f') := by
  intro before before' rest i hrest
  show (lax ∧ (Reading.bind r f _).result = _) ∨ Reply.Follows φ h before before' rest i (Reading.bind r f _)
    (Reading.bind r' f' _)
  simp only [Reading.bind]
  rcases hr before before' rest i hrest with ⟨hlax, hdeep⟩ | hr
  · left
    rw [hdeep]
    exact ⟨hlax, rfl⟩
  · generalize r (.on (before ++ rest) (before.length + i)) = x at hr
    generalize r' (.on (before' ++ rest.map (Token.relocate φ)) (before'.length + i)) = y at hr
    cases hx : x.result with
    | error e =>
      right
      rw [hr.result, hx]
      exact ⟨rfl, hr.taken, hr.cursor, hr.cursor', fun e' span he => by cases he; exact hr.place _ _ hx⟩
    | ok a =>
      rw [hr.result, hx]
      simp only [mapResult, hr.cursor, hr.cursor', hr.taken]
      rcases hf a before before' rest (i + x.taken) hrest with ⟨hlax, hdeep⟩ | hf
      · exact .inl ⟨hlax, hdeep⟩
      · refine .inr ⟨hf.result, by rw [hf.taken], ?_, ?_, hf.place⟩
        · rw [hf.cursor, ← Nat.add_assoc i]
        · rw [hf.cursor', ← Nat.add_assoc i]

/-- Corresponding cursors show corresponding tokens. -/
theorem current_on (before before' : List Token) {rest : List Token} (hrest : rest ≠ []) (i : Nat) :
    (Cursor.on (before' ++ rest.map (Token.relocate φ)) (before'.length + i)).current =
      (Cursor.on (before ++ rest) (before.length + i)).current.relocate φ := by
  show Cursor.shown _ _ = (Cursor.shown _ _).relocate φ
  rw [Cursor.shown_append _ hrest, Cursor.shown_append _ (by simpa using hrest), Cursor.shown_map _ hrest]

theorem current : Follows lax φ (Token.relocate φ) Reading.current Reading.current := by
  intro before before' rest i hrest
  refine .inr ⟨?_, rfl, rfl, rfl, fun e span h => by cases h⟩
  exact congrArg Except.ok (current_on before before' hrest i)

theorem lexeme : Follows lax φ (fun l => l) Reading.lexeme Reading.lexeme := by
  intro before before' rest i hrest
  refine .inr ⟨?_, rfl, rfl, rfl, fun e span h => by cases h⟩
  show Except.ok (Token.lexeme _) = Except.ok (Token.lexeme _)
  rw [current_on before before' hrest i, Token.relocate_lexeme]

theorem take : Follows lax φ (fun u => u) Reading.take Reading.take := by
  intro before before' rest i hrest
  refine .inr ⟨rfl, rfl, ?_, ?_, fun e span h => by cases h⟩
  · exact Cursor.next_on _ _
  · exact Cursor.next_on _ _

theorem fail (g : α → β) (e : Expected) : Follows lax φ g (Reading.fail e) (Reading.fail e) := by
  intro before before' rest i hrest
  refine .inr ⟨?_, rfl, rfl, rfl, fun e span h => by cases h; rfl⟩
  exact congrArg (fun t => Except.error (Refusal.unexpected e (Token.span t))) (current_on before before' hrest i)

theorem tooDeep (g : α → β) : Follows lax φ g Reading.tooDeep Reading.tooDeep :=
  fun _ _ _ _ _ => .inr ⟨rfl, rfl, rfl, rfl, fun e span h => by cases h⟩

/-- Whatever a reading may do, one that is too deep allows it. -/
theorem of_tooDeep (h : lax) (g : α → β) (r' : Reading β) : Follows lax φ g Reading.tooDeep r' :=
  fun _ _ _ _ _ => .inl ⟨h, rfl⟩

theorem relabel {g : α → β} {r : Reading α} {r' : Reading β} (e : Expected) (hr : Follows lax φ g r r') :
    Follows lax φ g (r.relabel e) (r'.relabel e) := by
  intro before before' rest i hrest
  simp only [Reading.relabel]
  rcases hr before before' rest i hrest with ⟨hlax, hdeep⟩ | hr
  · left
    rw [hdeep]
    exact ⟨hlax, hdeep⟩
  · right
    generalize r (.on (before ++ rest) (before.length + i)) = x at hr
    generalize r' (.on (before' ++ rest.map (Token.relocate φ)) (before'.length + i)) = y at hr
    have hy := hr.result
    cases hx : x.result with
    | ok a =>
      rw [hx] at hy
      rw [hy]
      exact hr
    | error e' =>
      rw [hx] at hy
      rw [hy]
      cases e' with
      | tooDeep => exact hr
      | unexpected e' span =>
        simp only [mapResult, Refusal.relocate, hr.taken]
        split
        · refine ⟨?_, rfl, hr.cursor, hr.cursor', fun e' span he => by cases he; rfl⟩
          rw [hr.cursor, hr.cursor']
          exact congrArg (fun t => Except.error (Refusal.unexpected e (Token.span t)))
            (current_on before before' hrest _)
        · exact hr

def mapTried (g : α → β) : Tried α → Tried β
  | .read a => .read (g a)
  | .handedBack n => .handedBack n

theorem attempt {g : α → β} {r : Reading α} {r' : Reading β} (hr : Follows lax φ g r r') :
    Follows lax φ (mapTried g) r.attempt r'.attempt := by
  intro before before' rest i hrest
  simp only [Reading.attempt]
  rcases hr before before' rest i hrest with ⟨hlax, hdeep⟩ | hr
  · left
    rw [hdeep]
    exact ⟨hlax, rfl⟩
  · right
    generalize r (.on (before ++ rest) (before.length + i)) = x at hr
    generalize r' (.on (before' ++ rest.map (Token.relocate φ)) (before'.length + i)) = y at hr
    have hy := hr.result
    cases hx : x.result with
    | ok a =>
      rw [hx] at hy
      rw [hy]
      exact ⟨rfl, hr.taken, hr.cursor, hr.cursor', fun e span he => by cases he⟩
    | error e' =>
      rw [hx] at hy
      rw [hy]
      cases e' with
      | tooDeep => exact ⟨rfl, hr.taken, hr.cursor, hr.cursor', fun e span he => by cases he⟩
      | unexpected e' span =>
        refine ⟨by rw [hr.taken]; rfl, rfl, ?_, ?_, fun e span he => by cases he⟩
        · show x.cursor.back x.taken = _
          rw [hr.cursor, ← Nat.add_assoc, Cursor.back_on]
          rfl
        · show y.cursor.back y.taken = _
          rw [hr.cursor', hr.taken, ← Nat.add_assoc, Cursor.back_on]
          rfl

theorem rounds {σ τ : Type} {g : σ → τ} {step : σ → Reading (Option σ)} {step' : τ → Reading (Option τ)}
    (hstep : ∀ s, Follows lax φ (Option.map g) (step s) (step' (g s))) :
    ∀ (fuel : Nat) (s : σ), Follows lax φ g (Reading.rounds step fuel s) (Reading.rounds step' fuel (g s))
  | 0, _ => .pure rfl
  | fuel + 1, s => by
    refine .bind (hstep s) fun t => ?_
    cases t with
    | none => exact .pure rfl
    | some t => exact rounds hstep fuel t

theorem repeating {σ τ : Type} {g : σ → τ} {step : σ → Reading (Option σ)} {step' : τ → Reading (Option τ)} (s : σ)
    (hstep : ∀ s, Follows lax φ (Option.map g) (step s) (step' (g s))) :
    Follows lax φ g (Reading.repeating step s) (Reading.repeating step' (g s)) := by
  intro before before' rest i hrest
  -- The fuel is what remains, and that is the same for both.
  have hfuel : (Cursor.on (before' ++ rest.map (Token.relocate φ)) (before'.length + i)).remaining =
      (Cursor.on (before ++ rest) (before.length + i)).remaining := by
    simp only [Cursor.remaining_on, List.length_append, List.length_map]
    omega
  simp only [Reading.repeating, hfuel]
  exact rounds hstep _ s before before' rest i hrest

theorem ite {g : α → β} {c : Prop} [Decidable c] {r s : Reading α} {r' s' : Reading β} (hr : Follows lax φ g r r')
    (hs : Follows lax φ g s s') : Follows lax φ g (if c then r else s) (if c then r' else s') := by
  split
  · exact hr
  · exact hs

/-! ## Taking what must be there, and repetition -/

theorem expectKeyword (k : Keyword) : Follows lax φ (fun u => u) (Reading.expectKeyword k) (Reading.expectKeyword k) :=
  .bind .lexeme fun _ => .ite .take (.fail _ _)

theorem expectSymbol (s : Symbol) (e : Expected) :
    Follows lax φ (fun u => u) (Reading.expectSymbol s e) (Reading.expectSymbol s e) :=
  .bind .lexeme fun _ => .ite .take (.fail _ _)

theorem expectName (e : Expected) :
    Follows lax φ (Name.relocate φ) (Reading.expectName e) (Reading.expectName e) := by
  refine .bind .current fun token => ?_
  obtain ⟨l, span⟩ := token
  cases l with
  | name text => exact .bind .take fun _ => .pure rfl
  | _ => exact .fail _ _

theorem newlines : Follows lax φ (fun n => n) Reading.newlines Reading.newlines := by
  refine .repeating 0 fun n => .bind .lexeme fun l => .ite ?_ ?_
  · exact .bind .take fun _ => .pure rfl
  · exact .pure rfl

theorem moreItems {g : α → β} {item : Reading α} {item' : Reading β} (hitem : Follows lax φ g item item')
    (read : List α) : Follows lax φ (List.map g) (item.moreItems read) (item'.moreItems (read.map g)) := by
  refine .repeating read fun items => .bind .lexeme fun l => .ite ?_ ?_
  · exact .bind .take fun _ => .bind hitem fun a => .pure rfl
  · exact .pure rfl

theorem commaSeparated {g : α → β} {item : Reading α} {item' : Reading β} (hitem : Follows lax φ g item item') :
    Follows lax φ (List.map g) item.commaSeparated item'.commaSeparated :=
  .bind hitem fun a => .bind (moreItems hitem [a]) fun _ => .pure List.map_reverse.symm

theorem chain {operand operand' further further' : Reading Node} (joins : Lexeme → Bool)
    (ho : Follows lax φ (Node.relocate φ) operand operand') (hf : Follows lax φ (Node.relocate φ) further further') :
    Follows lax φ (Node.relocate φ) (operand.chain further joins) (operand'.chain further' joins) := by
  refine .bind ho fun first => .repeating first fun left => .bind .lexeme fun op => .ite ?_ ?_
  · exact .bind .take fun _ => .bind hf fun right => .pure rfl
  · exact .pure rfl

end Follows

end Reading

/-! ## The productions -/

namespace Production

open Reading

def relocate (φ : Position → Position) : (p : Production) → p.Result → p.Result
  | .statements, b => ⟨b.items.map (Node.relocate φ), b.span.relocate φ, b.handedBack⟩
  | .elifChoice, c => ⟨c.first.relocate φ, c.tail.cases.map (Case.relocate φ), c.tail.otherwise.map (Body.relocate φ)⟩
  | .otherwise, b => b.map (Body.relocate φ)
  | .choiceTail, t => ⟨t.cases.map (Case.relocate φ), t.otherwise.map (Body.relocate φ)⟩
  | .expression, n | .comparison, n | .sum, n | .product, n | .factor, n | .power, n | .call, n | .atom, n
  | .list, n | .choice, n | .count, n | .loop, n | .function, n => n.relocate φ

def Progress.relocate (φ : Position → Position) (s : Progress) : Progress :=
  { s with items := s.items.map (Node.relocate φ) }

section Forms

variable {lax : Prop} {φ : Position → Position} {read read' : (p : Production) → Reading p.Result}
  (h : ∀ p, Follows lax φ (p.relocate φ) (read p) (read' p))

include h

theorem nextStatement_follows (s : Progress) :
    Follows lax φ (Option.map (Progress.relocate φ)) (nextStatement read s) (nextStatement read' (s.relocate φ)) := by
  refine .bind .newlines fun n => .ite (.pure rfl) ?_
  refine .bind (.attempt (h .expression)) fun t => ?_
  cases t with
  | read node => exact .pure rfl
  | handedBack k => exact .pure rfl

theorem statementsForm_follows :
    Follows lax φ (Production.statements.relocate φ) (statementsForm read) (statementsForm read') := by
  refine .bind .current fun start => .bind .newlines fun _ => .bind (h .expression) fun first => ?_
  refine .bind (.repeating ⟨[first], 0, true⟩ (nextStatement_follows h)) fun row => .bind .current fun stop => .pure ?_
  simp only [relocate, Progress.relocate, List.map_reverse]
  rfl

theorem closedBlock_follows : Follows lax φ (Body.relocate φ) (closedBlock read) (closedBlock read') := by
  refine .bind .take fun _ => .bind (h .statements) fun block => .bind (.expectKeyword _) fun _ => .pure ?_
  simp [Block.node, relocate, Body.relocate, Node.relocate]

theorem bodyForm_follows : Follows lax φ (Body.relocate φ) (bodyForm read) (bodyForm read') :=
  .bind .lexeme fun _ => .ite (closedBlock_follows h) (.bind (h .expression) fun _ => .pure rfl)

theorem expressionForm_follows : Follows lax φ (Node.relocate φ) (expressionForm read) (expressionForm read') := by
  refine .bind .lexeme fun _ => .ite ?_ (.relabel _ (.chain _ (h .comparison) (h .comparison)))
  exact .bind .take fun _ => .bind (.expectName _) fun _ => .bind (.expectSymbol _ _) fun _ =>
    .bind (h .expression) fun _ => .pure rfl

theorem comparisonForm_follows : Follows lax φ (Node.relocate φ) (comparisonForm read) (comparisonForm read') := by
  refine .bind .current fun _ => .ite ?_ (.relabel _ (.chain _ (h .sum) (h .sum)))
  exact .bind .take fun _ => .bind (h .comparison) fun _ => .pure rfl

theorem factorForm_follows : Follows lax φ (Node.relocate φ) (factorForm read) (factorForm read') := by
  refine .bind .current fun _ => .ite ?_ (h .power)
  exact .bind .take fun _ => .bind (h .factor) fun _ => .pure rfl

theorem argumentsForm_follows :
    Follows lax φ (List.map (Node.relocate φ)) (argumentsForm read) (argumentsForm read') := by
  refine .bind .lexeme fun _ => .ite (.bind .take fun _ => .pure rfl) ?_
  exact .bind (.commaSeparated (h .expression)) fun _ => .bind (.expectSymbol _ _) fun _ => .pure rfl

theorem callForm_follows : Follows lax φ (Node.relocate φ) (callForm read) (callForm read') := by
  refine .bind (h .atom) fun callee => .bind .lexeme fun _ => .ite ?_ (.pure rfl)
  refine .bind .take fun _ => .bind (argumentsForm_follows h) fun arguments => .pure ?_
  simp [Node.relocate, relocate]

theorem parenthesised_follows : Follows lax φ (Node.relocate φ) (parenthesised read) (parenthesised read') :=
  .bind .take fun _ => .bind (h .expression) fun _ => .bind (.expectSymbol _ _) fun _ => .pure rfl

theorem atomForm_follows : Follows lax φ (Node.relocate φ) (atomForm read) (atomForm read') := by
  refine .bind .current fun token => ?_
  obtain ⟨l, span⟩ := token
  cases l with
  | numeral _ | string _ | name _ => exact .bind .take fun _ => .pure rfl
  | newline | eof => exact .fail _ _
  | symbol s =>
    cases s with
    | openParen => exact parenthesised_follows h
    | openSquare => exact h .list
    | _ => exact .fail _ _
  | keyword k =>
    cases k with
    | if_ => exact h .choice
    | for_ => exact h .count
    | while_ => exact h .loop
    | fn => exact h .function
    | _ => exact .fail _ _

theorem listForm_follows : Follows lax φ (Node.relocate φ) (listForm read) (listForm read') := by
  refine .bind .current fun start => .bind (.expectSymbol _ _) fun _ => .bind .lexeme fun _ => .ite ?_ ?_
  · refine .bind .take fun _ => .bind (.pure (g := List.map (Node.relocate φ)) rfl) fun items => ?_
    refine .bind .current fun stop => .pure ?_
    simp [Node.relocate, Token.relocate, Span.relocate]
  · refine .bind (.commaSeparated (h .expression)) fun items => .bind (.expectSymbol _ _) fun _ => ?_
    refine .bind (.pure (g := List.map (Node.relocate φ)) rfl) fun items => .bind .current fun stop => .pure ?_
    simp [Node.relocate, Token.relocate, Span.relocate]

theorem choiceFrom_follows (k : Keyword) :
    Follows lax φ (Production.elifChoice.relocate φ) (choiceFrom read k) (choiceFrom read' k) := by
  refine .bind (.expectKeyword k) fun _ => .bind (h .expression) fun test => .bind (.expectKeyword _) fun _ => ?_
  refine .bind .lexeme fun _ => .ite ?_ ?_
  · refine .bind .take fun _ => .bind (h .statements) fun block => .bind .lexeme fun _ => .ite ?_ ?_
    · refine .bind .take fun _ => .pure ?_
      simp [Block.node, relocate, Case.relocate, Body.relocate, Node.relocate]
    · refine .bind (h .choiceTail) fun tail => .pure ?_
      simp [Block.node, relocate, Case.relocate, Body.relocate, Node.relocate]
  · exact .bind (h .expression) fun _ => .bind (h .choiceTail) fun tail => .pure rfl

theorem otherwiseForm_follows :
    Follows lax φ (Option.map (Body.relocate φ)) (otherwiseForm read) (otherwiseForm read') :=
  .bind .lexeme fun _ => .ite (.bind .take fun _ => .bind (bodyForm_follows h) fun _ => .pure rfl) (.pure rfl)

theorem choiceTailForm_follows :
    Follows lax φ (Production.choiceTail.relocate φ) (choiceTailForm read) (choiceTailForm read') :=
  .bind .lexeme fun _ => .ite (.bind (h .elifChoice) fun _ => .pure rfl) (.bind (h .otherwise) fun _ => .pure rfl)

theorem countForm_follows : Follows lax φ (Node.relocate φ) (countForm read) (countForm read') := by
  refine .bind (.expectKeyword _) fun _ => .bind (.expectName _) fun name => .bind (.expectSymbol _ _) fun _ => ?_
  refine .bind (h .expression) fun first => .bind (.expectKeyword _) fun _ => .bind (h .expression) fun last => ?_
  refine .bind .lexeme fun _ => .ite ?_ ?_
  · refine .bind .take fun _ => .bind (h .expression) fun n => ?_
    refine .bind (.pure (g := Option.map (Node.relocate φ)) rfl) fun step => .bind (.expectKeyword _) fun _ => ?_
    refine .bind (bodyForm_follows h) fun body => .pure ?_
    simp [Node.relocate, relocate]
  · refine .bind (.pure (g := Option.map (Node.relocate φ)) rfl) fun step => .bind (.expectKeyword _) fun _ => ?_
    refine .bind (bodyForm_follows h) fun body => .pure ?_
    simp [Node.relocate, relocate]

theorem loopForm_follows : Follows lax φ (Node.relocate φ) (loopForm read) (loopForm read') := by
  refine .bind (.expectKeyword _) fun _ => .bind (h .expression) fun test => .bind .take fun _ => ?_
  exact .bind .lexeme fun _ => .ite (.bind (h .expression) fun _ => .pure rfl) (.fail _ _)

omit h in
theorem parametersForm_follows : Follows lax φ (List.map (Name.relocate φ)) parametersForm parametersForm := by
  refine .bind .lexeme fun l => ?_
  cases l with
  | name _ =>
    exact .bind (.commaSeparated (.expectName _)) fun _ => .bind (.expectSymbol _ _) fun _ => .pure rfl
  | _ => exact .bind (.expectSymbol _ _) fun _ => .pure rfl

theorem functionForm_follows : Follows lax φ (Node.relocate φ) (functionForm read) (functionForm read') := by
  -- What follows the name is the same whether there is one or not.
  have hrest : ∀ name : Option Name, Follows lax φ (Node.relocate φ)
      (do
        let parameters ← parametersForm
        if (← lexeme).isSymbol .arrow then
          take
          return .function name parameters (.inline (← read .expression))
        else if (← lexeme).isNewline then return .function name parameters (← closedBlock read)
        else fail .arrowOrNewline)
      (do
        let parameters ← parametersForm
        if (← lexeme).isSymbol .arrow then
          take
          return .function (name.map (Name.relocate φ)) parameters (.inline (← read' .expression))
        else if (← lexeme).isNewline then
          return .function (name.map (Name.relocate φ)) parameters (← closedBlock read')
        else fail .arrowOrNewline) := by
    intro name
    refine .bind parametersForm_follows fun parameters => .bind .lexeme fun _ => .ite ?_ ?_
    · exact .bind .take fun _ => .bind (h .expression) fun _ => .pure rfl
    · exact .bind .lexeme fun _ => .ite (.bind (closedBlock_follows h) fun _ => .pure rfl) (.fail _ _)
  refine .bind (.expectKeyword _) fun _ => .bind .lexeme fun l => ?_
  cases l with
  | name _ =>
    refine .bind (.expectName _) fun name => .bind (.expectSymbol _ _) fun _ => ?_
    exact .bind (.pure (g := Option.map (Name.relocate φ)) rfl) hrest
  | _ => exact .bind (.expectSymbol _ _) fun _ => .bind (.pure (g := Option.map (Name.relocate φ)) rfl) hrest

theorem body_follows : ∀ p : Production, Follows lax φ (p.relocate φ) (body read p) (body read' p)
  | .statements => statementsForm_follows h
  | .expression => expressionForm_follows h
  | .comparison => comparisonForm_follows h
  | .sum => .chain _ (h .product) (h .product)
  | .product => .chain _ (h .factor) (h .factor)
  | .factor => factorForm_follows h
  | .power => .chain _ (h .call) (h .factor)
  | .call => callForm_follows h
  | .atom => atomForm_follows h
  | .list => listForm_follows h
  | .choice => by
    refine .bind (choiceFrom_follows h .if_) fun c => .pure ?_
    simp [Choice.node, relocate, Node.relocate]
  | .elifChoice => choiceFrom_follows h .elif
  | .otherwise => otherwiseForm_follows h
  | .choiceTail => choiceTailForm_follows h
  | .count => countForm_follows h
  | .loop => loopForm_follows h
  | .function => functionForm_follows h

end Forms

theorem relocate_id : ∀ p : Production, p.relocate id = id
  | .statements => by
    funext b
    rw [relocate, Node.relocate_id_eq, List.map_id]
    rfl
  | .elifChoice => by
    funext c
    rw [relocate, Case.relocate_id_eq, Body.relocate_id_eq, List.map_id, Option.map_id]
    rfl
  | .otherwise => by
    funext b
    rw [relocate, Body.relocate_id_eq, Option.map_id]
  | .choiceTail => by
    funext t
    rw [relocate, Case.relocate_id_eq, Body.relocate_id_eq, List.map_id, Option.map_id]
    rfl
  | .expression | .comparison | .sum | .product | .factor | .power | .call | .atom
  | .list | .choice | .count | .loop | .function => Node.relocate_id_eq

end Production

open Reading

/-- **The readings of the grammar follow one another**, those of a smaller depth those of a larger one as far as they go. -/
theorem readAt_follows {lax : Prop} (φ : Position → Position) : ∀ {d d' : Nat}, d ≤ d' → (lax ∨ d = d') →
    ∀ p : Production, Follows lax φ (p.relocate φ) (readAt d p) (readAt d' p)
  | 0, 0, _, _, _ => .tooDeep _
  | 0, d' + 1, _, hlax, _ => .of_tooDeep (hlax.resolve_right (by omega)) _ _
  | d + 1, d' + 1, hd, hlax, p =>
    Production.body_follows (readAt_follows φ (by omega) (hlax.imp_right (by omega))) p

theorem readAt_follows_self (d : Nat) (p : Production) : Follows False id id (readAt d p) (readAt d p) := by
  rw [← Production.relocate_id p]
  exact readAt_follows id (Nat.le_refl d) (.inr rfl) p

theorem program_follows (φ : Position → Position) (d : Nat) :
    Follows False φ (Node.relocate φ) (program d) (program d) := by
  have hstatements : Follows False φ _ (readAt d .statements) (readAt d .statements) :=
    readAt_follows φ (Nat.le_refl d) (.inr rfl) .statements
  have hclosed : Follows False φ (Production.relocate φ .statements) (closed (readAt d .statements))
      (closed (readAt d .statements)) :=
    .bind hstatements fun block => .bind .lexeme fun l => .ite (.pure rfl) (.fail _ _)
  refine .bind hclosed fun block => .pure ?_
  simp [Block.node, Production.relocate, Node.relocate]

/-! ## What follows for one reading -/

namespace Reading.Follows

variable {α β : Type} {φ : Position → Position} {g : α → β} {r : Reading α} {r' : Reading β}

theorem reply (h : Follows False φ g r r') (before before' : List Token) {rest : List Token} (hrest : rest ≠ [])
    (i : Nat) : Reply.Follows φ g before before' rest i (r (.on (before ++ rest) (before.length + i)))
      (r' (.on (before' ++ rest.map (Token.relocate φ)) (before'.length + i))) :=
  (h before before' rest i hrest).resolve_left fun hlax => hlax.1

/-- **The count of a reading is exact**: the cursor has moved by as many tokens as it says, whether it failed or not. -/
theorem cursor_eq (h : Follows False φ g r r') {tokens : List Token} (ht : tokens ≠ []) (i : Nat) :
    (r (.on tokens i)).cursor = .on tokens (i + (r (.on tokens i)).taken) := by
  have := (h.reply [] [] ht i).cursor
  simpa using this

/-- A refusal is at the token where the reading has stopped. -/
theorem span_eq (h : Follows False φ g r r') {tokens : List Token} (ht : tokens ≠ []) {i : Nat} {e : Expected} {span : Span}
    (he : (r (.on tokens i)).result = .error (.unexpected e span)) :
    span = (Cursor.shown tokens (i + (r (.on tokens i)).taken)).span := by
  have hp := (h.reply [] [] ht i).place e span
  simp only [List.nil_append, List.length_nil, Nat.zero_add] at hp
  rw [hp he, h.cursor_eq ht]
  rfl

/-- A reading depends on the tokens from its cursor on. -/
theorem shift {r : Reading α} (h : Follows False id id r r) (before : List Token) {rest : List Token} (hrest : rest ≠ [])
    (i : Nat) : (r (.on (before ++ rest) (before.length + i))).result = (r (.on rest i)).result ∧
      (r (.on (before ++ rest) (before.length + i))).taken = (r (.on rest i)).taken := by
  have h := h.reply [] before hrest i
  have hid : rest.map (Token.relocate id) = rest := List.map_id rest
  simp only [List.nil_append, List.length_nil, Nat.zero_add, hid] at h
  refine ⟨?_, h.taken⟩
  rw [h.result]
  cases (r (.on rest i)).result with
  | ok a => rfl
  | error e => cases e <;> rfl

/-- A reading that is not too deep is not changed by more depth. -/
theorem eq_of_not_tooDeep {r r' : Reading α} (h : Follows True id id r r') {tokens : List Token} (ht : tokens ≠ []) {i : Nat}
    (hr : (r (.on tokens i)).result ≠ .error .tooDeep) : r' (.on tokens i) = r (.on tokens i) := by
  have h := h [] [] tokens i ht
  have hid : tokens.map (Token.relocate id) = tokens := List.map_id tokens
  simp only [List.nil_append, List.length_nil, Nat.zero_add, hid] at h
  have h := h.resolve_left fun hl => hr hl.2
  have hres : (r' (.on tokens i)).result = (r (.on tokens i)).result := by
    rw [h.result]
    cases (r (.on tokens i)).result with
    | ok a => rfl
    | error e => cases e <;> rfl
  have hcur := h.cursor
  have hcur' := h.cursor'
  have htak := h.taken
  cases hx : r (.on tokens i)
  cases hy : r' (.on tokens i)
  simp_all

end Reading.Follows

end Scriptlet.Grammar
