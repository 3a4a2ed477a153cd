import Scriptlet.Node.Basic
import Scriptlet.Problem
/-!
# Reading tokens

A grammar reads from a cursor: the tokens, an index, and the token that is current.  The index may leave the tokens on
either side; the current token then stays what it was, so past the end it is the mark of the end.

A reading replies with a result, with the number of tokens it took, and with the cursor where it stopped.  Of a failed
reading the count says how far it went before it gave up: a failure that took nothing may be worded anew by whoever asked
for it (`relabel`), and a reading that was only tried is undone by stepping back as many tokens as it took (`attempt`).
-/
namespace Scriptlet.Grammar

structure Cursor where
  tokens : Array Token
  index : Int
  current : Token

namespace Cursor

/-- On the first token. -/
def start (tokens : List Token) : Cursor := ⟨tokens.toArray, 0, tokens.headD default⟩

/-- At another index; the current token changes only if there is one at that index. -/
def moveTo (c : Cursor) (index : Int) : Cursor :=
  match index with
  | .ofNat i => { c with index, current := c.tokens[i]?.getD c.current }
  | .negSucc _ => { c with index }

def next (c : Cursor) : Cursor := c.moveTo (c.index + 1)

def back (c : Cursor) (n : Nat) : Cursor := c.moveTo (c.index - n)

/-- A bound on the number of tokens that can still be taken before the cursor rests on the last one. -/
def remaining (c : Cursor) : Nat := ((c.tokens.size : Int) - c.index + 1).toNat

end Cursor

/-- The grammar expected something else at a place, or the text is nested too deep to be read. -/
inductive Refusal where
  | unexpected (expected : Expected) (span : Span)
  | tooDeep

structure Reply (α : Type) where
  result : Except Refusal α
  taken : Nat
  cursor : Cursor

/-- A reading of tokens. -/
def Reading (α : Type) : Type := Cursor → Reply α

namespace Reading

protected def pure {α : Type} (a : α) : Reading α := fun c => ⟨.ok a, 0, c⟩

protected def bind {α β : Type} (r : Reading α) (f : α → Reading β) : Reading β := fun c =>
  let first := r c
  match first.result with
  | .ok a =>
    let second := f a first.cursor
    { second with taken := first.taken + second.taken }
  | .error e => ⟨.error e, first.taken, first.cursor⟩

instance : Monad Reading where
  pure := Reading.pure
  bind := Reading.bind

/-- The current token. -/
def current : Reading Token := fun c => ⟨.ok c.current, 0, c⟩

def lexeme : Reading Lexeme := fun c => ⟨.ok c.current.lexeme, 0, c⟩

/-- Takes the current token. -/
def take : Reading Unit := fun c => ⟨.ok (), 1, c.next⟩

/-- Gives up at the current token. -/
def fail {α : Type} (e : Expected) : Reading α := fun c => ⟨.error (.unexpected e c.current.span), 0, c⟩

def tooDeep {α : Type} : Reading α := fun c => ⟨.error .tooDeep, 0, c⟩

/-- Words a failure anew if nothing was taken before it. -/
def relabel {α : Type} (e : Expected) (r : Reading α) : Reading α := fun c =>
  let reply := r c
  match reply.result with
  | .error (.unexpected _ _) =>
    if reply.taken = 0 then { reply with result := .error (.unexpected e reply.cursor.current.span) } else reply
  | _ => reply

/-- What came of a reading that was only tried: if it failed, how many tokens were handed back. -/
inductive Tried (α : Type) where
  | read (a : α)
  | handedBack (n : Nat)

/-- Tries a reading, and steps back over what it took if it fails. -/
def attempt {α : Type} (r : Reading α) : Reading (Tried α) := fun c =>
  let reply := r c
  match reply.result with
  | .ok a => ⟨.ok (.read a), reply.taken, reply.cursor⟩
  | .error (.unexpected _ _) => ⟨.ok (.handedBack reply.taken), 0, reply.cursor.back reply.taken⟩
  | .error .tooDeep => ⟨.error .tooDeep, reply.taken, reply.cursor⟩

/-! ## Taking what must be there -/

def expectKeyword (k : Keyword) : Reading Unit := do
  if (← lexeme).isKeyword k then take else fail (.keyword k)

def expectSymbol (s : Symbol) (e : Expected) : Reading Unit := do
  if (← lexeme).isSymbol s then take else fail e

def expectName (e : Expected) : Reading Name := do
  let token ← current
  match token.lexeme with
  | .name text =>
    take
    return ⟨text, token.span⟩
  | _ => fail e

/-! ## Repetition

Every round of a repetition in the grammar takes a token, so the tokens that remain bound the number of rounds. -/

/-- Repeats `step` until it has nothing to add, at most `fuel` times. -/
def rounds {σ : Type} (step : σ → Reading (Option σ)) : (fuel : Nat) → σ → Reading σ
  | 0, s => pure s
  | fuel + 1, s => do
    match ← step s with
    | some t => rounds step fuel t
    | none => return s

def repeating {σ : Type} (step : σ → Reading (Option σ)) (s : σ) : Reading σ := fun c =>
  rounds step c.remaining s c

/-- Takes newlines and counts them. -/
def newlines : Reading Nat :=
  repeating (fun n => do
    if (← lexeme).isNewline then
      take
      return some (n + 1)
    else return none) 0

/-- The further items of a row divided by commas, after the items read so far, last first. -/
def moreItems {α : Type} (item : Reading α) (read : List α) : Reading (List α) :=
  repeating (fun items => do
    if (← lexeme).isSymbol .comma then
      take
      return some ((← item) :: items)
    else return none) read

/-- A row of one or more items divided by commas. -/
def commaSeparated {α : Type} (item : Reading α) : Reading (List α) := do
  let first ← item
  return (← moreItems item [first]).reverse

/-- A chain of operands that binary operators join, grouped to the left. -/
def chain (operand further : Reading Node) (joins : Lexeme → Bool) : Reading Node := do
  let first ← operand
  repeating (fun left => do
    let op ← lexeme
    if joins op then
      take
      return some (.binary left op (← further))
    else return none) first

end Reading

end Scriptlet.Grammar
