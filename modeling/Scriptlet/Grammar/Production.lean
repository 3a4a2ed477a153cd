import Scriptlet.Grammar.Reply
import Scriptlet.Node.Basic
/-!
# The productions of the grammar

Each production reads one syntactic form from the current token on.  `Production.body` gives every production in terms of
a reading for each production, which it is handed; nothing in it is recursive.  `readAt` hands it itself, to a given depth
of nesting.

From loose to tight the operators are: `and` and `or`; the comparisons under `not`; sums; products; the minus sign; powers,
which group to the right because the right operand of a power may again carry a minus sign or a power.  Products accept the
power sign too, but a power leaves none behind for them.
-/
namespace Scriptlet.Grammar

inductive Production where
  | statements
  | expression
  | comparison
  | sum
  | product
  | factor
  | power
  | call
  | atom
  | list
  | choice
  | elifChoice
  | otherwise
  | choiceTail
  | count
  | loop
  | function
  deriving DecidableEq, Repr

/-- Statements in a row, the span from the first to the token after the last, and how many tokens of a last statement that
could not be read were handed back. -/
structure Block where
  items : List Node
  span : Span
  handedBack : Nat

def Block.node (b : Block) : Node := .list b.items b.span

/-- What may follow the first case of a choice. -/
structure ChoiceTail where
  cases : List Case
  otherwise : Option Body

/-- A choice from its first case on. -/
structure Choice where
  first : Case
  tail : ChoiceTail

def Choice.node (c : Choice) : Node := .choice c.first c.tail.cases c.tail.otherwise

namespace Production

/-- What a production yields. -/
@[reducible] def Result : Production → Type
  | statements => Block
  | elifChoice => Choice
  | otherwise => Option Body
  | choiceTail => ChoiceTail
  | _ => Node

open Reading

/-! ## Which lexemes join operands -/

def joinsConditions (l : Lexeme) : Bool := l.isKeyword .and || l.isKeyword .or

def isComparison : Symbol → Bool
  | .sameAs | .differs | .less | .greater | .atMost | .atLeast => true
  | _ => false

def joinsComparands : Lexeme → Bool
  | .symbol s => isComparison s
  | _ => false

def joinsTerms (l : Lexeme) : Bool := l.isSymbol .plus || l.isSymbol .minus

def isProductSign : Symbol → Bool
  | .power | .percent | .times | .doubleSlash | .slash => true
  | _ => false

def joinsFactors : Lexeme → Bool
  | .symbol s => isProductSign s
  | _ => false

/-! ## The forms -/

/-- Statements in progress: what has been read, last first, what was handed back, and whether another may follow. -/
structure Progress where
  items : List Node
  handedBack : Nat
  goesOn : Bool

variable (read : (p : Production) → Reading p.Result)

/-- One more statement after at least one newline.  A statement that cannot be read is handed back and ends the row. -/
def nextStatement (s : Progress) : Reading (Option Progress) := do
  let n ← newlines
  if n = 0 ∨ s.goesOn = false then return none
  else
    match ← attempt (read .expression) with
    | .read node => return some { s with items := node :: s.items }
    | .handedBack k => return some { s with handedBack := k, goesOn := false }

def statementsForm : Reading Block := do
  let start := (← current).span.start
  let _ ← newlines
  let first ← read .expression
  let row ← repeating (nextStatement read) ⟨[first], 0, true⟩
  return ⟨row.items.reverse, ⟨start, (← current).span.stop⟩, row.handedBack⟩

/-- A newline, statements and `end`. -/
def closedBlock : Reading Body := do
  take
  let block ← read .statements
  expectKeyword .end_
  return .block block.node

/-- A body: a block if a newline stands here, else an expression. -/
def bodyForm : Reading Body := do
  if (← lexeme).isNewline then closedBlock read
  else return .inline (← read .expression)

def expressionForm : Reading Node := do
  if (← lexeme).isKeyword .var then
    take
    let name ← expectName .boundName
    expectSymbol .equals .equals
    return .assign name (← read .expression)
  else
    relabel .expression (chain (read .comparison) (read .comparison) joinsConditions)

def comparisonForm : Reading Node := do
  let token ← current
  if token.lexeme.isKeyword .not then
    take
    return .unary token (← read .comparison)
  else
    relabel .comparison (chain (read .sum) (read .sum) joinsComparands)

def factorForm : Reading Node := do
  let token ← current
  if token.lexeme.isSymbol .minus then
    take
    return .unary token (← read .factor)
  else read .power

/-- The arguments of a call whose parenthesis has been taken. -/
def argumentsForm : Reading (List Node) := do
  if (← lexeme).isSymbol .closeParen then
    take
    return []
  else
    let arguments ← commaSeparated (read .expression)
    expectSymbol .closeParen .commaOrCloseParen
    return arguments

def callForm : Reading Node := do
  let callee ← read .atom
  if (← lexeme).isSymbol .openParen then
    take
    return .call callee (← argumentsForm read)
  else return callee

def parenthesised : Reading Node := do
  take
  let node ← read .expression
  expectSymbol .closeParen .closeParen
  return node

def atomForm : Reading Node := do
  let token ← current
  match token.lexeme with
  | .numeral n =>
    take
    return .number n token.span
  | .string s =>
    take
    return .string s token.span
  | .name s =>
    take
    return .access ⟨s, token.span⟩
  | .symbol .openParen => parenthesised read
  | .symbol .openSquare => read .list
  | .keyword .if_ => read .choice
  | .keyword .for_ => read .count
  | .keyword .while_ => read .loop
  | .keyword .fn => read .function
  | _ => fail .operand

def listForm : Reading Node := do
  let start := (← current).span.start
  expectSymbol .openSquare .openSquare
  let items ←
    if (← lexeme).isSymbol .closeSquare then
      take
      pure []
    else
      let items ← commaSeparated (read .expression)
      expectSymbol .closeSquare .commaOrCloseSquare
      pure items
  return .list items ⟨start, (← current).span.stop⟩

/-- A choice that begins with the given keyword.  A block as first body may be closed by `end` or be followed by more cases;
an expression is followed by more cases or nothing. -/
def choiceFrom (k : Keyword) : Reading Choice := do
  expectKeyword k
  let test ← read .expression
  expectKeyword .then_
  if (← lexeme).isNewline then
    take
    let block ← read .statements
    let first := Case.mk test (.block block.node)
    if (← lexeme).isKeyword .end_ then
      take
      return ⟨first, ⟨[], none⟩⟩
    else return ⟨first, ← read .choiceTail⟩
  else
    let first := Case.mk test (.inline (← read .expression))
    return ⟨first, ← read .choiceTail⟩

def otherwiseForm : Reading (Option Body) := do
  if (← lexeme).isKeyword .else_ then
    take
    return some (← bodyForm read)
  else return none

def choiceTailForm : Reading ChoiceTail := do
  if (← lexeme).isKeyword .elif then
    let c ← read .elifChoice
    return ⟨c.first :: c.tail.cases, c.tail.otherwise⟩
  else return ⟨[], ← read .otherwise⟩

def countForm : Reading Node := do
  expectKeyword .for_
  let name ← expectName .boundName
  expectSymbol .equals .equals
  let first ← read .expression
  expectKeyword .to_
  let last ← read .expression
  let step ←
    if (← lexeme).isKeyword .step then
      take
      pure (some (← read .expression))
    else pure none
  expectKeyword .do_
  return .count name first last step (← bodyForm read)

/-- The token after the test is passed over before `do` is looked for, and the body is read from `do` itself, so no text
has this form. -/
def loopForm : Reading Node := do
  expectKeyword .while_
  let test ← read .expression
  take
  if (← lexeme).isKeyword .do_ then return .loop test (.inline (← read .expression))
  else fail (.keyword .do_)

/-- The parameters of a function, up to and with the closing parenthesis. -/
def parametersForm : Reading (List Name) := do
  match (← lexeme) with
  | .name _ =>
    let parameters ← commaSeparated (expectName .parameter)
    expectSymbol .closeParen .commaOrCloseParameters
    return parameters
  | _ =>
    expectSymbol .closeParen .parameterOrClose
    return []

def functionForm : Reading Node := do
  expectKeyword .fn
  let name ←
    match (← lexeme) with
    | .name _ =>
      let name ← expectName .boundName
      expectSymbol .openParen .openParen
      pure (some name)
    | _ =>
      expectSymbol .openParen .nameOrOpenParen
      pure none
  let parameters ← parametersForm
  if (← lexeme).isSymbol .arrow then
    take
    return .function name parameters (.inline (← read .expression))
  else if (← lexeme).isNewline then return .function name parameters (← closedBlock read)
  else fail .arrowOrNewline

/-- Every production, in terms of a reading for each. -/
def body : (p : Production) → Reading p.Result
  | .statements => statementsForm read
  | .expression => expressionForm read
  | .comparison => comparisonForm read
  | .sum => chain (read .product) (read .product) joinsTerms
  | .product => chain (read .factor) (read .factor) joinsFactors
  | .factor => factorForm read
  | .power => chain (read .call) (read .factor) (·.isSymbol .power)
  | .call => callForm read
  | .atom => atomForm read
  | .list => listForm read
  | .choice => do return (← choiceFrom read .if_).node
  | .elifChoice => choiceFrom read .elif
  | .otherwise => otherwiseForm read
  | .choiceTail => choiceTailForm read
  | .count => countForm read
  | .loop => loopForm read
  | .function => functionForm read

end Production

open Production in
/-- Reads a production, nested to at most the given depth. -/
def readAt : (depth : Nat) → (p : Production) → Reading p.Result
  | 0, _ => Reading.tooDeep
  | depth + 1, p => body (readAt depth) p

/-- Refuses a reading after which the tokens go on. -/
def closed {α : Type} (r : Reading α) : Reading α := do
  let a ← r
  if (← Reading.lexeme).isEof then return a else Reading.fail .operator

/-- Reads a whole text: statements, and nothing after them. -/
def program (depth : Nat) : Reading Node := do
  return (← closed (readAt depth .statements)).node

end Scriptlet.Grammar
