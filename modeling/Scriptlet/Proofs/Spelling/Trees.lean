import Scriptlet.Eval.Operator
import Scriptlet.Proofs.Spelling.Lexemes
/-!
# Writing trees down

A tree is written with every expression inside it in parentheses and every block closed by `end`: `Node.lexemes` gives the
row of lexemes, and `Node.print` its text.  The statements of a block stand on lines of their own.  Of a choice only the
last branch is closed, since the keyword of the next branch ends the block before it.

`Node.isExpressible` tells the trees that can be written: numbers are whole and within the limit, names are words that are
no keywords, blocks are not empty, and there is no loop with a condition.
-/
namespace Scriptlet

/-! ## The row of lexemes -/

def wrapped (ls : List Lexeme) : List Lexeme := .symbol .openParen :: (ls ++ [.symbol .closeParen])

/-- Rows divided by commas. -/
def commaRow : List (List Lexeme) → List Lexeme
  | [] => []
  | u :: us => u ++ us.flatMap (.symbol .comma :: ·)

/-- Rows on lines of their own. -/
def lines (us : List (List Lexeme)) : List Lexeme := us.flatMap (· ++ [.newline])

def closing (isBlock : Bool) : List Lexeme := if isBlock then [.keyword .end_] else []

def arrow (isBlock : Bool) : List Lexeme := if isBlock then [] else [.symbol .arrow]

/-- The last branch of a choice is a block, after a branch that is or is not one. -/
def endsInBlock (otherwise : Option Body) : Bool → List Case → Bool
  | afterBlock, [] => (otherwise.map Body.isBlock).getD afterBlock
  | _, c :: rest => endsInBlock otherwise c.body.isBlock rest

mutual

/-- The lexemes of a tree. -/
def Node.lexemes : Node → List Lexeme
  | .number n _ => [.numeral n]
  | .string s _ => [.string s]
  | .list items _ => .symbol .openSquare :: (commaRow (Node.wrappedAll items) ++ [.symbol .closeSquare])
  | .access name => [.name name.text]
  | .assign name value => .keyword .var :: .name name.text :: .symbol .equals :: wrapped value.lexemes
  | .binary left op right => wrapped left.lexemes ++ op :: wrapped right.lexemes
  | .unary op operand => op.lexeme :: wrapped operand.lexemes
  | .choice first more otherwise =>
    .keyword .if_ :: (first.lexemes ++ (Case.moreLexemes more ++ (Body.elseLexemes otherwise ++
      closing (endsInBlock otherwise first.body.isBlock more))))
  | .count name first last step body =>
    .keyword .for_ :: .name name.text :: .symbol .equals :: (wrapped first.lexemes ++ .keyword .to_ ::
      (wrapped last.lexemes ++ (Node.stepLexemes step ++ .keyword .do_ :: (body.lexemes ++ closing body.isBlock))))
  | .function name parameters body =>
    .keyword .fn :: ((name.map (Lexeme.name ·.text)).toList ++ .symbol .openParen ::
      (commaRow (parameters.map ([.name ·.text])) ++ .symbol .closeParen ::
        (arrow body.isBlock ++ (body.lexemes ++ closing body.isBlock))))
  | .call callee arguments =>
    wrapped callee.lexemes ++ .symbol .openParen :: (commaRow (Node.wrappedAll arguments) ++ [.symbol .closeParen])
  | .loop _ _ | .lone _ => []

def Node.wrappedAll : List Node → List (List Lexeme)
  | [] => []
  | n :: rest => wrapped n.lexemes :: Node.wrappedAll rest

def Node.stepLexemes : Option Node → List Lexeme
  | none => []
  | some n => .keyword .step :: wrapped n.lexemes

/-- A body without the `end` of a block. -/
def Body.lexemes : Body → List Lexeme
  | .inline n => wrapped n.lexemes
  | .block (.list items _) => .newline :: lines (Node.wrappedAll items)
  | .block n => .newline :: n.lexemes

def Body.elseLexemes : Option Body → List Lexeme
  | none => []
  | some body => .keyword .else_ :: body.lexemes

def Case.lexemes : Case → List Lexeme
  | .mk test body => wrapped test.lexemes ++ .keyword .then_ :: body.lexemes

def Case.moreLexemes : List Case → List Lexeme
  | [] => []
  | c :: rest => .keyword .elif :: (c.lexemes ++ Case.moreLexemes rest)

end

/-- **The text of a tree**, with every expression inside it in parentheses and every block closed. -/
def Node.print (n : Node) : String := spell n.lexemes

/-! ## The trees that can be written -/

mutual

def Node.isExpressible : Node → Bool
  | .number n _ => (Lexeme.numeral n).isWritable
  | .string _ _ => true
  | .list items _ => Node.allExpressible items
  | .access name => isName name.text
  | .assign name value => isName name.text && value.isExpressible
  | .binary left op right => left.isExpressible && (BinaryOp.ofLexeme? op).isSome && right.isExpressible
  | .unary op operand => (op.lexeme.isSymbol .minus || op.lexeme.isKeyword .not) && operand.isExpressible
  | .choice first more otherwise =>
    first.isExpressible && Case.allExpressible more && Body.optionExpressible otherwise
  | .count name first last step body =>
    isName name.text && first.isExpressible && last.isExpressible && Node.optionExpressible step && body.isExpressible
  | .function name parameters body =>
    name.all (isName ·.text) && parameters.all (isName ·.text) && body.isExpressible
  | .call callee arguments => callee.isExpressible && Node.allExpressible arguments
  | .loop _ _ | .lone _ => false

def Node.allExpressible : List Node → Bool
  | [] => true
  | n :: rest => n.isExpressible && Node.allExpressible rest

def Node.optionExpressible : Option Node → Bool
  | none => true
  | some n => n.isExpressible

def Body.isExpressible : Body → Bool
  | .inline n => n.isExpressible
  | .block (.list items _) => !items.isEmpty && Node.allExpressible items
  | .block _ => false

def Body.optionExpressible : Option Body → Bool
  | none => true
  | some body => body.isExpressible

def Case.isExpressible : Case → Bool
  | .mk test body => test.isExpressible && body.isExpressible

def Case.allExpressible : List Case → Bool
  | [] => true
  | c :: rest => c.isExpressible && Case.allExpressible rest

end

/-! ## Their lexemes can be written -/

section Writable

theorem all_wrapped (ls : List Lexeme) : (wrapped ls).all Lexeme.isWritable = ls.all Lexeme.isWritable := by
  simp [wrapped, Lexeme.isWritable]

theorem all_commaRow (us : List (List Lexeme)) :
    (commaRow us).all Lexeme.isWritable = us.all (·.all Lexeme.isWritable) := by
  cases us with
  | nil => rfl
  | cons u us =>
    rw [commaRow, List.all_append, List.all_cons, List.all_flatMap]
    rfl

theorem all_lines (us : List (List Lexeme)) : (lines us).all Lexeme.isWritable = us.all (·.all Lexeme.isWritable) := by
  rw [lines, List.all_flatMap]
  congr 1
  funext u
  rw [List.all_append]
  exact Bool.and_true _

theorem all_closing (b : Bool) : (closing b).all Lexeme.isWritable = true := by
  cases b <;> rfl

theorem all_arrow (b : Bool) : (arrow b).all Lexeme.isWritable = true := by
  cases b <;> rfl

theorem isWritable_of_isSome {op : Lexeme} (h : (BinaryOp.ofLexeme? op).isSome = true) : op.isWritable = true := by
  cases op with
  | symbol _ | keyword _ => rfl
  | _ => cases h

theorem isWritable_of_unary {op : Lexeme} (h : (op.isSymbol .minus || op.isKeyword .not) = true) :
    op.isWritable = true := by
  cases op with
  | symbol _ | keyword _ => rfl
  | _ => cases h

mutual

theorem Node.all_lexemes : ∀ n : Node, n.isExpressible = true → n.lexemes.all Lexeme.isWritable = true
  | .number n _, h => by
    rw [Node.isExpressible] at h
    rw [Node.lexemes, List.all_cons, h]
    rfl
  | .string _ _, _ => rfl
  | .list items _, h => by
    rw [Node.isExpressible] at h
    simp only [Node.lexemes, List.all_cons, List.all_append, all_commaRow, Node.all_wrappedAll items h]
    rfl
  | .access name, h => by
    rw [Node.isExpressible] at h
    simp only [Node.lexemes, List.all_cons, Lexeme.isWritable, h]
    rfl
  | .assign name value, h => by
    rw [Node.isExpressible, Bool.and_eq_true] at h
    simp only [Node.lexemes, List.all_cons, all_wrapped, Lexeme.isWritable, h.1, Node.all_lexemes value h.2]
    rfl
  | .binary left op right, h => by
    rw [Node.isExpressible, Bool.and_eq_true, Bool.and_eq_true] at h
    simp only [Node.lexemes, List.all_append, List.all_cons, all_wrapped, Node.all_lexemes left h.1.1,
      isWritable_of_isSome h.1.2, Node.all_lexemes right h.2]
    rfl
  | .unary op operand, h => by
    rw [Node.isExpressible, Bool.and_eq_true] at h
    simp only [Node.lexemes, List.all_cons, all_wrapped, isWritable_of_unary h.1, Node.all_lexemes operand h.2]
    rfl
  | .choice first more otherwise, h => by
    rw [Node.isExpressible, Bool.and_eq_true, Bool.and_eq_true] at h
    simp only [Node.lexemes, List.all_cons, List.all_append, Case.all_lexemes first h.1.1,
      Case.all_moreLexemes more h.1.2, Body.all_elseLexemes otherwise h.2, all_closing]
    rfl
  | .count name first last step body, h => by
    simp only [Node.isExpressible, Bool.and_eq_true] at h
    obtain ⟨⟨⟨⟨hname, hfirst⟩, hlast⟩, hstep⟩, hbody⟩ := h
    simp only [Node.lexemes, List.all_cons, List.all_append, all_wrapped, Lexeme.isWritable, hname,
      Node.all_lexemes first hfirst, Node.all_lexemes last hlast, Node.all_stepLexemes step hstep,
      Body.all_lexemes body hbody, all_closing]
    rfl
  | .function name parameters body, h => by
    simp only [Node.isExpressible, Bool.and_eq_true] at h
    obtain ⟨⟨hname, hparameters⟩, hbody⟩ := h
    have hrow : (parameters.map ([Lexeme.name ·.text])).all (·.all Lexeme.isWritable) = true := by
      rw [List.all_map]
      simpa [Lexeme.isWritable, List.all_eq_true] using hparameters
    simp only [Node.lexemes, List.all_cons, List.all_append, all_commaRow, hrow, all_arrow, all_closing,
      Body.all_lexemes body hbody]
    cases name with
    | none => rfl
    | some x =>
      simp only [Option.all_some] at hname
      simp only [Option.map_some, Option.toList_some, List.all_cons, Lexeme.isWritable, hname]
      rfl
  | .call callee arguments, h => by
    rw [Node.isExpressible, Bool.and_eq_true] at h
    simp only [Node.lexemes, List.all_append, List.all_cons, all_wrapped, all_commaRow, Node.all_lexemes callee h.1,
      Node.all_wrappedAll arguments h.2]
    rfl
  | .loop _ _, h => by cases h
  | .lone _, h => by cases h

theorem Node.all_wrappedAll : ∀ ns : List Node, Node.allExpressible ns = true →
    (Node.wrappedAll ns).all (·.all Lexeme.isWritable) = true
  | [], _ => rfl
  | n :: rest, h => by
    rw [Node.allExpressible, Bool.and_eq_true] at h
    rw [Node.wrappedAll, List.all_cons, all_wrapped, Node.all_lexemes n h.1, Node.all_wrappedAll rest h.2]
    rfl

theorem Node.all_stepLexemes : ∀ n : Option Node, Node.optionExpressible n = true →
    (Node.stepLexemes n).all Lexeme.isWritable = true
  | none, _ => rfl
  | some n, h => by
    rw [Node.optionExpressible] at h
    rw [Node.stepLexemes, List.all_cons, all_wrapped, Node.all_lexemes n h]
    rfl

theorem Body.all_lexemes : ∀ b : Body, b.isExpressible = true → b.lexemes.all Lexeme.isWritable = true
  | .inline n, h => by
    rw [Body.isExpressible] at h
    rw [Body.lexemes, all_wrapped, Node.all_lexemes n h]
  | .block (.list items _), h => by
    rw [Body.isExpressible, Bool.and_eq_true] at h
    rw [Body.lexemes, List.all_cons, all_lines, Node.all_wrappedAll items h.2]
    rfl
  | .block (.number _ _), h | .block (.string _ _), h | .block (.access _), h | .block (.assign _ _), h
  | .block (.binary _ _ _), h | .block (.unary _ _), h | .block (.choice _ _ _), h | .block (.count _ _ _ _ _), h
  | .block (.loop _ _), h | .block (.function _ _ _), h | .block (.call _ _), h | .block (.lone _), h => by cases h

theorem Body.all_elseLexemes : ∀ b : Option Body, Body.optionExpressible b = true →
    (Body.elseLexemes b).all Lexeme.isWritable = true
  | none, _ => rfl
  | some b, h => by
    rw [Body.optionExpressible] at h
    rw [Body.elseLexemes, List.all_cons, Body.all_lexemes b h]
    rfl

theorem Case.all_lexemes : ∀ c : Case, c.isExpressible = true → c.lexemes.all Lexeme.isWritable = true
  | .mk test body, h => by
    rw [Case.isExpressible, Bool.and_eq_true] at h
    rw [Case.lexemes, List.all_append, List.all_cons, all_wrapped, Node.all_lexemes test h.1, Body.all_lexemes body h.2]
    rfl

theorem Case.all_moreLexemes : ∀ cs : List Case, Case.allExpressible cs = true →
    (Case.moreLexemes cs).all Lexeme.isWritable = true
  | [], _ => rfl
  | c :: rest, h => by
    rw [Case.allExpressible, Bool.and_eq_true] at h
    rw [Case.moreLexemes, List.all_cons, List.all_append, Case.all_lexemes c h.1, Case.all_moreLexemes rest h.2]
    rfl

end

end Writable

/-- **The text of a tree is scanned to its lexemes.** -/
theorem scans_print {n : Node} (h : n.isExpressible = true) : Scan.Scans n.print.toList n.lexemes :=
  scans_spell (List.all_eq_true.1 (n.all_lexemes h))

end Scriptlet
