import Scriptlet.Token.Basic
/-!
# Syntax trees

A body is either one expression, whose value counts, or a block of statements closed by `end`, whose value does not: it
gives null.  Loops, functions and the branches of a choice have bodies of either form.

Nodes keep the spans of the tokens they were made of, and the span of a compound node is derived from its parts.  It does
not always cover all of them: an assignment spans its name alone, and a loop over a condition ends where its body begins.
A list's span is stored, since it ends with the token after the list.
-/
namespace Scriptlet

/-- A name at its place. -/
structure Name where
  text : String
  span : Span

mutual

inductive Node where
  | number (n : Numeral) (span : Span)
  | string (s : String) (span : Span)
  | list (items : List Node) (span : Span)
  | access (name : Name)
  | assign (name : Name) (value : Node)
  | binary (left : Node) (op : Lexeme) (right : Node)
  | unary (op : Token) (operand : Node)
  | choice (first : Case) (more : List Case) (otherwise : Option Body)
  | count (name : Name) (first last : Node) (step : Option Node) (body : Body)
  | loop (test : Node) (body : Body)
  | function (name : Option Name) (parameters : List Name) (body : Body)
  | call (callee : Node) (arguments : List Node)
  /-- A token in place of a node, which means nothing. -/
  | lone (token : Token)

inductive Body where
  | inline (node : Node)
  | block (node : Node)

inductive Case where
  | mk (test : Node) (body : Body)

end

instance : Inhabited Node := ⟨.lone default⟩

namespace Body

def node : Body → Node
  | inline n => n
  | block n => n

def isBlock : Body → Bool
  | inline _ => false
  | block _ => true

end Body

namespace Case

def test : Case → Node
  | mk t _ => t

def body : Case → Body
  | mk _ b => b

end Case

namespace Node

/-! ## Spans -/

mutual

/-- The first position of a node. -/
def start : Node → Position
  | number _ span | string _ span | list _ span => span.start
  | access name | assign name _ | count name _ _ _ _ => name.span.start
  | binary left _ _ => left.start
  | unary op _ => op.span.start
  | choice first _ _ => caseStart first
  | loop test _ => test.start
  | function (some name) _ _ => name.span.start
  | function none (parameter :: _) _ => parameter.span.start
  | function none [] body => bodyStart body
  | call callee _ => callee.start
  | lone token => token.span.start

def bodyStart : Body → Position
  | .inline n => n.start
  | .block n => n.start

def caseStart : Case → Position
  | .mk test _ => test.start

end

mutual

/-- The position after a node. -/
def stop : Node → Position
  | number _ span | string _ span | list _ span => span.stop
  | access name | assign name _ => name.span.stop
  | binary _ _ right => right.stop
  | unary _ operand => operand.stop
  | choice _ _ (some body) => bodyStop body
  | choice first more none =>
    match lastCaseStop? more with
    | some p => p
    | none => caseStop first
  | count _ _ _ _ body => bodyStop body
  | loop _ body => bodyStart body
  | function _ _ body => bodyStop body
  | call callee arguments =>
    match lastStop? arguments with
    | some p => p
    | none => callee.stop
  | lone token => token.span.stop

/-- The position after the last of some nodes. -/
def lastStop? : List Node → Option Position
  | [] => none
  | n :: rest =>
    match lastStop? rest with
    | some p => some p
    | none => some n.stop

def bodyStop : Body → Position
  | .inline n => n.stop
  | .block n => n.stop

/-- The position after a case's test. -/
def caseStop : Case → Position
  | .mk test _ => test.stop

def lastCaseStop? : List Case → Option Position
  | [] => none
  | case :: rest =>
    match lastCaseStop? rest with
    | some p => some p
    | none => some (caseStop case)

end

def span (n : Node) : Span := ⟨n.start, n.stop⟩

/-! ## Text

Trees made of operators and literals have a text that shows their structure; it is the form in which precedence can be
read off. -/

def text? : Node → Option String
  | number n _ => some (Lexeme.numeral n).text
  | string s _ => some (Lexeme.string s).text
  | binary left op right => do
    let l ← left.text?
    let r ← right.text?
    return "(" ++ l ++ ", " ++ op.text ++ ", " ++ r ++ ")"
  | unary op operand => do
    let t ← operand.text?
    return "(" ++ op.text ++ ", " ++ t ++ ")"
  | _ => none

end Node

end Scriptlet
