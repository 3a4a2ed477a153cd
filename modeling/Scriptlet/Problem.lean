import Scriptlet.Excerpt
import Scriptlet.Token.Basic
/-!
# Problems of a source text

A text that cannot be read has one problem: the first place where the scanner or the grammar gives up, and what stood or
was expected there.  The causes are listed here together with their wording.
-/
namespace Scriptlet

/-- What the grammar expected where it gave up. -/
inductive Expected where
  | operator
  | expression
  | comparison
  | operand
  | keyword (k : Keyword)
  /-- The name that a `var` or a `for` binds. -/
  | boundName
  /-- The name of a further parameter. -/
  | parameter
  | parameterOrClose
  | commaOrCloseParameters
  | nameOrOpenParen
  | openParen
  | closeParen
  | commaOrCloseParen
  | openSquare
  | commaOrCloseSquare
  | equals
  | arrowOrNewline
  deriving DecidableEq, Repr

namespace Expected

def text : Expected → String
  | operator => "Expected '+', '-', '*', '/', '//', '^', '==', '!=', '<', '>', <=', '>=', 'and' or 'or'"
  | expression =>
    "Expected 'var', 'if', 'for', 'while', 'fn', 'not', int, float, identifier, '+', '-', '[' or '('"
  | comparison => "Expected int, float, identifier, '+', '-' or '(', '[', 'not'"
  | operand => "Expected int, float, identifier, '+', '-', '(', '[', 'if', 'for', 'while' or 'fn'"
  | keyword k => "Expected '" ++ k.text ++ "'"
  | boundName => "Expected Identifier"
  | parameter => "Expected identifier"
  | parameterOrClose => "Expected identifier or ')"
  | commaOrCloseParameters => "Expected ',' or ')"
  | nameOrOpenParen => "Expected identifier or '('"
  | openParen => "Expected '('"
  | closeParen => "Expected ')'"
  | commaOrCloseParen => "Expected ',' or ')'"
  | openSquare => "Expected '['"
  | commaOrCloseSquare => "Expected ',' or ']'"
  | equals => "Expected '='"
  | arrowOrNewline => "Expected '->' or NEWLINE"

end Expected

inductive Cause where
  /-- A character that begins no token. -/
  | illegal (c : Char)
  /-- A string that is not closed by its quote. -/
  | unclosed (quote : Char)
  /-- An exclamation mark that no equals sign follows. -/
  | loneBang
  | expected (e : Expected)
  deriving DecidableEq, Repr

namespace Cause

def title : Cause → String
  | illegal _ => "Illegal Character"
  | unclosed _ | loneBang => "Expected Character"
  | expected _ => "Invalid Syntax"

def info : Cause → String
  | illegal c => "'" ++ String.singleton c ++ "'"
  | unclosed quote => String.singleton quote
  | loneBang => "'=' (after '!')"
  | expected e => e.text

end Cause

structure Problem where
  cause : Cause
  span : Span
  deriving DecidableEq, Repr

namespace Problem

/-- The cause, the place, and the excerpt with the place underlined. -/
def message (p : Problem) : String :=
  let start := p.span.start
  p.cause.title ++ ": " ++ p.cause.info ++ "\nFile " ++ start.source.name ++ ": line " ++ toString (start.line + 1) ++
    ", col " ++ toString start.column ++ "\n\n" ++
    String.ofList (Excerpt.render start.source.text.toList start p.span.stop)

end Problem

end Scriptlet
