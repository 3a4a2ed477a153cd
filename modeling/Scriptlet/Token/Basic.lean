import Scriptlet.Position
import Scriptlet.Scalar.Basic
/-!
# Tokens

A token is a lexeme and the stretch of source it was read from.  Its text, used in displays of trees, is the name of its
kind, followed by its content if it has one; a content of zero or the empty text is left out.
-/
namespace Scriptlet

inductive Keyword where
  | var | and | or | not | if_ | then_ | elif | else_ | for_ | to_ | do_ | step | while_ | fn | end_
  deriving DecidableEq, Repr

namespace Keyword

def all : List Keyword :=
  [var, and, or, not, if_, then_, elif, else_, for_, to_, do_, step, while_, fn, end_]

def text : Keyword → String
  | var => "var"
  | and => "and"
  | or => "or"
  | not => "not"
  | if_ => "if"
  | then_ => "then"
  | elif => "elif"
  | else_ => "else"
  | for_ => "for"
  | to_ => "to"
  | do_ => "do"
  | step => "step"
  | while_ => "while"
  | fn => "fn"
  | end_ => "end"

/-- The keyword that a word is, if it is one. -/
def ofText? (s : String) : Option Keyword := all.find? (·.text == s)

end Keyword

/-- Operators and punctuation. -/
inductive Symbol where
  | equals | sameAs | differs | less | greater | atMost | atLeast
  | plus | minus | times | percent | slash | doubleSlash | power
  | openParen | closeParen | openSquare | closeSquare | comma | arrow
  deriving DecidableEq, Repr

namespace Symbol

def all : List Symbol :=
  [equals, sameAs, differs, less, greater, atMost, atLeast, plus, minus, times, percent, slash, doubleSlash, power,
   openParen, closeParen, openSquare, closeSquare, comma, arrow]

/-- The name of the symbol's kind. -/
def kind : Symbol → String
  | equals => "EQUALS"
  | sameAs => "VALUE_EQUALS"
  | differs => "NOT_EQUALS"
  | less => "LESS_THAN"
  | greater => "GREATER_THAN"
  | atMost => "LESS_THAN_EQUALS"
  | atLeast => "GREATER_THAN_EQUALS"
  | plus => "PLUS"
  | minus => "MINUS"
  | times => "MUL"
  | percent => "MOD"
  | slash => "DIV"
  | doubleSlash => "FLOORDIV"
  | power => "POW"
  | openParen => "LPAREN"
  | closeParen => "RPAREN"
  | openSquare => "LSQUARE"
  | closeSquare => "RSQUARE"
  | comma => "COMMA"
  | arrow => "ARROW"

end Symbol

/-- A number as it stands in a source text. -/
inductive Numeral where
  | whole (n : Nat)
  | decimal (x : Float)

namespace Numeral

def toScalar : Numeral → Scalar
  | whole n => .int n
  | decimal x => .float x

def kind : Numeral → String
  | whole _ => "INT"
  | decimal _ => "FLOAT"

/-- The digits of a whole numeral never exceed the limit, as the scanner has read them under it. -/
def text : Numeral → String
  | whole n => toString n
  | decimal x => Scalar.floatLayout.text x

end Numeral

/-- What a token says. -/
inductive Lexeme where
  | numeral (n : Numeral)
  | string (s : String)
  | name (s : String)
  | keyword (k : Keyword)
  | symbol (s : Symbol)
  | newline
  | eof

namespace Lexeme

/-- The name of the lexeme's kind. -/
def kind : Lexeme → String
  | numeral n => n.kind
  | string _ => "STRING"
  | name _ => "IDENTIFIER"
  | keyword _ => "KEYWORD"
  | symbol s => s.kind
  | newline => "NEWLINE"
  | eof => "EOF"

/-- The lexeme's content as text, for the kinds that have one. -/
def content? : Lexeme → Option String
  | numeral n => some n.text
  | string s => some s
  | name s => some s
  | keyword k => some k.text
  | symbol _ | newline | eof => none

/-- The content is zero or empty. -/
def isTrivial : Lexeme → Bool
  | numeral n => n.toScalar.isZero
  | string s => s.isEmpty
  | name s => s.isEmpty
  | _ => false

def isNewline : Lexeme → Bool
  | newline => true
  | _ => false

def isEof : Lexeme → Bool
  | eof => true
  | _ => false

def isSymbol (s : Symbol) : Lexeme → Bool
  | symbol t => s = t
  | _ => false

def isKeyword (k : Keyword) : Lexeme → Bool
  | keyword l => k = l
  | _ => false

def text (l : Lexeme) : String :=
  match l.content? with
  | some s => if l.isTrivial then l.kind else l.kind ++ ":" ++ s
  | none => l.kind

end Lexeme

structure Token where
  lexeme : Lexeme
  span : Span

instance : Inhabited Token := ⟨⟨.eof, .single default⟩⟩

namespace Token

def text (t : Token) : String := t.lexeme.text

end Token

end Scriptlet
