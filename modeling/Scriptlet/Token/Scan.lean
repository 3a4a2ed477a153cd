import Scriptlet.Problem
import Scriptlet.Text.Integer
/-!
# Scanning a text into tokens

Blanks and tabs separate tokens; a newline or a semicolon is a token.  A number is a row of digits, and one dot after it
makes it a decimal and ends it.  A word of letters, digits and underscores that begins with a letter is a keyword or a
name.  A string runs from a quote to the next quote of its kind; a backslash takes the character after it as it stands,
except that `n` and `t` make a newline and a tab.

The scanner carries its position along the characters it reads.  A symbol that could go on with a second character is
decided by looking one character further and stepping back if it is not the second one.  Stepping back does not undo a
change of line, so after such a symbol at the end of a line the position is one line ahead.
-/
namespace Scriptlet.Scan

def isDigit (c : Char) : Bool := '0' ≤ c && c ≤ '9'

def isLetter (c : Char) : Bool := ('a' ≤ c && c ≤ 'z') || ('A' ≤ c && c ≤ 'Z')

def isWordChar (c : Char) : Bool := isLetter c || isDigit c || c = '_'

/-! ## Single lexemes -/

/-- The symbols of one character that no second character extends. -/
def plainSymbol? : Char → Option Symbol
  | '+' => some .plus
  | '%' => some .percent
  | '(' => some .openParen
  | ')' => some .closeParen
  | '[' => some .openSquare
  | ']' => some .closeSquare
  | ',' => some .comma
  | _ => none

/-- A symbol that a second character can extend: that character, the long symbol, and the short one if it is one. -/
structure Extension where
  second : Char
  long : Symbol
  short : Option Symbol

def extension? : Char → Option Extension
  | '!' => some ⟨'=', .differs, none⟩
  | '/' => some ⟨'/', .doubleSlash, some .slash⟩
  | '*' => some ⟨'*', .power, some .times⟩
  | '=' => some ⟨'=', .sameAs, some .equals⟩
  | '<' => some ⟨'=', .atMost, some .less⟩
  | '>' => some ⟨'=', .atLeast, some .greater⟩
  | '-' => some ⟨'>', .arrow, some .minus⟩
  | _ => none

/-- The content of a string whose opening quote has been read: the content, the characters read, and the rest after the
closing quote, which is `none` if the text ends first. -/
def stringBody (quote : Char) : List Char → List Char × List Char × Option (List Char)
  | [] => ([], [], none)
  | '\\' :: [] => ([], ['\\'], none)
  | '\\' :: c :: rest =>
    let (content, read, after) := stringBody quote rest
    let meant := if c = 'n' then '\n' else if c = 't' then '\t' else c
    (meant :: content, '\\' :: c :: read, after)
  | c :: rest =>
    if c = quote then ([], [c], some rest)
    else
      let (content, read, after) := stringBody quote rest
      (c :: content, c :: read, after)

/-- The lexeme of a word. -/
def wordLexeme (word : String) : Lexeme :=
  match Keyword.ofText? word with
  | some k => .keyword k
  | none => .name word

/-! ## One token at a time -/

/-- What reading at a place gives: nothing but a blank, or a token; and where to go on. -/
structure Read where
  token? : Option Token
  rest : List Char
  position : Position

/-- Why scanning ends without tokens: a problem of the text, or a numeral beyond the digit limit. -/
inductive Failure where
  | problem (p : Problem)
  | fault (f : Fault)

/-- A token of the characters `read` from `start` on. -/
def emit (lexeme : Lexeme) (start : Position) (read rest : List Char) : Read :=
  let stop := start.advance read
  ⟨some ⟨lexeme, ⟨start, stop⟩⟩, rest, stop⟩

/-- The double of a row of digits; with more than four hundred digits it is beyond all finite doubles. -/
def decimalOf (digits : List Char) : Float :=
  let significant := digits.dropWhile (· = '0')
  if 400 < significant.length then Binary64.infinity else Binary64.ofNat (Text.natOfDigits significant)

def readNumber (start : Position) (cs : List Char) : Except Failure Read :=
  let digits := cs.takeWhile isDigit
  match cs.dropWhile isDigit with
  | '.' :: rest =>
    .ok (emit (.numeral (.decimal (decimalOf digits))) start (digits ++ ['.']) rest)
  | rest =>
    if Text.digitLimit < digits.length then .error (.fault .digitLimit)
    else .ok (emit (.numeral (.whole (Text.natOfDigits digits))) start digits rest)

def readWord (start : Position) (cs : List Char) : Read :=
  let word := cs.takeWhile isWordChar
  emit (wordLexeme (String.ofList word)) start word (cs.dropWhile isWordChar)

def readString (start : Position) (quote : Char) (cs : List Char) : Except Failure Read :=
  let (content, read, after) := stringBody quote cs
  match after with
  | some rest => .ok (emit (.string (String.ofList content)) start (quote :: read) rest)
  | none => .error (.problem ⟨.unclosed quote, ⟨start, start.advance (quote :: read)⟩⟩)

/-- A symbol that may go on: `first` has been read and `cs` follows it. -/
def readExtensible (start : Position) (first : Char) (e : Extension) (cs : List Char) : Except Failure Read :=
  match cs with
  | c :: rest =>
    if c = e.second then .ok (emit (.symbol e.long) start [first, c] rest)
    else decline (some c)
  | [] => decline none
where
  /-- The character after the symbol does not extend it: the position has looked past that character. -/
  decline (ahead : Option Char) : Except Failure Read :=
    let looked := (start.next (some first)).next ahead
    match e.short with
    | some s => .ok ⟨some ⟨.symbol s, ⟨start, looked.back⟩⟩, cs, looked.back⟩
    | none => .error (.problem ⟨.loneBang, ⟨start, looked⟩⟩)

/-- Reads at the character `c`, which `cs` follows. -/
def readAt (start : Position) (c : Char) (cs : List Char) : Except Failure Read :=
  if c = ' ' ∨ c = '\t' then .ok ⟨none, cs, start.next (some c)⟩
  else if c = ';' ∨ c = '\n' then .ok ⟨some ⟨.newline, .single start⟩, cs, start.next (some c)⟩
  else if isDigit c then readNumber start (c :: cs)
  else if isLetter c then .ok (readWord start (c :: cs))
  else if c = '"' ∨ c = '\'' then readString start c cs
  else
    match extension? c, plainSymbol? c with
    | some e, _ => readExtensible start c e cs
    | none, some s => .ok ⟨some ⟨.symbol s, .single start⟩, cs, start.next (some c)⟩
    | none, none => .error (.problem ⟨.illegal c, ⟨start, start.next (some c)⟩⟩)

/-! ## The whole text

Every reading takes at least the character it began with, so the length of the text bounds the number of readings. -/

/-- Reads tokens up to the end of the text, at most `fuel` times. -/
def tokensFrom : (fuel : Nat) → Position → List Char → Except Failure (List Token)
  | _, p, [] => .ok [⟨.eof, .single p⟩]
  | 0, p, _ :: _ => .ok [⟨.eof, .single p⟩]
  | fuel + 1, p, c :: cs => do
    let read ← readAt p c cs
    let tokens ← tokensFrom fuel read.position read.rest
    return read.token?.toList ++ tokens

/-- The tokens of a source, the last of which marks its end. -/
def tokens (source : Source) : Except Failure (List Token) :=
  tokensFrom source.text.length (.origin source) source.text.toList

end Scriptlet.Scan
