import Scriptlet.Proofs.Display.Reading
import Scriptlet.Proofs.Spelling.Literals
import Scriptlet.Proofs.Spelling.Programs
import Scriptlet.Workload
/-!
# Programs that collect

A program binds a string and a list, extends both in a loop whose length is part of its text, and ends with a list of the
two.  The loop may look at them as well: take them twice, negate and compare them, apply the list to an index, and keep
what it sees.

`Collecting` has all such programs, with every order of the lines of the loop and every layout of the text.  The text of
one is scanned to its lexemes (`Collecting.scans_text`), and these are read as its tree (`Collecting.program_tree`), for
every bound that is not too long to be written.
-/
namespace Scriptlet

/-! ## Texts that cannot be scanned -/

namespace Scan

/-- Scanning the text ends with the fault, from any position. -/
def Faults (cs : List Char) (f : Fault) : Prop :=
  ∀ (fuel : Nat) (p : Position), cs.length ≤ fuel → tokensFrom fuel p cs = .error (.fault f)

theorem Step.faults {cs rest : List Char} {l : Option Lexeme} {f : Fault} (h : Step cs l rest) (hrest : Faults rest f) :
    Faults cs f := by
  intro fuel p hfuel
  obtain ⟨fuel', q, token?, hfuel', -, heq⟩ := h.tokensFrom p hfuel
  rw [heq, hrest fuel' q hfuel']
  rfl

/-- Nothing is scanned if what follows a separator cannot be. -/
theorem Scans.faults {cs : List Char} {ls : List Lexeme} (h : Scans cs ls) {x : Char} (hx : IsSeparator x) {ds : List Char}
    {f : Fault} (h' : Faults (x :: ds) f) : Faults (cs ++ x :: ds) f := by
  induction h with
  | done => exact h'
  | step hstep _ ih => exact (hstep.append hx ds).faults ih

end Scan

open Scan in
theorem faults_toDigits {n : Nat} (hn : Nat.pow 10 Text.digitLimit ≤ n) {rest : List Char}
    (hstop : StopsAt (fun c => Scan.isDigit c || c = '.') rest) : Faults (Nat.toDigits 10 n ++ rest) .digitLimit := by
  have hdigits : ∀ c ∈ Nat.toDigits 10 n, Scan.isDigit c = true := fun _ => isDigit_of_mem_toDigits
  have hlimit : Text.digitLimit < (Nat.toDigits 10 n).length := by
    apply Nat.lt_of_not_le
    intro hlength
    have hlt := (Nat.length_toDigits_le_iff (by decide) (by decide)).1 hlength
    rw [← Nat.pow_eq] at hlt
    generalize Nat.pow 10 Text.digitLimit = limit at *
    omega
  obtain ⟨c, cs, hcs, hread⟩ := exists_digits Nat.toDigits_ne_nil hdigits rest
  intro fuel p hfuel
  obtain ⟨fuel, rfl⟩ : ∃ k, fuel = k + 1 := ⟨fuel - 1, by rw [hcs, List.length_cons] at hfuel; omega⟩
  rw [hcs, tokensFrom, hread, readNumber_whole hdigits p hstop, if_pos hlimit]
  rfl

namespace Workload

open Scan Grammar Eval Nested

/-! ## The programs -/

/-- What a line looks at: the string or the list taken twice, negated, the first element of the list, or whether the string
is the same as one that was kept. -/
inductive Look where
  | textTwice
  | listTwice
  | notText
  | notList
  | firstElement
  | sameAs (x : String)
  deriving DecidableEq

/-- A line of the loop: extend the string by a letter, extend the list by the counter, or look at them, and perhaps keep
what is seen. -/
inductive Line where
  | grow
  | extend
  | look (what : Look)
  | keep (x : String) (what : Look)
  deriving DecidableEq

def Look.lexemes : Look → List Lexeme
  | .textTwice => [.name "s", .symbol .times, .numeral (.whole 2)]
  | .listTwice => [.name "L", .symbol .times, .numeral (.whole 2)]
  | .notText => [.keyword .not, .name "s"]
  | .notList => [.keyword .not, .name "L"]
  | .firstElement => [.name "L", .symbol .openParen, .numeral (.whole 0), .symbol .closeParen]
  | .sameAs x => [.name "s", .symbol .sameAs, .name x]

def Line.lexemes : Line → List Lexeme
  | .grow => [.keyword .var, .name "s", .symbol .equals, .name "s", .symbol .plus, .string "x"]
  | .extend => [.keyword .var, .name "L", .symbol .equals, .name "L", .symbol .plus, .name "i"]
  | .look what => what.lexemes
  | .keep x what => .keyword .var :: .name x :: .symbol .equals :: what.lexemes

/-- How far a round has come: how often the string and the list have been extended in all, and under which names the round
has kept strings. -/
structure Stage where
  letters : Nat
  counts : Nat
  texts : List String

def Line.after (s : Stage) : Line → Stage
  | .grow => { s with letters := s.letters + 1 }
  | .extend => { s with counts := s.counts + 1 }
  | .look _ => s
  | .keep x what => { s with texts := if what = .textTwice then x :: s.texts else s.texts.filter (· ≠ x) }

/-- Lines one after the other, each of which passes at the stage it finds. -/
def passes (check : Stage → Line → Bool) : Stage → List Line → Bool
  | _, [] => true
  | s, l :: ls => check s l && passes check (l.after s) ls

def Look.isKnown (s : Stage) : Look → Bool
  | .sameAs x => decide (x = "s" ∨ x ∈ s.texts)
  | _ => true

/-- The string is compared with itself or a string that was kept in the same round, and nothing is kept under a name of the
program. -/
def Line.isOrderly (s : Stage) : Line → Bool
  | .grow | .extend => true
  | .look what => what.isKnown s
  | .keep x what => what.isKnown s && decide (x ≠ "s" ∧ x ≠ "L" ∧ x ≠ "i")

def Look.fits (s : Stage) : Look → Bool
  | .textTwice => decide ((s.letters + 2) * 2 ≤ sizeLimit)
  | .listTwice => decide ((s.counts + 1) * 2 ≤ sizeLimit)
  | _ => true

/-- There is memory for what is taken twice. -/
def Line.fits (s : Stage) : Line → Bool
  | .grow | .extend => true
  | .look what | .keep _ what => what.fits s

def openingLexemes : List Lexeme :=
  [.keyword .var, .name "s", .symbol .equals, .string "ab", .newline,
   .keyword .var, .name "L", .symbol .equals, .symbol .openSquare, .numeral (.whole 1), .symbol .closeSquare, .newline,
   .keyword .for_, .name "i", .symbol .equals, .numeral (.whole 0), .keyword .to_]

def closingLexemes (body : List Line) : List Lexeme :=
  .keyword .do_ :: .newline :: (Scriptlet.lines (body.map Line.lexemes) ++
    [.keyword .end_, .newline, .symbol .openSquare, .name "s", .symbol .comma, .name "L", .symbol .closeSquare])

/-- A program that collects numbers in a list.  Its loop extends the string once and the list once, at any of its lines,
and else looks at them.  The bound of the loop stands between two texts that can have any layout, with any number of
newlines before and after the program.  The productions do not nest too deep for the limits, however the bound is written.
-/
structure Collecting where
  body : List Line
  growsOnce : body.count .grow = 1
  extendsOnce : body.count .extend = 1
  orderly : passes Line.isOrderly ⟨0, 0, []⟩ body = true
  before : Nat
  after : Nat
  opening : String
  closing : String
  opens : Scans opening.toList (blankLines before ++ openingLexemes)
  closes : Scans closing.toList (closingLexemes body ++ blankLines after)
  readable : depthFor (nestingCount openingLexemes + 1 + nestingCount (closingLexemes body)) ≤ Limits.standard.reading

namespace Collecting

/-- The text of the program for a loop up to `n`. -/
def text (p : Collecting) (n : Int) : String := p.opening ++ " " ++ toString n ++ " " ++ p.closing

/-- What comes of the program for a loop up to `n`. -/
def report (p : Collecting) (n : Int) : RunReport := runSized n (p.text n)

/-- In so many rounds there is memory for everything. -/
def Fits (p : Collecting) (rounds : Nat) : Prop := ∀ k < rounds, passes Line.fits ⟨k, k, []⟩ p.body = true

instance (p : Collecting) (rounds : Nat) : Decidable (p.Fits rounds) :=
  inferInstanceAs (Decidable (∀ k < rounds, passes Line.fits ⟨k, k, []⟩ p.body = true))

/-! ## The text -/

variable (p : Collecting) {n : Int}

theorem toList_text (n : Int) :
    (p.text n).toList = p.opening.toList ++ ' ' :: ((toString n).toList ++ ' ' :: p.closing.toList) := by
  simp [text]

def lexemes (n : Int) : List Lexeme :=
  (blankLines p.before ++ openingLexemes) ++ (pieceLexemes (some n) ++ (closingLexemes p.body ++ blankLines p.after))

theorem stopsAt_blank (cs : List Char) : StopsAt (fun c => Scan.isDigit c || c = '.') (' ' :: cs) := by
  rintro c ⟨⟩
  decide

theorem scans_text (hn : n.natAbs < Nat.pow 10 Text.digitLimit) : Scans (p.text n).toList (p.lexemes n) := by
  have hclosing : Scans (' ' :: p.closing.toList) (closingLexemes p.body ++ blankLines p.after) :=
    .step (.blank (.inl rfl)) p.closes
  have hbound := scans_piece hclosing (stopsAt_blank _) (p := some n) (by simpa using hn)
  rw [toList_text]
  exact p.opens.append (.inl rfl) (.step (.blank (.inl rfl)) hbound)

theorem faults_text (hn : Nat.pow 10 Text.digitLimit ≤ n.natAbs) : Faults (p.text n).toList .digitLimit := by
  have hbound : Faults ((toString n).toList ++ ' ' :: p.closing.toList) .digitLimit := by
    cases n with
    | ofNat m =>
      have htext : (toString (Int.ofNat m)).toList = Nat.toDigits 10 m := Nat.toList_repr
      rw [htext]
      exact faults_toDigits hn (stopsAt_blank _)
    | negSucc m =>
      rw [toList_negSucc]
      exact (step_minus (m + 1) _).faults (faults_toDigits hn (stopsAt_blank _))
  rw [toList_text]
  exact p.opens.faults (.inl rfl) (Step.faults (.blank (.inl rfl)) hbound)

end Collecting

/-! ## The tree -/

def Look.node : Look → Node
  | .textTwice => .binary (.access ⟨"s", .forgotten⟩) (.symbol .times) (.number (.whole 2) .forgotten)
  | .listTwice => .binary (.access ⟨"L", .forgotten⟩) (.symbol .times) (.number (.whole 2) .forgotten)
  | .notText => .unary ⟨.keyword .not, .forgotten⟩ (.access ⟨"s", .forgotten⟩)
  | .notList => .unary ⟨.keyword .not, .forgotten⟩ (.access ⟨"L", .forgotten⟩)
  | .firstElement => .call (.access ⟨"L", .forgotten⟩) [.number (.whole 0) .forgotten]
  | .sameAs x => .binary (.access ⟨"s", .forgotten⟩) (.symbol .sameAs) (.access ⟨x, .forgotten⟩)

def Line.node : Line → Node
  | .grow => .assign ⟨"s", .forgotten⟩ (.binary (.access ⟨"s", .forgotten⟩) (.symbol .plus) (.string "x" .forgotten))
  | .extend => .assign ⟨"L", .forgotten⟩ (.binary (.access ⟨"L", .forgotten⟩) (.symbol .plus) (.access ⟨"i", .forgotten⟩))
  | .look what => what.node
  | .keep x what => .assign ⟨x, .forgotten⟩ what.node

/-- The lines with their trees. -/
def linePhrases (body : List Line) : List (List Lexeme × Node) := body.map fun l => (l.lexemes, l.node)

theorem map_fst_linePhrases (body : List Line) : (linePhrases body).map Prod.fst = body.map Line.lexemes := List.map_map

theorem map_snd_linePhrases (body : List Line) : (linePhrases body).map Prod.snd = body.map Line.node := List.map_map

def loopNode (body : List Line) (n : Int) : Node :=
  .count ⟨"i", .forgotten⟩ (.number (.whole 0) .forgotten) (intNode n) none
    (.block (.list ((linePhrases body).map Prod.snd) .forgotten))

def pairNode : Node := .list [.access ⟨"s", .forgotten⟩, .access ⟨"L", .forgotten⟩] .forgotten

def tree (body : List Line) (n : Int) : Node :=
  .list
    [.assign ⟨"s", .forgotten⟩ (.string "ab" .forgotten),
     .assign ⟨"L", .forgotten⟩ (.list [.number (.whole 1) .forgotten] .forgotten),
     loopNode body n,
     pairNode] .forgotten

def loopLexemes (body : List Line) (n : Int) : List Lexeme :=
  .keyword .for_ :: .name "i" :: .symbol .equals :: ([.numeral (.whole 0)] ++ .keyword .to_ ::
    (pieceLexemes (some n) ++ .keyword .do_ :: .newline ::
      (Scriptlet.lines ((linePhrases body).map Prod.fst) ++ [.keyword .end_])))

/-- The statements after the first, each with its lexemes. -/
def laterStatements (body : List Line) (n : Int) : List (List Lexeme × Node) :=
  [([.keyword .var, .name "L", .symbol .equals, .symbol .openSquare, .numeral (.whole 1), .symbol .closeSquare],
      .assign ⟨"L", .forgotten⟩ (.list [.number (.whole 1) .forgotten] .forgotten)),
   (loopLexemes body n, loopNode body n),
   ([.symbol .openSquare, .name "s", .symbol .comma, .name "L", .symbol .closeSquare], pairNode)]

section Reading

variable {tokens : List Token} (ht : Ended tokens) (hbare : ∀ i, (Cursor.shown tokens i).span = .forgotten)

include hbare

theorem phrase_int (n : Int) : Phrase tokens (pieceLexemes (some n)) (intNode n) := by
  cases n with
  | ofNat n => exact (atomic_number hbare (.whole n)).phrase
  | negSucc n => exact (atomic_number hbare (.whole (n + 1))).opposite hbare ⟨.symbol .minus, .forgotten⟩ rfl

include ht

theorem phrase_look (what : Look) : Phrase tokens what.lexemes what.node := by
  have htext := atomic_access hbare "s"
  have hlist := atomic_access hbare "L"
  have htwo := atomic_number hbare (.whole 2)
  cases what with
  | textTwice => exact htext.binary ht rfl htwo
  | listTwice => exact hlist.binary ht rfl htwo
  | notText => exact htext.negation hbare ⟨.keyword .not, .forgotten⟩ rfl
  | notList => exact hlist.negation hbare ⟨.keyword .not, .forgotten⟩ rfl
  | firstElement => exact hlist.call ht (atomic_number hbare (.whole 0)).phrase.of_mem_singleton
  | sameAs x => exact htext.binary ht rfl (atomic_access hbare x)

theorem phrase_line (l : Line) : Phrase tokens l.lexemes l.node := by
  cases l with
  | grow => exact ((atomic_access hbare "s").binary ht rfl (atomic_string hbare "x")).assign hbare "s"
  | extend => exact ((atomic_access hbare "L").binary ht rfl (atomic_access hbare "i")).assign hbare "L"
  | look what => exact phrase_look ht hbare what
  | keep x what => exact (phrase_look ht hbare what).assign hbare x

theorem phrase_loop {body : List Line} (hne : body ≠ []) (n : Int) :
    Phrase tokens (loopLexemes body n) (loopNode body n) := by
  have hlines : ∀ q ∈ linePhrases body, Phrase tokens q.1 q.2 := by
    intro q hq
    obtain ⟨l, -, rfl⟩ := List.mem_map.1 hq
    exact phrase_line ht hbare l
  have hzero := (atomic_number hbare (.whole 0)).phrase
  exact (atomic_count ht hbare "i" hzero (phrase_int hbare n) (mt List.map_eq_nil_iff.1 hne) hlines).phrase

theorem phrase_later {body : List Line} (hne : body ≠ []) (n : Int) :
    ∀ q ∈ laterStatements body n, Phrase tokens q.1 q.2 := by
  intro q hq
  simp only [laterStatements, List.mem_cons, List.not_mem_nil, or_false] at hq
  rcases hq with rfl | rfl | rfl
  · have hone := (atomic_number hbare (.whole 1)).phrase.of_mem_singleton
    exact (atomic_list ht hone hbare).phrase.assign hbare "L"
  · exact phrase_loop ht hbare hne n
  · have hpair : ∀ q ∈ [([Lexeme.name "s"], Node.access ⟨"s", .forgotten⟩), ([Lexeme.name "L"], .access ⟨"L", .forgotten⟩)],
        Phrase tokens q.1 q.2 := by
      intro q hq
      simp only [List.mem_cons, List.not_mem_nil, or_false] at hq
      rcases hq with rfl | rfl
      · exact (atomic_access hbare "s").phrase
      · exact (atomic_access hbare "L").phrase
    exact (atomic_list ht hpair hbare).phrase

end Reading

namespace Collecting

variable (p : Collecting) (n : Int)

theorem body_ne_nil : p.body ≠ [] := by
  intro h
  have hgrow := p.growsOnce
  rw [h] at hgrow
  cases hgrow

theorem nestingCount_lexemes_le :
    nestingCount (p.lexemes n) ≤ nestingCount openingLexemes + 1 + nestingCount (closingLexemes p.body) := by
  have hblank (count : Nat) : (blankLines count).countP nests = 0 := List.countP_eq_zero.2 fun x hx => by
    rw [List.eq_of_mem_replicate hx]
    simp [nests]
  have hbound : (pieceLexemes (some n)).countP nests ≤ 1 := by
    cases n with
    | ofNat n => exact Nat.zero_le 1
    | negSucc n => exact Nat.le_refl 1
  unfold nestingCount lexemes
  simp only [List.countP_append, hblank]
  omega

/-- The lexemes are read as the tree. -/
theorem program_tree (hn : n.natAbs < Nat.pow 10 Text.digitLimit) {depth : Nat} (hdepth : Limits.standard.reading ≤ depth) :
    (program depth (.start (bareTokens (p.lexemes n ++ [.eof])))).result = .ok (tree p.body n) := by
  have hrow : p.lexemes n = blankLines p.before ++ ([.keyword .var, .name "s", .symbol .equals, .string "ab"] ++
      (newlineRow (laterStatements p.body n) ++ blankLines p.after)) := by
    simp [lexemes, openingLexemes, closingLexemes, laterStatements, loopLexemes, newlineRow, map_fst_linePhrases]
  apply program_of_phrases hrow (p.scans_text hn).ne_eof
  · intro tokens ht hbare
    exact ⟨(atomic_string hbare "ab").phrase.assign hbare "s", phrase_later ht hbare p.body_ne_nil n⟩
  · have hcount := p.nestingCount_lexemes_le n
    have hreadable := p.readable
    unfold depthFor at hreadable ⊢
    omega

end Collecting

end Workload

end Scriptlet
