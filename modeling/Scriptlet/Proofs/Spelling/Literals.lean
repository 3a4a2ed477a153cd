import Scriptlet.Proofs.Scan.Partition
import Scriptlet.Proofs.Spelling.Lexemes
/-!
# Literals

A string in front of a text is one token, and the tokens of the text follow as if it stood alone: its closing quote cannot be
extended (`tokens_quoted`).  A decimal is not.  Its dot ends the number before the digits of the fraction are read, and these
are scanned as a number of their own (`tokens_decimal`).
-/
namespace Scriptlet

open Scan

/-- A token that is read at a place stands in front of the tokens from there on. -/
theorem tokensFrom_emit (fuel : Nat) {p : Position} {c : Char} {cs read rest : List Char} {l : Lexeme}
    (hread : Scan.readAt p c cs = .ok (emit l p read rest)) : Scan.tokensFrom (fuel + 1) p (c :: cs) =
      (Scan.tokensFrom fuel (p.advance read) rest).map (⟨l, p, p.advance read⟩ :: ·) := by
  rw [tokensFrom_cons fuel hread]
  rfl

/-- The first token of a text, if it takes the characters `read`, stands in front of the tokens of the rest. -/
theorem tokens_cons (source : Source) {rest : Source} {tail : List Token} (hrest : Scan.tokens rest = .ok tail) {c : Char}
    {cs read : List Char} {l : Lexeme} (htext : source.text.toList = c :: cs)
    (hread : Scan.readAt (.origin source) c cs = .ok (emit l (.origin source) read rest.text.toList)) :
    ∃ tail', Scan.tokens source = .ok (⟨l, .origin source, (Position.origin source).advance read⟩ :: tail') ∧
      tail'.map Token.lexeme = tail.map Token.lexeme := by
  obtain ⟨ls, hls, hscans⟩ := tokensFrom_scans _ _ _ _ (Nat.le_of_eq String.length_toList) hrest
  have hfuel : rest.text.toList.length ≤ cs.length :=
    Nat.le_of_lt_succ (readAt_step hread).length_lt
  obtain ⟨tail', htail', hls'⟩ := hscans.tokensFrom cs.length ((Position.origin source).advance read) hfuel
  refine ⟨tail', ?_, hls'.trans hls.symm⟩
  rw [Scan.tokens, ← String.length_toList, htext, List.length_cons, tokensFrom_emit _ hread, htail']
  rfl

/-! ## Strings -/

/-- A string between quotes. -/
def quoted (quote : Char) (s : String) : String := String.ofList (quote :: (escaped quote s.toList ++ [quote]))

theorem readAt_quoted {quote : Char} (hq : quote = '"' ∨ quote = '\'') (s : String) (p : Position) (rest : List Char) :
    Scan.readAt p quote (escaped quote s.toList ++ quote :: rest) =
      .ok (emit (.string s) p (quoted quote s).toList rest) := by
  have hplain : quote ≠ '\\' ∧ quote ≠ 'n' ∧ quote ≠ 't' := by rcases hq with rfl | rfl <;> decide
  rw [readAt_quote p _ hq, readString, stringBody_escaped quote hplain, quoted, String.toList_ofList]
  simp only [String.ofList_toList]

/-- **Every string can be written as a literal.**  Between quotes of either kind, with a backslash before each backslash and
each such quote, and in front of any text that can be scanned, it is one token whose content is the string and whose span is
that of the literal; the lexemes of the text follow. -/
theorem tokens_quoted (s : String) {quote : Char} (hq : quote = '"' ∨ quote = '\'') {rest : Source} {tail : List Token}
    (hrest : Scan.tokens rest = .ok tail) (name : String) :
    ∃ token tail', Scan.tokens ⟨name, quoted quote s ++ rest.text⟩ = .ok (token :: tail') ∧ token.lexeme = .string s ∧
      token.span.start = .origin ⟨name, quoted quote s ++ rest.text⟩ ∧
      token.span.stop = token.span.start.advance (quoted quote s).toList ∧
      token.span.stop.index = ((quoted quote s).length : Int) ∧
      tail'.map Token.lexeme = tail.map Token.lexeme := by
  have htext : (quoted quote s ++ rest.text).toList = quote :: (escaped quote s.toList ++ quote :: rest.text.toList) := by
    rw [String.toList_append, quoted, String.toList_ofList, List.cons_append, List.append_assoc]
    rfl
  obtain ⟨tail', htokens, hlexemes⟩ := tokens_cons ⟨name, quoted quote s ++ rest.text⟩ hrest htext (readAt_quoted hq s _ _)
  refine ⟨_, tail', htokens, rfl, rfl, rfl, ?_, hlexemes⟩
  rw [Position.advance_index, String.length_toList]
  exact Int.zero_add _

/-- A string with both quotes, backslashes, a newline and the letters that a backslash would change, in front of a text. -/
theorem tokens_quoted_mixed : ∃ tail token tail', Scan.tokens ⟨"rest", "nt+'\\''"⟩ = .ok tail ∧
    Scan.tokens ⟨"mixed", "'n\\\\\\\\\"\\'\n\\\\nt\\\\'nt+'\\''"⟩ = .ok (token :: tail') ∧
    token.lexeme = .string "n\\\\\"'\n\\nt\\" ∧ token.span.stop.index = 17 ∧
    tail'.map Token.lexeme = tail.map Token.lexeme := by
  have hok : (Scan.tokens ⟨"rest", "nt+'\\''"⟩).toBool = true := by decide +kernel
  have htext : quoted '\'' "n\\\\\"'\n\\nt\\" ++ "nt+'\\''" = "'n\\\\\\\\\"\\'\n\\\\nt\\\\'nt+'\\''" := by decide +kernel
  have hlength : (quoted '\'' "n\\\\\"'\n\\nt\\").length = 17 := by decide +kernel
  cases hrest : Scan.tokens ⟨"rest", "nt+'\\''"⟩ with
  | error e =>
    rw [hrest] at hok
    cases hok
  | ok tail =>
    obtain ⟨token, tail', htokens, hlexeme, -, -, hstop, htail⟩ :=
      tokens_quoted "n\\\\\"'\n\\nt\\" (.inr rfl) hrest "mixed"
    rw [htext] at htokens
    rw [hlength] at hstop
    exact ⟨tail, token, tail', rfl, htokens, hlexeme, hstop, htail⟩

/-! ## Decimals -/

/-- A row of digits is read by its first one. -/
theorem exists_digits {ds : List Char} (hne : ds ≠ []) (hds : ∀ c ∈ ds, Scan.isDigit c = true) (rest : List Char) :
    ∃ c cs, ds ++ rest = c :: cs ∧ ∀ p, Scan.readAt p c cs = readNumber p (ds ++ rest) := by
  obtain ⟨c, cs, rfl⟩ := List.exists_cons_of_ne_nil hne
  exact ⟨c, cs ++ rest, rfl, fun p => readAt_digit p _ (hds c List.mem_cons_self)⟩

/-- **A decimal literal is two tokens.**  The dot ends the first, which is a decimal with no fraction; the digits after the dot
are a whole number of their own, for which there is the digit limit.  The lexemes of the text behind follow. -/
theorem tokens_decimal {d e : String} (hd : d ≠ "") (he : e ≠ "") (hds : ∀ c ∈ d.toList, Scan.isDigit c = true)
    (hes : ∀ c ∈ e.toList, Scan.isDigit c = true) {rest : Source} {tail : List Token}
    (hstop : StopsAt (fun c => Scan.isDigit c || c = '.') rest.text.toList) (hrest : Scan.tokens rest = .ok tail)
    (name : String) :
    (e.length ≤ Text.digitLimit → ∃ first second tail',
      Scan.tokens ⟨name, d ++ "." ++ e ++ rest.text⟩ = .ok (first :: second :: tail') ∧
      first.lexeme = .numeral (.decimal (decimalOf d.toList)) ∧ first.span.start.index = 0 ∧
      first.span.stop.index = d.length + 1 ∧
      second.lexeme = .numeral (.whole (Text.natOfDigits e.toList)) ∧ second.span.start = first.span.stop ∧
      second.span.stop.index = d.length + 1 + e.length ∧
      tail'.map Token.lexeme = tail.map Token.lexeme) ∧
    (Text.digitLimit < e.length → Scan.tokens ⟨name, d ++ "." ++ e ++ rest.text⟩ = .error (.fault .digitLimit)) := by
  have htext : (d ++ "." ++ e ++ rest.text).toList = d.toList ++ '.' :: (e.toList ++ rest.text.toList) := by
    simp [String.toList_append]
  obtain ⟨c, cs, hcs, hread⟩ := exists_digits (by simpa using hd) hds ('.' :: (e.toList ++ rest.text.toList))
  obtain ⟨c', cs', hcs', hread'⟩ := exists_digits (by simpa using he) hes rest.text.toList
  have hfirst := fun p => (hread p).trans (readNumber_dot hds p (e.toList ++ rest.text.toList))
  have hsecond := fun p => (hread' p).trans (readNumber_whole hes p hstop)
  obtain ⟨fuel, hlength, hfuel⟩ : ∃ fuel, cs.length = fuel + 1 ∧ rest.text.toList.length ≤ fuel := by
    have hlength := congrArg List.length hcs
    have hlength' := congrArg List.length hcs'
    have hpos := List.length_pos_iff.2 (show d.toList ≠ [] by simpa using hd)
    have hpos' := List.length_pos_iff.2 (show e.toList ≠ [] by simpa using he)
    simp only [List.length_append, List.length_cons] at hlength hlength'
    exact ⟨cs.length - 1, by omega, by omega⟩
  have htokens : Scan.tokens ⟨name, d ++ "." ++ e ++ rest.text⟩ =
      Scan.tokensFrom (fuel + 1 + 1) (.origin ⟨name, d ++ "." ++ e ++ rest.text⟩) (c :: cs) := by
    rw [Scan.tokens, ← String.length_toList, htext, hcs, List.length_cons, hlength]
  rw [tokensFrom_emit _ (hfirst _), hcs'] at htokens
  refine ⟨fun hlimit => ?_, fun hlimit => ?_⟩
  · simp only [String.length_toList, if_neg (Nat.not_lt.2 hlimit)] at hsecond
    obtain ⟨ls, hls, hscans⟩ := tokensFrom_scans _ _ _ _ (Nat.le_of_eq String.length_toList) hrest
    obtain ⟨tail', htail', hls'⟩ := hscans.tokensFrom fuel _ hfuel
    rw [tokensFrom_emit _ (hsecond _), htail'] at htokens
    refine ⟨_, _, tail', htokens, rfl, rfl, ?_, rfl, rfl, ?_, hls'.trans hls.symm⟩
    · rw [Position.advance_index]
      simp [Position.origin, String.length_toList]
    · rw [Position.advance_index, Position.advance_index]
      simp [Position.origin, String.length_toList]
  · simp only [String.length_toList, if_pos hlimit] at hsecond
    rw [htokens, Scan.tokensFrom, hsecond]
    rfl

/-- A decimal literal in front of a sum, with a zero after the dot. -/
theorem tokens_decimal_sum : ∃ first second tail', Scan.tokens ⟨"sum", "12.034+x"⟩ = .ok (first :: second :: tail') ∧
    first.lexeme = .numeral (.decimal (decimalOf ['1', '2'])) ∧ first.span.stop.index = 3 ∧
    second.lexeme = .numeral (.whole 34) ∧ second.span.start.index = 3 ∧ second.span.stop.index = 6 ∧
    tail'.map Token.lexeme = [.symbol .plus, .name "x", .eof] := by
  have hlexemes : (Scan.tokens ⟨"rest", "+x"⟩).toOption.map (·.map Token.lexeme) = some [.symbol .plus, .name "x", .eof] := by
    rfl
  cases hrest : Scan.tokens ⟨"rest", "+x"⟩ with
  | error e =>
    rw [hrest] at hlexemes
    cases hlexemes
  | ok tail =>
    rw [hrest] at hlexemes
    have hstop : StopsAt (fun c => Scan.isDigit c || c = '.') "+x".toList := by
      rintro c ⟨⟩
      decide
    have hds : ∀ c ∈ "12".toList, Scan.isDigit c = true := List.all_eq_true.1 (by decide)
    have hes : ∀ c ∈ "034".toList, Scan.isDigit c = true := List.all_eq_true.1 (by decide)
    obtain ⟨hdecimal, -⟩ := @tokens_decimal "12" "034" (by decide) (by decide) hds hes ⟨"rest", "+x"⟩ tail hstop hrest "sum"
    obtain ⟨first, second, tail', htokens, hfirst, -, hstop, hsecond, hstart, hend, htail⟩ := hdecimal (by decide)
    exact ⟨first, second, tail', htokens, hfirst, hstop, hsecond, hstart ▸ hstop, hend, htail.trans (Option.some.inj hlexemes)⟩

/-- No token has the span of the literal. -/
theorem decimal_literal_parted : ∃ tokens, Scan.tokens ⟨"<stdin>", "1.5"⟩ = .ok tokens ∧
    tokens.map (fun t => (t.span.start.index, t.span.stop.index)) = [(0, 2), (2, 3), (3, 4)] := by
  have hseen : (Scan.tokens ⟨"<stdin>", "1.5"⟩).toOption.map (·.map fun t => (t.span.start.index, t.span.stop.index)) =
      some [(0, 2), (2, 3), (3, 4)] := by decide +kernel
  cases h : Scan.tokens ⟨"<stdin>", "1.5"⟩ with
  | error e =>
    rw [h] at hseen
    cases hseen
  | ok tokens =>
    rw [h] at hseen
    exact ⟨tokens, rfl, Option.some.inj hseen⟩

end Scriptlet
