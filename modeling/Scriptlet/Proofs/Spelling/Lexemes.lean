import Scriptlet.Proofs.Scan.Steps
/-!
# Writing lexemes down

Every lexeme but a decimal and the mark of the end has a spelling, and a row of lexemes is written with a blank after each
(`spell`).  The scanner reads such a text back to the same row (`scans_spell`).  A whole number is spelled with the digits
of its decimal form, so it can be written if these are not more than the limit; a string is put between quotes, with a
backslash before each quote and each backslash in it.
-/
namespace Scriptlet

open Scan

/-- A word that names something: it begins with a letter and is no keyword. -/
def isName (s : String) : Bool :=
  match s.toList with
  | [] => false
  | c :: w => isLetter c && w.all isWordChar && (Keyword.ofText? s).isNone

/-- A backslash before each backslash and each quote. -/
def escaped (quote : Char) (cs : List Char) : List Char :=
  cs.flatMap fun c => if c = '\\' ∨ c = quote then ['\\', c] else [c]

def Symbol.spelling : Symbol → List Char
  | .equals => ['=']
  | .sameAs => ['=', '=']
  | .differs => ['!', '=']
  | .less => ['<']
  | .greater => ['>']
  | .atMost => ['<', '=']
  | .atLeast => ['>', '=']
  | .plus => ['+']
  | .minus => ['-']
  | .times => ['*']
  | .percent => ['%']
  | .slash => ['/']
  | .doubleSlash => ['/', '/']
  | .power => ['*', '*']
  | .openParen => ['(']
  | .closeParen => [')']
  | .openSquare => ['[']
  | .closeSquare => [']']
  | .comma => [',']
  | .arrow => ['-', '>']

namespace Lexeme

def spelling : Lexeme → List Char
  | .numeral (.whole n) => Nat.toDigits 10 n
  | .numeral (.decimal x) => (Numeral.decimal x).text.toList
  | .string s => '"' :: (escaped '"' s.toList ++ ['"'])
  | .name s => s.toList
  | .keyword k => k.text.toList
  | .symbol s => s.spelling
  | .newline => ['\n']
  | .eof => []

/-- The lexeme is what its spelling is scanned to. -/
def isWritable : Lexeme → Bool
  | .numeral (.whole n) => n < Nat.pow 10 Text.digitLimit
  | .name s => isName s
  | .string _ | .keyword _ | .symbol _ | .newline => true
  | .numeral (.decimal _) | .eof => false

end Lexeme

/-- The text of a row of lexemes. -/
def spell (ls : List Lexeme) : String := String.ofList (ls.flatMap fun l => l.spelling ++ [' '])

/-! ## Numbers -/

theorem natOfDigits_toDigits (n : Nat) : Text.natOfDigits (Nat.toDigits 10 n) = n := by
  have h : Text.natOfDigits (Nat.toDigits 10 n) = Nat.ofDigitChars 10 (Nat.toDigits 10 n) 0 := rfl
  rw [h, Nat.ofDigitChars_ten_toDigits]

theorem isDigit_of_mem_toDigits {n : Nat} {c : Char} (h : c ∈ Nat.toDigits 10 n) : Scan.isDigit c = true := by
  have hc := Nat.isDigit_of_mem_toDigits (by decide) (by decide) h
  simpa only [Scan.isDigit, Char.isDigit, Char.le_def, ge_iff_le] using hc

theorem step_whole {n : Nat} (h : n < Nat.pow 10 Text.digitLimit) {rest : List Char}
    (hstop : StopsAt (fun c => Scan.isDigit c || c = '.') rest) :
    Step (Nat.toDigits 10 n ++ rest) (some (.numeral (.whole n))) rest := by
  rw [Nat.pow_eq] at h
  have hlimit : (Nat.toDigits 10 n).length ≤ Text.digitLimit :=
    (Nat.length_toDigits_le_iff (by decide) (by decide)).2 h
  have hstep := Step.whole Nat.toDigits_ne_nil (fun _ => isDigit_of_mem_toDigits) hstop hlimit
  rwa [natOfDigits_toDigits] at hstep

theorem scans_whole {n : Nat} (h : n < Nat.pow 10 Text.digitLimit) :
    Scans (Nat.toDigits 10 n) [.numeral (.whole n)] := by
  have hstep := step_whole h (show StopsAt _ [] by simp [StopsAt])
  rw [List.append_nil] at hstep
  exact .step hstep .done

/-! ## Strings -/

/-- **A string between quotes is read back**, whatever follows it. -/
theorem stringBody_escaped (quote : Char) (hq : quote ≠ '\\' ∧ quote ≠ 'n' ∧ quote ≠ 't') (cs rest : List Char) :
    stringBody quote (escaped quote cs ++ quote :: rest) = (cs, escaped quote cs ++ [quote], some rest) := by
  induction cs with
  | nil => rw [escaped, List.flatMap_nil, List.nil_append, stringBody_cons hq.1, if_pos rfl]; rfl
  | cons c cs ih =>
    have hcons : escaped quote (c :: cs) = (if c = '\\' ∨ c = quote then ['\\', c] else [c]) ++ escaped quote cs :=
      List.flatMap_cons
    rw [hcons]
    by_cases hc : c = '\\' ∨ c = quote
    · have hn : c ≠ 'n' ∧ c ≠ 't' := by
        rcases hc with rfl | rfl
        · decide
        · exact hq.2
      rw [if_pos hc]
      show stringBody quote ('\\' :: c :: (escaped quote cs ++ quote :: rest)) = _
      rw [stringBody, ih]
      simp only [if_neg hn.1, if_neg hn.2]
      rfl
    · rw [not_or] at hc
      rw [if_neg (not_or.2 hc)]
      show stringBody quote (c :: (escaped quote cs ++ quote :: rest)) = _
      rw [stringBody_cons hc.1, if_neg hc.2, ih]
      rfl

theorem scans_string (s : String) : Scans (Lexeme.string s).spelling [.string s] := by
  have hbody := stringBody_escaped '"' (by decide) s.toList []
  have hstep := Step.string (.inl rfl) hbody
  rw [String.ofList_toList] at hstep
  exact .step hstep .done

/-! ## Words and symbols -/

theorem scans_word {c : Char} {w : List Char} (hc : isLetter c = true) (hw : ∀ x ∈ w, isWordChar x = true) :
    Scans (c :: w) [wordLexeme (String.ofList (c :: w))] := by
  have hstop : StopsAt isWordChar [] := by simp [StopsAt]
  have hstep := Step.word hc hw hstop
  rw [List.append_nil] at hstep
  exact .step hstep .done

theorem scans_name {s : String} (h : isName s = true) : Scans s.toList [.name s] := by
  unfold isName at h
  split at h
  · cases h
  · next c w hs =>
    simp only [Bool.and_eq_true, List.all_eq_true, Option.isNone_iff_eq_none] at h
    obtain ⟨⟨hc, hw⟩, hk⟩ := h
    have hscan := scans_word hc hw
    rw [← hs, String.ofList_toList, wordLexeme, hk] at hscan
    exact hscan

theorem scans_keyword (k : Keyword) : Scans k.text.toList [.keyword k] := by
  have hword : ∃ c w, k.text.toList = c :: w ∧ isLetter c = true ∧ (∀ x ∈ w, isWordChar x = true) ∧
      wordLexeme (String.ofList (c :: w)) = .keyword k := by
    cases k
    all_goals exact ⟨_, _, rfl, by decide, List.all_eq_true.1 rfl, by rfl⟩
  obtain ⟨c, w, hs, hc, hw, hk⟩ := hword
  rw [hs, ← hk]
  exact scans_word hc hw

theorem scans_plain {c : Char} {s : Symbol} (h : plainSymbol? c = some s) : Scans [c] [.symbol s] :=
  .step (.plain h) .done

theorem scans_long {c : Char} {e : Extension} (h : extension? c = some e) : Scans [c, e.second] [.symbol e.long] :=
  .step (.long h) .done

theorem scans_short {c : Char} {e : Extension} {s : Symbol} (h : extension? c = some e) (hs : e.short = some s) :
    Scans [c] [.symbol s] :=
  .step (.short h hs (by simp [StopsAt])) .done

theorem scans_symbol : ∀ s : Symbol, Scans s.spelling [.symbol s]
  | .plus | .percent | .openParen | .closeParen | .openSquare | .closeSquare | .comma => scans_plain rfl
  | .sameAs => scans_long (c := '=') rfl
  | .differs => scans_long (c := '!') rfl
  | .atMost => scans_long (c := '<') rfl
  | .atLeast => scans_long (c := '>') rfl
  | .doubleSlash => scans_long (c := '/') rfl
  | .power => scans_long (c := '*') rfl
  | .arrow => scans_long (c := '-') rfl
  | .equals | .less | .greater | .minus | .times | .slash => scans_short rfl rfl

/-! ## Rows -/

theorem scans_spelling {l : Lexeme} (h : l.isWritable = true) : Scans l.spelling [l] := by
  cases l with
  | numeral n =>
    cases n with
    | whole n =>
      rw [Lexeme.isWritable, decide_eq_true_eq] at h
      exact scans_whole h
    | decimal x => cases h
  | string s => exact scans_string s
  | name s => exact scans_name h
  | keyword k => exact scans_keyword k
  | symbol s => exact scans_symbol s
  | newline => exact .step (.newline (.inr rfl)) .done
  | eof => cases h

/-- **A row of lexemes that is written down is scanned to itself.** -/
theorem scans_spell {ls : List Lexeme} (h : ∀ l ∈ ls, l.isWritable = true) : Scans (spell ls).toList ls := by
  rw [spell, String.toList_ofList]
  induction ls with
  | nil => exact .done
  | cons l ls ih =>
    have hl := scans_spelling (h l List.mem_cons_self)
    have hls := ih fun x hx => h x (List.mem_cons_of_mem l hx)
    have hblank : Scans (' ' :: ls.flatMap fun l => l.spelling ++ [' ']) ls := .step (.blank (.inl rfl)) hls
    rw [List.flatMap_cons, List.append_assoc]
    exact hl.append (.inl rfl) hblank

end Scriptlet
