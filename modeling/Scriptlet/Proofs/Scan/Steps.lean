import Scriptlet.Token.Scan
/-!
# What the scanner reads

`Step cs l rest` says, without positions, what the scanner does at the front of a text: it reads the lexeme `l`, or nothing
but a blank, and goes on at `rest`.  There is one constructor for each kind of lexeme, and together they are all that the
scanner can do (`readAt_step`, `Step.readAt`).  `Scans cs ls` puts such steps together up to the end of the text, and is
what scanning comes to once the positions are left out (`scans_iff`).

Blanks, tabs, newlines and semicolons extend no lexeme.  So a text that can be scanned is scanned to the same lexemes in
front of one of them, and the lexemes of the text that begins there follow (`Scans.append`).
-/
namespace Scriptlet.Scan

/-! ## One step -/

/-- The text does not begin with a character of the class. -/
def StopsAt (p : Char → Bool) (cs : List Char) : Prop := ∀ c ∈ cs.head?, p c = false

/-- What the scanner reads at the front of a text, and where it goes on. -/
inductive Step : List Char → Option Lexeme → List Char → Prop where
  | blank {c : Char} {cs : List Char} : c = ' ' ∨ c = '\t' → Step (c :: cs) none cs
  | newline {c : Char} {cs : List Char} : c = ';' ∨ c = '\n' → Step (c :: cs) (some .newline) cs
  | whole {ds rest : List Char} : ds ≠ [] → (∀ d ∈ ds, isDigit d = true) → StopsAt (fun c => isDigit c || c = '.') rest →
      ds.length ≤ Text.digitLimit → Step (ds ++ rest) (some (.numeral (.whole (Text.natOfDigits ds)))) rest
  | decimal {ds rest : List Char} : ds ≠ [] → (∀ d ∈ ds, isDigit d = true) →
      Step (ds ++ '.' :: rest) (some (.numeral (.decimal (decimalOf ds)))) rest
  | word {c : Char} {w rest : List Char} : isLetter c = true → (∀ x ∈ w, isWordChar x = true) → StopsAt isWordChar rest →
      Step (c :: (w ++ rest)) (some (wordLexeme (String.ofList (c :: w)))) rest
  | string {quote : Char} {cs content read rest : List Char} : quote = '"' ∨ quote = '\'' →
      stringBody quote cs = (content, read, some rest) →
      Step (quote :: cs) (some (.string (String.ofList content))) rest
  | long {c : Char} {e : Extension} {rest : List Char} : extension? c = some e →
      Step (c :: e.second :: rest) (some (.symbol e.long)) rest
  | short {c : Char} {e : Extension} {s : Symbol} {rest : List Char} : extension? c = some e → e.short = some s →
      StopsAt (fun x => x = e.second) rest → Step (c :: rest) (some (.symbol s)) rest
  | plain {c : Char} {s : Symbol} {rest : List Char} : plainSymbol? c = some s →
      Step (c :: rest) (some (.symbol s)) rest

theorem stopsAt_dropWhile (p : Char → Bool) (cs : List Char) : StopsAt p (cs.dropWhile p) := by
  intro c hc
  have := List.head?_dropWhile_not p cs
  rw [Option.mem_def.1 hc] at this
  simpa using this

theorem takeWhile_append {p : Char → Bool} {cs rest : List Char} (h : ∀ c ∈ cs, p c = true) (hr : StopsAt p rest) :
    (cs ++ rest).takeWhile p = cs := by
  rw [List.takeWhile_append_of_pos h]
  cases rest with
  | nil => simp
  | cons c rest => rw [List.takeWhile_cons_of_neg (by simp [hr c rfl]), List.append_nil]

theorem dropWhile_append {p : Char → Bool} {cs rest : List Char} (h : ∀ c ∈ cs, p c = true) (hr : StopsAt p rest) :
    (cs ++ rest).dropWhile p = rest := by
  rw [List.dropWhile_append_of_pos h]
  cases rest with
  | nil => rfl
  | cons c rest => rw [List.dropWhile_cons_of_neg (by simp [hr c rfl])]

theorem isWordChar_of_isLetter {c : Char} (h : isLetter c = true) : isWordChar c = true := by
  simp [isWordChar, h]

/-! ## What is read at a character -/

section Digits

variable {ds : List Char} (hds : ∀ d ∈ ds, isDigit d = true) (p : Position)

include hds

/-- A dot ends a number, whatever follows. -/
theorem readNumber_dot (rest : List Char) :
    readNumber p (ds ++ '.' :: rest) = .ok (emit (.numeral (.decimal (decimalOf ds))) p (ds ++ ['.']) rest) := by
  have hdot : StopsAt isDigit ('.' :: rest) := by
    rintro c ⟨⟩
    decide
  rw [readNumber, takeWhile_append hds hdot, dropWhile_append hds hdot]
  rfl

theorem readNumber_whole {rest : List Char} (hstop : StopsAt (fun c => isDigit c || c = '.') rest) :
    readNumber p (ds ++ rest) = if Text.digitLimit < ds.length then .error (.fault .digitLimit)
      else .ok (emit (.numeral (.whole (Text.natOfDigits ds))) p ds rest) := by
  have hdigit : StopsAt isDigit rest := fun c hc => (Bool.or_eq_false_iff.1 (hstop c hc)).1
  have hdot : ∀ after, rest ≠ '.' :: after := by
    rintro after rfl
    exact absurd (hstop '.' rfl) (by decide)
  rw [readNumber, takeWhile_append hds hdigit, dropWhile_append hds hdigit]
  split
  · exact absurd rfl (hdot _)
  · rfl

end Digits

section Readings

variable {p : Position} {c : Char} {e : Extension} {cs : List Char} {r : Read}

/-- A number is a row of digits with a dot, or one that neither a digit nor a dot follows. -/
theorem readNumber_eq_ok (hc : isDigit c = true) (h : readNumber p (c :: cs) = .ok r) :
    ∃ ds rest, ds ≠ [] ∧ (∀ d ∈ ds, isDigit d = true) ∧
      (c :: cs = ds ++ '.' :: rest ∧ r = emit (.numeral (.decimal (decimalOf ds))) p (ds ++ ['.']) rest ∨
        c :: cs = ds ++ rest ∧ StopsAt (fun c => isDigit c || c = '.') rest ∧ ds.length ≤ Text.digitLimit ∧
          r = emit (.numeral (.whole (Text.natOfDigits ds))) p ds rest) := by
  have hne : (c :: cs).takeWhile isDigit ≠ [] := by simp [List.takeWhile_cons_of_pos hc]
  have hall : ∀ d ∈ (c :: cs).takeWhile isDigit, isDigit d = true := List.all_eq_true.1 List.all_takeWhile
  have hstop := stopsAt_dropWhile isDigit (c :: cs)
  have hsplit : (c :: cs).takeWhile isDigit ++ (c :: cs).dropWhile isDigit = c :: cs := List.takeWhile_append_dropWhile
  generalize (c :: cs).takeWhile isDigit = ds at *
  generalize (c :: cs).dropWhile isDigit = rest at *
  rw [← hsplit] at h
  by_cases hdot : ∃ tail, rest = '.' :: tail
  · obtain ⟨tail, rfl⟩ := hdot
    rw [readNumber_dot hall] at h
    cases h
    exact ⟨ds, tail, hne, hall, .inl ⟨hsplit.symm, rfl⟩⟩
  · have hstop' : StopsAt (fun c => isDigit c || c = '.') rest := by
      intro x hx
      have hx' : x ≠ '.' := by
        rintro rfl
        exact hdot (List.head?_eq_some_iff.1 hx)
      simp [hstop x hx, hx']
    rw [readNumber_whole hall p hstop'] at h
    split at h
    · cases h
    · next hlimit =>
      cases h
      exact ⟨ds, rest, hne, hall, .inr ⟨hsplit.symm, hstop', Nat.le_of_not_lt hlimit, rfl⟩⟩

theorem readWord_eq (p : Position) (hc : isLetter c = true) (cs : List Char) :
    readWord p (c :: cs) = emit (wordLexeme (String.ofList (c :: cs.takeWhile isWordChar))) p
      (c :: cs.takeWhile isWordChar) (cs.dropWhile isWordChar) := by
  have hword := isWordChar_of_isLetter hc
  rw [readWord, List.takeWhile_cons_of_pos hword, List.dropWhile_cons_of_pos hword]

theorem readString_eq_ok (h : readString p c cs = .ok r) : ∃ content read rest,
    stringBody c cs = (content, read, some rest) ∧ r = emit (.string (String.ofList content)) p (c :: read) rest := by
  obtain ⟨⟨content, read, after⟩, hbody⟩ : ∃ body, stringBody c cs = body := ⟨_, rfl⟩
  simp only [readString, hbody] at h
  cases after with
  | none => cases h
  | some rest =>
    cases h
    exact ⟨content, read, rest, hbody, rfl⟩

theorem readExtensible_decline (hstop : StopsAt (fun x => x = e.second) cs) :
    readExtensible p c e cs = readExtensible.decline p c e cs cs.head? := by
  cases cs with
  | nil => rfl
  | cons x rest =>
    have hx : ¬x = e.second := of_decide_eq_false (hstop x rfl)
    rw [readExtensible, if_neg hx]
    rfl

/-- A symbol is the long one, or the short one, and then the position has looked at the character after it. -/
theorem readExtensible_eq_ok (h : readExtensible p c e cs = .ok r) :
    (∃ rest, cs = e.second :: rest ∧ r = emit (.symbol e.long) p [c, e.second] rest) ∨
      ∃ s, e.short = some s ∧ StopsAt (fun x => x = e.second) cs ∧
        r = ⟨some ⟨.symbol s, p, ((p.next (some c)).next cs.head?).back⟩, cs, ((p.next (some c)).next cs.head?).back⟩ := by
  by_cases hlong : ∃ rest, cs = e.second :: rest
  · obtain ⟨rest, rfl⟩ := hlong
    rw [readExtensible, if_pos rfl] at h
    cases h
    exact .inl ⟨rest, rfl, rfl⟩
  · have hstop : StopsAt (fun x => x = e.second) cs := by
      intro x hx
      refine decide_eq_false ?_
      rintro rfl
      exact hlong (List.head?_eq_some_iff.1 hx)
    rw [readExtensible_decline hstop, readExtensible.decline] at h
    split at h
    · next s hs =>
      cases h
      exact .inr ⟨s, hs, hstop, rfl⟩
    · cases h

end Readings

/-! ## The steps are those of the scanner -/

/-- Whatever the scanner reads is a step. -/
theorem readAt_step {p : Position} {c : Char} {cs : List Char} {r : Read} (h : readAt p c cs = .ok r) :
    Step (c :: cs) (r.token?.map Token.lexeme) r.rest := by
  rw [readAt] at h
  split at h
  · next hc =>
    cases h
    exact .blank hc
  split at h
  · next hc =>
    cases h
    exact .newline hc
  split at h
  · next hc =>
    obtain ⟨ds, rest, hne, hall, ⟨hcs, rfl⟩ | ⟨hcs, hstop, hlimit, rfl⟩⟩ := readNumber_eq_ok hc h
    · rw [hcs]
      exact .decimal hne hall
    · rw [hcs]
      exact .whole hne hall hstop hlimit
  split at h
  · next hc =>
    cases h
    have hall : ∀ x ∈ cs.takeWhile isWordChar, isWordChar x = true := List.all_eq_true.1 List.all_takeWhile
    have hstep := Step.word hc hall (stopsAt_dropWhile isWordChar cs)
    rw [List.takeWhile_append_dropWhile] at hstep
    rw [readWord_eq p hc]
    exact hstep
  split at h
  · next hc =>
    obtain ⟨content, read, rest, hbody, rfl⟩ := readString_eq_ok h
    exact .string hc hbody
  split at h
  · next e he =>
    obtain ⟨rest, rfl, rfl⟩ | ⟨s, hs, hstop, rfl⟩ := readExtensible_eq_ok h
    · exact .long he
    · exact .short he hs hstop
  · next s hs =>
    cases h
    exact .plain hs
  · cases h

section Classes

variable {c : Char} (p : Position) (cs : List Char)

theorem readAt_newline (h : c = ';' ∨ c = '\n') :
    readAt p c cs = .ok ⟨some ⟨.newline, .single p⟩, cs, p.next (some c)⟩ := by
  have hblank : ¬(c = ' ' ∨ c = '\t') := by rcases h with rfl | rfl <;> decide
  rw [readAt, if_neg hblank, if_pos h]

theorem readAt_digit (h : isDigit c = true) : readAt p c cs = readNumber p (c :: cs) := by
  have hblank : ¬(c = ' ' ∨ c = '\t') := by
    rintro (rfl | rfl)
    all_goals exact absurd h (by decide)
  have hline : ¬(c = ';' ∨ c = '\n') := by
    rintro (rfl | rfl)
    all_goals exact absurd h (by decide)
  rw [readAt, if_neg hblank, if_neg hline, if_pos h]

theorem readAt_letter (h : isLetter c = true) : readAt p c cs = .ok (readWord p (c :: cs)) := by
  have hblank : ¬(c = ' ' ∨ c = '\t') := by
    rintro (rfl | rfl)
    all_goals exact absurd h (by decide)
  have hline : ¬(c = ';' ∨ c = '\n') := by
    rintro (rfl | rfl)
    all_goals exact absurd h (by decide)
  have hdigit : ¬isDigit c = true := by
    have h9 : '9'.val.toNat < 'A'.val.toNat ∧ '9'.val.toNat < 'a'.val.toNat := by decide
    simp only [isLetter, isDigit, Bool.or_eq_true, Bool.and_eq_true, decide_eq_true_eq, Char.le_def,
      UInt32.le_iff_toNat_le] at h ⊢
    omega
  rw [readAt, if_neg hblank, if_neg hline, if_neg hdigit, if_pos h]

theorem readAt_quote (h : c = '"' ∨ c = '\'') : readAt p c cs = readString p c cs := by
  rcases h with rfl | rfl
  · rw [readAt, if_neg (by decide), if_neg (by decide), if_neg (by decide), if_neg (by decide), if_pos (.inl rfl)]
  · rw [readAt, if_neg (by decide), if_neg (by decide), if_neg (by decide), if_neg (by decide), if_pos (.inr rfl)]

theorem readAt_extension {e : Extension} (h : extension? c = some e) : readAt p c cs = readExtensible p c e cs := by
  have hclass : ¬(c = ' ' ∨ c = '\t') ∧ ¬(c = ';' ∨ c = '\n') ∧ ¬isDigit c = true ∧ ¬isLetter c = true ∧
      ¬(c = '"' ∨ c = '\'') := by
    unfold extension? at h
    split at h
    case h_8 => cases h
    all_goals decide
  obtain ⟨hblank, hline, hdigit, hletter, hquote⟩ := hclass
  rw [readAt, if_neg hblank, if_neg hline, if_neg hdigit, if_neg hletter, if_neg hquote, h]

theorem readAt_plain {s : Symbol} (h : plainSymbol? c = some s) :
    readAt p c cs = .ok ⟨some ⟨.symbol s, .single p⟩, cs, p.next (some c)⟩ := by
  have hclass : ¬(c = ' ' ∨ c = '\t') ∧ ¬(c = ';' ∨ c = '\n') ∧ ¬isDigit c = true ∧ ¬isLetter c = true ∧
      ¬(c = '"' ∨ c = '\'') ∧ extension? c = none := by
    unfold plainSymbol? at h
    split at h
    case h_8 => cases h
    all_goals decide
  obtain ⟨hblank, hline, hdigit, hletter, hquote, hext⟩ := hclass
  rw [readAt, if_neg hblank, if_neg hline, if_neg hdigit, if_neg hletter, if_neg hquote, hext, h]

end Classes

theorem head_isDigit {c : Char} {cs ds rest : List Char} (hne : ds ≠ []) (hall : ∀ d ∈ ds, isDigit d = true)
    (h : c :: cs = ds ++ rest) : isDigit c = true := by
  cases ds with
  | nil => exact absurd rfl hne
  | cons d ds =>
    cases h
    exact hall c List.mem_cons_self

/-- Every step is one that the scanner makes, wherever it stands. -/
theorem Step.readAt {c : Char} {cs rest : List Char} {l : Option Lexeme} (h : Step (c :: cs) l rest) (p : Position) :
    ∃ r, Scan.readAt p c cs = .ok r ∧ r.token?.map Token.lexeme = l ∧ r.rest = rest := by
  generalize hcs : c :: cs = ds at h
  cases h with
  | blank hc =>
    cases hcs
    exact ⟨_, by rw [Scan.readAt, if_pos hc], rfl, rfl⟩
  | newline hc =>
    cases hcs
    exact ⟨_, readAt_newline p cs hc, rfl, rfl⟩
  | @whole ds _ hne hall hstop hlimit =>
    refine ⟨emit (.numeral (.whole (Text.natOfDigits ds))) p ds rest, ?_, rfl, rfl⟩
    rw [readAt_digit p cs (head_isDigit hne hall hcs), hcs, readNumber_whole hall p hstop, if_neg (Nat.not_lt.2 hlimit)]
  | @decimal ds _ hne hall =>
    refine ⟨emit (.numeral (.decimal (decimalOf ds))) p (ds ++ ['.']) rest, ?_, rfl, rfl⟩
    rw [readAt_digit p cs (head_isDigit hne hall hcs), hcs, readNumber_dot hall]
  | word hc hall hstop =>
    cases hcs
    refine ⟨_, (readAt_letter p _ hc).trans (congrArg _ (readWord_eq p hc _)), ?_, dropWhile_append hall hstop⟩
    rw [takeWhile_append hall hstop]
    rfl
  | @string _ _ content read _ hq hbody =>
    cases hcs
    refine ⟨emit (.string (String.ofList content)) p (c :: read) rest, ?_, rfl, rfl⟩
    rw [readAt_quote p cs hq, readString, hbody]
  | @long _ e _ he =>
    cases hcs
    refine ⟨emit (.symbol e.long) p [c, e.second] rest, ?_, rfl, rfl⟩
    rw [readAt_extension p _ he, readExtensible, if_pos rfl]
  | @short _ e s _ he hs hstop =>
    cases hcs
    rw [readAt_extension p cs he, readExtensible_decline hstop, readExtensible.decline, hs]
    exact ⟨_, rfl, rfl, rfl⟩
  | plain hs =>
    cases hcs
    exact ⟨_, readAt_plain p cs hs, rfl, rfl⟩

/-! ## The whole text -/

/-- The lexemes of a text, without the mark of the end. -/
inductive Scans : List Char → List Lexeme → Prop where
  | done : Scans [] []
  | step {cs rest : List Char} {l : Option Lexeme} {ls : List Lexeme} : Step cs l rest → Scans rest ls →
      Scans cs (l.toList ++ ls)

theorem stringBody_cons {quote c : Char} (hc : c ≠ '\\') (cs : List Char) : stringBody quote (c :: cs) =
    if c = quote then ([], [c], some cs)
    else (c :: (stringBody quote cs).1, c :: (stringBody quote cs).2.1, (stringBody quote cs).2.2) :=
  stringBody.eq_4 quote c cs (fun h _ => hc h) (fun _ _ h _ => hc h)

/-- A string that is closed is closed in front of anything else that follows. -/
theorem stringBody_read {quote : Char} {cs content read rest : List Char}
    (h : stringBody quote cs = (content, read, some rest)) :
    cs = read ++ rest ∧ ∀ ds, stringBody quote (read ++ ds) = (content, read, some ds) := by
  have not_slash : ∀ {c : Char} {cs : List Char}, (c = '\\' → cs = [] → False) →
      (∀ x xs, c = '\\' → cs = x :: xs → False) → c ≠ '\\' := by
    intro c cs hnil hcons hc
    cases cs with
    | nil => exact hnil hc rfl
    | cons x xs => exact hcons x xs hc rfl
  fun_induction stringBody quote cs generalizing content read rest with
  | case1 | case2 => cases h
  | case3 c cs content' read' after hbody =>
    rename_i ih
    cases h
    obtain ⟨hsplit, hread⟩ := ih hbody
    refine ⟨by rw [hsplit]; rfl, fun ds => ?_⟩
    rw [List.cons_append, List.cons_append, stringBody, hread]
  | case4 cs hnil hcons =>
    cases h
    refine ⟨rfl, fun ds => ?_⟩
    rw [List.cons_append, List.nil_append, stringBody_cons (not_slash hnil hcons), if_pos rfl]
  | case5 c cs hnil hcons hquote content' read' after hbody ih =>
    cases h
    obtain ⟨hsplit, hread⟩ := ih hbody
    refine ⟨by rw [hsplit]; rfl, fun ds => ?_⟩
    rw [List.cons_append, stringBody_cons (not_slash hnil hcons), if_neg hquote, hread]

theorem Step.length_lt {cs rest : List Char} {l : Option Lexeme} (h : Step cs l rest) : rest.length < cs.length := by
  cases h with
  | whole hne =>
    have := List.length_pos_iff.2 hne
    rw [List.length_append]
    omega
  | string hq hbody =>
    rw [(stringBody_read hbody).1, List.length_cons, List.length_append]
    omega
  | _ =>
    simp only [List.length_append, List.length_cons]
    omega

theorem Step.ne_eof {cs rest : List Char} {l : Lexeme} (h : Step cs (some l) rest) : l ≠ .eof := by
  cases h with
  | word =>
    rw [wordLexeme]
    split <;> simp
  | _ => simp

theorem Scans.ne_eof {cs : List Char} {ls : List Lexeme} (h : Scans cs ls) : ∀ l ∈ ls, l ≠ .eof := by
  induction h with
  | done => simp
  | @step _ _ l _ hstep _ ih =>
    intro x hx
    rcases List.mem_append.1 hx with hx | hx
    · cases l with
      | none => cases hx
      | some l =>
        cases List.mem_singleton.1 hx
        exact hstep.ne_eof
    · exact ih x hx

/-- What is read at a place stands in front of the tokens from there on. -/
theorem tokensFrom_cons (fuel : Nat) {p : Position} {c : Char} {cs : List Char} {r : Read} (h : readAt p c cs = .ok r) :
    tokensFrom (fuel + 1) p (c :: cs) = (tokensFrom fuel r.position r.rest).map (r.token?.toList ++ ·) := by
  rw [tokensFrom, h]
  rfl

theorem tokensFrom_cons_eq_ok {fuel : Nat} {p : Position} {c : Char} {cs : List Char} {tokens : List Token}
    (h : tokensFrom (fuel + 1) p (c :: cs) = .ok tokens) : ∃ r tail, readAt p c cs = .ok r ∧
      tokensFrom fuel r.position r.rest = .ok tail ∧ tokens = r.token?.toList ++ tail := by
  cases hr : readAt p c cs with
  | error e =>
    rw [tokensFrom, hr] at h
    cases h
  | ok r =>
    rw [tokensFrom_cons fuel hr] at h
    cases ht : tokensFrom fuel r.position r.rest with
    | error e =>
      rw [ht] at h
      cases h
    | ok tail =>
      rw [ht] at h
      cases h
      exact ⟨r, tail, rfl, ht, rfl⟩

theorem tokensFrom_scans : ∀ (fuel : Nat) (p : Position) (cs : List Char) (tokens : List Token), cs.length ≤ fuel →
    tokensFrom fuel p cs = .ok tokens → ∃ ls, tokens.map Token.lexeme = ls ++ [.eof] ∧ Scans cs ls
  | fuel, p, [], tokens, _, h => by
    rw [tokensFrom] at h
    cases h
    exact ⟨[], rfl, .done⟩
  | 0, _, _ :: _, _, hfuel, _ => absurd hfuel (by simp)
  | fuel + 1, p, c :: cs, tokens, hfuel, h => by
    obtain ⟨r, tail, hr, ht, rfl⟩ := tokensFrom_cons_eq_ok h
    have hlt := (readAt_step hr).length_lt
    rw [List.length_cons] at hfuel hlt
    obtain ⟨ls, hls, hscans⟩ := tokensFrom_scans fuel r.position r.rest tail (by omega) ht
    refine ⟨_, ?_, .step (readAt_step hr) hscans⟩
    rw [List.map_append, hls, List.append_assoc]
    cases r.token? <;> rfl

/-- At a step scanning goes on behind it, with its token in front of the others. -/
theorem Step.tokensFrom {cs rest : List Char} {l : Option Lexeme} (h : Step cs l rest) {fuel : Nat} (p : Position)
    (hfuel : cs.length ≤ fuel) : ∃ fuel' q, ∃ token? : Option Token, rest.length ≤ fuel' ∧
      token?.map Token.lexeme = l ∧
      Scan.tokensFrom fuel p cs = (Scan.tokensFrom fuel' q rest).map (token?.toList ++ ·) := by
  have hlt := h.length_lt
  obtain ⟨c, cs, rfl⟩ : ∃ c cs', cs = c :: cs' := List.exists_cons_of_length_pos (by omega)
  obtain ⟨fuel, rfl⟩ : ∃ k, fuel = k + 1 := ⟨fuel - 1, by rw [List.length_cons] at hfuel; omega⟩
  obtain ⟨r, hr, hl, rfl⟩ := h.readAt p
  rw [List.length_cons] at hfuel hlt
  exact ⟨fuel, r.position, r.token?, by omega, hl, tokensFrom_cons fuel hr⟩

theorem Scans.tokensFrom {cs : List Char} {ls : List Lexeme} (h : Scans cs ls) :
    ∀ (fuel : Nat) (p : Position), cs.length ≤ fuel →
      ∃ tokens, Scan.tokensFrom fuel p cs = .ok tokens ∧ tokens.map Token.lexeme = ls ++ [.eof] := by
  induction h with
  | done => exact fun fuel p _ => ⟨_, by rw [Scan.tokensFrom], rfl⟩
  | step hstep _ ih =>
    intro fuel p hfuel
    obtain ⟨fuel', q, token?, hfuel', rfl, heq⟩ := hstep.tokensFrom p hfuel
    obtain ⟨tail, ht, hls⟩ := ih fuel' q hfuel'
    refine ⟨token?.toList ++ tail, ?_, ?_⟩
    · rw [heq, ht]
      rfl
    · rw [List.map_append, hls, List.append_assoc]
      cases token? <;> rfl

/-- **Scanning a source comes to the steps of its text**: it succeeds exactly if they lead to the end of the text, and then
the tokens carry their lexemes and the mark of the end. -/
theorem scans_iff {source : Source} {ls : List Lexeme} : Scans source.text.toList ls ↔
    ∃ tokens, Scan.tokens source = .ok tokens ∧ tokens.map Token.lexeme = ls ++ [.eof] := by
  have hlength : source.text.toList.length ≤ source.text.length := Nat.le_of_eq String.length_toList
  constructor
  · exact fun h => h.tokensFrom _ _ hlength
  · rintro ⟨tokens, ht, hls⟩
    obtain ⟨ls', hls', hscans⟩ := tokensFrom_scans _ _ _ _ hlength ht
    rw [hls] at hls'
    cases List.append_cancel_right hls'
    exact hscans

/-! ## Texts side by side -/

/-- The characters that extend no lexeme. -/
def IsSeparator (c : Char) : Prop := c = ' ' ∨ c = '\t' ∨ c = ';' ∨ c = '\n'

theorem second_not_separator {c : Char} {e : Extension} (h : extension? c = some e) : ¬IsSeparator e.second := by
  unfold extension? at h
  split at h
  case h_8 => cases h
  all_goals
    cases h
    simp [IsSeparator]

theorem stopsAt_append {p : Char → Bool} {rest : List Char} (h : StopsAt p rest) {c : Char} (hc : p c = false)
    (cs : List Char) : StopsAt p (rest ++ c :: cs) := by
  intro x hx
  cases rest with
  | nil =>
    cases hx
    exact hc
  | cons y rest =>
    cases hx
    exact h _ rfl

/-- In front of a separator the scanner makes the same step. -/
theorem Step.append {cs rest : List Char} {l : Option Lexeme} (h : Step cs l rest) {x : Char} (hx : IsSeparator x)
    (ds : List Char) : Step (cs ++ x :: ds) l (rest ++ x :: ds) := by
  cases h with
  | blank hc => exact .blank hc
  | newline hc => exact .newline hc
  | whole hne hall hstop hlimit =>
    rw [List.append_assoc]
    exact .whole hne hall (stopsAt_append hstop (by rcases hx with rfl | rfl | rfl | rfl <;> decide) ds) hlimit
  | decimal hne hall =>
    rw [List.append_assoc]
    exact .decimal hne hall
  | word hc hall hstop =>
    rw [List.cons_append, List.append_assoc]
    exact .word hc hall (stopsAt_append hstop (by rcases hx with rfl | rfl | rfl | rfl <;> decide) ds)
  | string hq hbody =>
    obtain ⟨hsplit, hread⟩ := stringBody_read hbody
    rw [hsplit, List.cons_append, List.append_assoc]
    exact .string hq (hread _)
  | long he => exact .long he
  | short he hs hstop =>
    refine .short he hs (stopsAt_append hstop (decide_eq_false ?_) ds)
    rintro rfl
    exact second_not_separator he hx
  | plain hs => exact .plain hs

/-- **A text in front of a separator keeps its lexemes**, and those of the text that begins with the separator follow. -/
theorem Scans.append {cs : List Char} {ls : List Lexeme} (h : Scans cs ls) {x : Char} (hx : IsSeparator x)
    {ds : List Char} {ms : List Lexeme} (h' : Scans (x :: ds) ms) : Scans (cs ++ x :: ds) (ls ++ ms) := by
  induction h with
  | done => exact h'
  | step hstep _ ih =>
    rw [List.append_assoc]
    exact .step (hstep.append hx ds) ih

end Scriptlet.Scan
