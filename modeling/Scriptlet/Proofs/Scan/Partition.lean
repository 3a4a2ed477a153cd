import Scriptlet.Proofs.Spelling.Lexemes
/-!
# Tokens partition their text

`Taken p cs r read` says what one reading does to the text: it takes the characters `read` from its front, makes the token of
exactly these characters or passes over a blank, and leaves the position after them.  `Tiled` puts such readings together up to
the end of the text, and every successful scan is one (`tokens_tiled`).

From this the spans of the tokens can be read off: they follow one another without touching, and what lies between them is
blank.  Each of them is scanned to its own lexeme when it stands alone, and a blank ends every lexeme, so the pieces joined
with blanks are scanned to the same lexemes (`tokens_partition`).
-/
namespace Scriptlet

theorem Position.next_index (p : Position) (c : Option Char) : (p.next c).index = p.index + 1 := by
  unfold Position.next
  split <;> rfl

theorem Position.advance_index (p : Position) (cs : List Char) : (p.advance cs).index = p.index + cs.length := by
  induction cs generalizing p with
  | nil => simp [Position.advance]
  | cons c cs ih =>
    have hcons : p.advance (c :: cs) = (p.next (some c)).advance cs := rfl
    rw [hcons, ih, Position.next_index, List.length_cons]
    omega

/-- The symbol has been decided by a look at the character after it. -/
def Lexeme.looksAhead : Lexeme → Bool
  | .symbol .equals | .symbol .less | .symbol .greater | .symbol .minus | .symbol .times | .symbol .slash => true
  | _ => false

namespace Token

/-- The characters of a text that the token was read from. -/
def slice (text : List Char) (t : Token) : List Char :=
  (text.drop t.span.start.index.toNat).take (t.span.stop.index - t.span.start.index).toNat

/-- The token was read from the character with this index, among others. -/
def covers (t : Token) (i : Nat) : Bool := t.span.start.index ≤ i && i < t.span.stop.index

end Token

namespace Scan

/-! ## Lexemes that stand alone -/

theorem scans_digits {ds : List Char} (hne : ds ≠ []) (hall : ∀ d ∈ ds, isDigit d = true)
    (hlimit : ds.length ≤ Text.digitLimit) : Scans ds [.numeral (.whole (Text.natOfDigits ds))] := by
  have hstop : StopsAt (fun c => isDigit c || c = '.') [] := by simp [StopsAt]
  have hstep := Step.whole hne hall hstop hlimit
  rw [List.append_nil] at hstep
  exact .step hstep .done

theorem scans_decimal {ds : List Char} (hne : ds ≠ []) (hall : ∀ d ∈ ds, isDigit d = true) :
    Scans (ds ++ ['.']) [.numeral (.decimal (decimalOf ds))] :=
  .step (.decimal hne hall) .done

theorem scans_quoted {quote : Char} {cs content read rest : List Char} (hq : quote = '"' ∨ quote = '\'')
    (h : stringBody quote cs = (content, read, some rest)) :
    Scans (quote :: read) [.string (String.ofList content)] := by
  have hread := (stringBody_read h).2 []
  rw [List.append_nil] at hread
  exact .step (.string hq hread) .done

theorem looksAhead_short {c : Char} {e : Extension} {s : Symbol} (h : extension? c = some e) (hs : e.short = some s) :
    (Lexeme.symbol s).looksAhead = true := by
  unfold extension? at h
  split at h
  case h_8 => cases h
  all_goals
    cases h
    cases hs <;> rfl

theorem looksAhead_long {c : Char} {e : Extension} (h : extension? c = some e) :
    (Lexeme.symbol e.long).looksAhead = false := by
  unfold extension? at h
  split at h
  case h_8 => cases h
  all_goals
    cases h
    rfl

theorem looksAhead_plain {c : Char} {s : Symbol} (h : plainSymbol? c = some s) :
    (Lexeme.symbol s).looksAhead = false := by
  unfold plainSymbol? at h
  split at h
  case h_8 => cases h
  all_goals
    cases h
    rfl

theorem looksAhead_word (w : String) : (wordLexeme w).looksAhead = false := by
  unfold wordLexeme
  split <;> rfl

/-! ## One reading -/

/-- A reading takes `read` from the front of `cs`. -/
structure Taken (p : Position) (cs : List Char) (r : Read) (read : List Char) : Prop where
  split : cs = read ++ r.rest
  blank : r.token? = none → ∃ c, read = [c] ∧ (c = ' ' ∨ c = '\t') ∧ r.position = p.advance read
  token : ∀ t, r.token? = some t → read ≠ [] ∧ Scans read [t.lexeme] ∧ t.span.start = p ∧
    t.span.stop.index = p.index + read.length ∧
    r.position = if t.lexeme.looksAhead then ((p.advance read).next r.rest.head?).back else p.advance read

/-- A token of the characters that the position has gone over. -/
theorem taken_emit (p : Position) {l : Lexeme} {read : List Char} (hne : read ≠ []) (hscan : Scans read [l])
    (hl : l.looksAhead = false) (rest : List Char) : Taken p (read ++ rest) (emit l p read rest) read where
  split := rfl
  blank h := by cases h
  token t h := by
    cases h
    exact ⟨hne, hscan, rfl, p.advance_index read, by simp [emit, hl]⟩

/-- A token of a single character. -/
theorem taken_single {p : Position} {l : Lexeme} {c : Char} {rest : List Char} (hscan : Scans [c] [l])
    (hl : l.looksAhead = false) : Taken p (c :: rest) ⟨some ⟨l, .single p⟩, rest, p.next (some c)⟩ [c] where
  split := rfl
  blank h := by cases h
  token t h := by
    cases h
    exact ⟨by simp, hscan, rfl, p.next_index none, by simp [hl, Position.advance]⟩

theorem readNumber_taken {p : Position} {c : Char} {cs : List Char} {r : Read} (hc : isDigit c = true)
    (h : readNumber p (c :: cs) = .ok r) : ∃ read, Taken p (c :: cs) r read := by
  obtain ⟨ds, rest, hne, hall, ⟨hcs, rfl⟩ | ⟨hcs, -, hlimit, rfl⟩⟩ := readNumber_eq_ok hc h
  · have htaken := taken_emit p (by simp) (scans_decimal hne hall) rfl rest
    rw [List.append_assoc] at htaken
    rw [hcs]
    exact ⟨ds ++ ['.'], htaken⟩
  · rw [hcs]
    exact ⟨ds, taken_emit p hne (scans_digits hne hall hlimit) rfl rest⟩

theorem readWord_taken (p : Position) {c : Char} (hc : isLetter c = true) (cs : List Char) :
    ∃ read, Taken p (c :: cs) (readWord p (c :: cs)) read := by
  have hall : ∀ x ∈ cs.takeWhile isWordChar, isWordChar x = true := List.all_eq_true.1 List.all_takeWhile
  have htaken := taken_emit p (by simp) (scans_word hc hall) (looksAhead_word _) (cs.dropWhile isWordChar)
  rw [List.cons_append, List.takeWhile_append_dropWhile] at htaken
  rw [readWord_eq p hc]
  exact ⟨c :: cs.takeWhile isWordChar, htaken⟩

theorem readString_taken {p : Position} {quote : Char} (hq : quote = '"' ∨ quote = '\'') {cs : List Char} {r : Read}
    (h : readString p quote cs = .ok r) : ∃ read, Taken p (quote :: cs) r read := by
  obtain ⟨content, read, rest, hbody, rfl⟩ := readString_eq_ok h
  have htaken := taken_emit p (by simp) (scans_quoted hq hbody) rfl rest
  rw [List.cons_append, ← (stringBody_read hbody).1] at htaken
  exact ⟨quote :: read, htaken⟩

theorem readExtensible_taken {p : Position} {c : Char} {e : Extension} {cs : List Char} {r : Read}
    (he : extension? c = some e) (h : readExtensible p c e cs = .ok r) : ∃ read, Taken p (c :: cs) r read := by
  obtain ⟨rest, rfl, rfl⟩ | ⟨s, hs, -, rfl⟩ := readExtensible_eq_ok h
  · exact ⟨[c, e.second], taken_emit p (by simp) (scans_long he) (looksAhead_long he) rest⟩
  · refine ⟨[c], rfl, fun h => (by cases h), fun t ht => ?_⟩
    cases ht
    have hindex : (((p.next (some c)).next cs.head?).back).index = p.index + 1 := by
      rw [Position.back]
      simp only [Position.next_index]
      omega
    exact ⟨by simp, scans_short he hs, rfl, hindex, by rw [looksAhead_short he hs]; rfl⟩

/-- **Every reading takes characters from the front of the text.** -/
theorem readAt_taken {p : Position} {c : Char} {cs : List Char} {r : Read} (h : readAt p c cs = .ok r) :
    ∃ read, Taken p (c :: cs) r read := by
  rw [readAt] at h
  split at h
  · next hc =>
    cases h
    exact ⟨[c], rfl, fun _ => ⟨c, rfl, hc, rfl⟩, fun t ht => by cases ht⟩
  split at h
  · next hc =>
    cases h
    exact ⟨[c], taken_single (.step (.newline hc) .done) rfl⟩
  split at h
  · next hc => exact readNumber_taken hc h
  split at h
  · next hc =>
    cases h
    exact readWord_taken p hc cs
  split at h
  · next hc => exact readString_taken hc h
  split at h
  · next e he => exact readExtensible_taken he h
  · next s hs =>
    cases h
    exact ⟨[c], taken_single (scans_plain hs) (looksAhead_plain hs)⟩
  · cases h

/-! ## The whole text -/

/-- The position after a token. -/
def after (p : Position) (read rest : List Char) (l : Lexeme) : Position :=
  if l.looksAhead then ((p.advance read).next rest.head?).back else p.advance read

theorem after_index (p : Position) (read rest : List Char) (l : Lexeme) :
    (after p read rest l).index = p.index + read.length := by
  unfold after
  split
  · rw [Position.back]
    simp only [Position.next_index, Position.advance_index]
    omega
  · exact p.advance_index read

/-- The tokens are read one after the other from the whole text; at its end the position is `q`. -/
inductive Tiled : Position → List Char → List Token → Position → Prop where
  | done (p : Position) : Tiled p [] [] p
  | blank {p q : Position} {c : Char} {cs : List Char} {ts : List Token} : c = ' ' ∨ c = '\t' →
      Tiled (p.advance [c]) cs ts q → Tiled p (c :: cs) ts q
  | token {p q : Position} {read rest : List Char} {t : Token} {ts : List Token} : read ≠ [] → Scans read [t.lexeme] →
      t.span.start = p → t.span.stop.index = p.index + read.length →
      Tiled (after p read rest t.lexeme) rest ts q → Tiled p (read ++ rest) (t :: ts) q

theorem tokensFrom_tiled : ∀ (fuel : Nat) (p : Position) (cs : List Char) (tokens : List Token), cs.length ≤ fuel →
    tokensFrom fuel p cs = .ok tokens → ∃ words q, tokens = words ++ [⟨.eof, .single q⟩] ∧ Tiled p cs words q
  | fuel, p, [], tokens, _, h => by
    rw [tokensFrom] at h
    cases h
    exact ⟨[], p, rfl, .done p⟩
  | 0, _, _ :: _, _, hfuel, _ => absurd hfuel (by simp)
  | fuel + 1, p, c :: cs, tokens, hfuel, h => by
    obtain ⟨r, tail, hr, ht, rfl⟩ := tokensFrom_cons_eq_ok h
    have hlt := (readAt_step hr).length_lt
    rw [List.length_cons] at hfuel hlt
    obtain ⟨words, q, rfl, htail⟩ := tokensFrom_tiled fuel r.position r.rest tail (by omega) ht
    obtain ⟨read, htaken⟩ := readAt_taken hr
    rw [htaken.split]
    cases htoken : r.token? with
    | none =>
      obtain ⟨x, rfl, hblank, hposition⟩ := htaken.blank htoken
      rw [hposition] at htail
      exact ⟨words, q, rfl, .blank hblank htail⟩
    | some t =>
      obtain ⟨hne, hscan, hstart, hstop, hposition⟩ := htaken.token t htoken
      rw [hposition] at htail
      exact ⟨t :: words, q, rfl, .token hne hscan hstart hstop htail⟩

theorem tokens_tiled {source : Source} {tokens : List Token} (h : Scan.tokens source = .ok tokens) :
    ∃ words q, tokens = words ++ [⟨.eof, .single q⟩] ∧ Tiled (.origin source) source.text.toList words q :=
  tokensFrom_tiled _ _ _ _ (Nat.le_of_eq String.length_toList) h

/-- More readings than characters are never needed. -/
theorem tokensFrom_fuel : ∀ (fuel fuel' : Nat) (p : Position) (cs : List Char), cs.length ≤ fuel → cs.length ≤ fuel' →
    tokensFrom fuel p cs = tokensFrom fuel' p cs
  | _, _, _, [], _, _ => by rw [tokensFrom, tokensFrom]
  | 0, _, _, _ :: _, hfuel, _ => absurd hfuel (by simp)
  | _, 0, _, _ :: _, _, hfuel => absurd hfuel (by simp)
  | fuel + 1, fuel' + 1, p, c :: cs, hfuel, hfuel' => by
    cases hr : readAt p c cs with
    | error e => rw [tokensFrom, tokensFrom, hr]; rfl
    | ok r =>
      have hlt := (readAt_step hr).length_lt
      rw [List.length_cons] at hfuel hfuel' hlt
      rw [tokensFrom_cons fuel hr, tokensFrom_cons fuel' hr,
        tokensFrom_fuel fuel fuel' r.position r.rest (by omega) (by omega)]

namespace Tiled

variable {p q : Position} {cs : List Char} {words : List Token}

theorem stop_index (h : Tiled p cs words q) : q.index = p.index + cs.length := by
  induction h with
  | done p => simp
  | blank _ _ ih =>
    rw [ih, Position.advance_index, List.length_singleton, List.length_cons]
    omega
  | token _ _ _ _ _ ih =>
    rw [ih, after_index, List.length_append]
    omega

theorem lexeme_ne_eof (h : Tiled p cs words q) : ∀ t ∈ words, t.lexeme ≠ .eof := by
  induction h with
  | done p => simp
  | blank _ _ ih => exact ih
  | token _ hscan _ _ _ ih => exact List.forall_mem_cons.2 ⟨hscan.ne_eof _ (List.mem_singleton.2 rfl), ih⟩

theorem bounds (h : Tiled p cs words q) : ∀ t ∈ words, p.index ≤ t.span.start.index ∧
    t.span.start.index < t.span.stop.index ∧ t.span.stop.index ≤ p.index + cs.length := by
  induction h with
  | done p => simp
  | blank _ _ ih =>
    intro t ht
    have hbounds := ih t ht
    rw [Position.advance_index, List.length_singleton] at hbounds
    rw [List.length_cons]
    omega
  | @token p q read rest t ts hne _ hstart hstop _ ih =>
    have hpos : 0 < read.length := List.length_pos_iff.2 hne
    rw [List.length_append]
    refine List.forall_mem_cons.2 ⟨?_, fun u hu => ?_⟩
    · rw [hstart, hstop]
      omega
    · have hbounds := ih u hu
      rw [after_index] at hbounds
      omega

theorem ordered (h : Tiled p cs words q) : words.Pairwise fun t u => t.span.stop.index ≤ u.span.start.index := by
  induction h with
  | done p => exact .nil
  | blank _ _ ih => exact ih
  | token _ _ _ hstop htail ih =>
    refine List.pairwise_cons.2 ⟨fun u hu => ?_, ih⟩
    have hbounds := htail.bounds u hu
    rw [after_index] at hbounds
    omega

/-- A character that no token was read from is blank. -/
theorem blank_of_not_covered (h : Tiled p cs words q) (before : List Char) (hp : p.index = before.length) {i : Nat} {c : Char}
    (hi : before.length ≤ i) (hc : (before ++ cs)[i]? = some c) (hcovers : ∀ t ∈ words, t.covers i = false) :
    c = ' ' ∨ c = '\t' := by
  induction h generalizing before with
  | done p =>
    rw [List.append_nil, List.getElem?_eq_none hi] at hc
    cases hc
  | @blank p q x cs ts hblank _ ih =>
    rcases Nat.lt_or_eq_of_le hi with hlt | rfl
    · refine ih (before ++ [x]) ?_ ?_ ?_ hcovers
      · rw [Position.advance_index, hp, List.length_append]
        rfl
      · rw [List.length_append]
        exact hlt
      · rw [List.append_assoc]
        exact hc
    · rw [List.getElem?_append_right (Nat.le_refl _), Nat.sub_self] at hc
      cases hc
      exact hblank
  | @token p q read rest t ts _ _ hstart hstop _ ih =>
    obtain ⟨hfirst, hcovers⟩ := List.forall_mem_cons.1 hcovers
    refine ih (before ++ read) ?_ ?_ ?_ hcovers
    · rw [after_index, hp, List.length_append]
      rfl
    · simp only [Token.covers, hstart, hstop, hp, Bool.and_eq_false_iff, decide_eq_false_iff_not] at hfirst
      rw [List.length_append]
      omega
    · rw [List.append_assoc]
      exact hc

/-- What a token was read from is scanned to its lexeme. -/
theorem scans_slice (h : Tiled p cs words q) (before : List Char) (hp : p.index = before.length) :
    ∀ t ∈ words, Scans (t.slice (before ++ cs)) [t.lexeme] := by
  induction h generalizing before with
  | done p => simp
  | @blank p q x cs ts _ _ ih =>
    have hnext := ih (before ++ [x]) (by rw [Position.advance_index, hp, List.length_append]; rfl)
    rwa [List.append_assoc] at hnext
  | @token p q read rest t ts _ hscan hstart hstop _ ih =>
    refine List.forall_mem_cons.2 ⟨?_, ?_⟩
    · have hslice : t.slice (before ++ (read ++ rest)) = read := by
        have hlength : ((before.length : Int) + read.length - before.length).toNat = read.length := by omega
        rw [Token.slice, hstart, hstop, hp, hlength, Int.toNat_natCast, List.drop_left, List.take_left]
      rw [hslice]
      exact hscan
    · have hnext := ih (before ++ read) (by rw [after_index, hp, List.length_append]; rfl)
      rwa [List.append_assoc] at hnext

end Tiled

/-- Of two tokens the later one stops later. -/
theorem tokens_increasing {source : Source} {tokens : List Token} (h : Scan.tokens source = .ok tokens) :
    tokens.Pairwise fun t u => t.span.stop.index < u.span.stop.index := by
  obtain ⟨words, q, rfl, htiled⟩ := tokens_tiled h
  refine List.pairwise_append.2 ⟨?_, List.pairwise_singleton _ _, fun t ht u hu => ?_⟩
  · refine htiled.ordered.imp_of_mem fun _ hu hle => ?_
    exact Int.lt_of_le_of_lt hle (htiled.bounds _ hu).2.1
  · cases List.mem_singleton.1 hu
    have hstop : (Span.single q).stop.index = q.index + 1 := q.next_index none
    have hq := htiled.stop_index
    have ht := htiled.bounds t ht
    show t.span.stop.index < (Span.single q).stop.index
    omega

/-- A token is known by where it stops. -/
theorem tokens_stop_inj {source : Source} {tokens : List Token} (h : Scan.tokens source = .ok tokens) {i j : Nat}
    {t u : Token} (hi : tokens[i]? = some t) (hj : tokens[j]? = some u) (hstop : t.span.stop = u.span.stop) : i = j := by
  have hlt : ∀ {i j : Nat} {t u : Token}, tokens[i]? = some t → tokens[j]? = some u → i < j →
      t.span.stop.index < u.span.stop.index := by
    intro i j t u hi hj hij
    obtain ⟨hi', rfl⟩ := List.getElem?_eq_some_iff.1 hi
    obtain ⟨hj', rfl⟩ := List.getElem?_eq_some_iff.1 hj
    exact List.pairwise_iff_getElem.1 (tokens_increasing h) i j hi' hj' hij
  rcases Nat.lt_trichotomy i j with hij | hij | hij
  · have := hlt hi hj hij
    rw [hstop] at this
    exact absurd this (Int.lt_irrefl _)
  · exact hij
  · have := hlt hj hi hij
    rw [hstop] at this
    exact absurd this (Int.lt_irrefl _)

/-- **Pieces that are scanned to one lexeme each can be joined with blanks.** -/
theorem scans_intercalate {α : Type} {piece : α → List Char} {lexeme : α → Lexeme} : ∀ {xs : List α},
    (∀ x ∈ xs, Scans (piece x) [lexeme x]) → Scans ([' '].intercalate (xs.map piece)) (xs.map lexeme)
  | [], _ => .done
  | [x], h => by simpa using h x List.mem_cons_self
  | x :: y :: xs, h => by
    have hrest := scans_intercalate fun z hz => h z (List.mem_cons_of_mem x hz)
    have hblank : Scans (' ' :: [' '].intercalate ((y :: xs).map piece)) ((y :: xs).map lexeme) :=
      .step (.blank (.inl rfl)) hrest
    have hjoin := (h x List.mem_cons_self).append (.inl rfl) hblank
    simpa [List.intercalate_cons_cons] using hjoin

/-- **Tokens partition their text and can be scanned again.**  The scan of a text ends: more readings would change nothing.
If it gives tokens, the last one and no other marks the end, and stands there.  The spans of the others are not empty, lie
inside the text and follow one another in order without a common character, and whatever lies outside them is a blank or a tab.
The pieces of text under them, joined with single blanks, are scanned to the same lexemes. -/
theorem tokens_partition (source : Source) :
    (∀ fuel, source.text.length ≤ fuel →
      tokensFrom fuel (.origin source) source.text.toList = Scan.tokens source) ∧
    ∀ tokens, Scan.tokens source = .ok tokens → ∃ words last, tokens = words ++ [last] ∧
      last.lexeme = .eof ∧ last.span.start.index = (source.text.length : Int) ∧ (∀ t ∈ words, t.lexeme ≠ .eof) ∧
      (∀ t ∈ words, 0 ≤ t.span.start.index ∧ t.span.start.index < t.span.stop.index ∧
        t.span.stop.index ≤ (source.text.length : Int)) ∧
      (words.Pairwise fun t u => t.span.stop.index ≤ u.span.start.index) ∧
      (∀ i c, source.text.toList[i]? = some c → (∀ t ∈ words, t.covers i = false) → c = ' ' ∨ c = '\t') ∧
      ∀ name, ∃ tokens', Scan.tokens ⟨name,
          " ".intercalate (words.map fun t => String.ofList (t.slice source.text.toList))⟩ = .ok tokens' ∧
        tokens'.map Token.lexeme = tokens.map Token.lexeme := by
  have hlength : source.text.toList.length = source.text.length := String.length_toList
  refine ⟨fun fuel hfuel => ?_, fun tokens h => ?_⟩
  · exact tokensFrom_fuel _ _ _ _ (by rw [hlength]; exact hfuel) (Nat.le_of_eq hlength)
  · obtain ⟨words, q, rfl, htiled⟩ := tokens_tiled h
    have horigin : (Position.origin source).index = 0 := rfl
    have hstop := htiled.stop_index
    have hbounds := htiled.bounds
    rw [hlength, horigin, Int.zero_add] at hstop
    simp only [hlength, horigin, Int.zero_add] at hbounds
    refine ⟨words, _, rfl, rfl, hstop, htiled.lexeme_ne_eof, hbounds, htiled.ordered, fun i c hc hcovers => ?_,
      fun name => ?_⟩
    · exact htiled.blank_of_not_covered [] rfl (Nat.zero_le i) hc hcovers
    · have hjoin : (" ".intercalate (words.map fun t => String.ofList (t.slice source.text.toList))).toList =
          [' '].intercalate (words.map (Token.slice source.text.toList)) := by
        rw [String.toList_intercalate, List.map_map]
        simp only [Function.comp_def, String.toList_ofList]
        rfl
      have hscan := scans_intercalate (htiled.scans_slice [] rfl)
      rw [List.nil_append, ← hjoin] at hscan
      obtain ⟨tokens', htokens', hlexemes⟩ := (@scans_iff ⟨name, _⟩ _).1 hscan
      refine ⟨tokens', htokens', ?_⟩
      rw [hlexemes, List.map_append]
      rfl

def mixedSource : Source := ⟨"mixed", "x=1.5 \n'a b'<=- "⟩

theorem tokens_partition_mixed : ∃ tokens, Scan.tokens mixedSource = .ok tokens ∧ tokens.length = 9 ∧
    (∃ last ∈ tokens, last.lexeme = .eof ∧ last.span.start.index = 16) ∧
    ∃ tokens', Scan.tokens ⟨"joined", "x = 1. 5 \n 'a b' <= -"⟩ = .ok tokens' ∧
      tokens'.map Token.lexeme = tokens.map Token.lexeme := by
  have hseen : (Scan.tokens mixedSource).toOption.map (fun tokens => (tokens.length,
      " ".intercalate (tokens.dropLast.map fun t => String.ofList (t.slice mixedSource.text.toList)))) =
        some (9, "x = 1. 5 \n 'a b' <= -") := by decide +kernel
  cases h : Scan.tokens mixedSource with
  | error e =>
    rw [h] at hseen
    cases hseen
  | ok tokens =>
    rw [h] at hseen
    obtain ⟨hlength, hjoin⟩ := Prod.mk.inj (Option.some.inj hseen)
    obtain ⟨words, last, rfl, heof, hlast, -, -, -, -, hagain⟩ := (tokens_partition mixedSource).2 tokens h
    rw [List.dropLast_concat] at hjoin
    obtain ⟨tokens', htokens', hlexemes⟩ := hagain "joined"
    rw [hjoin] at htokens'
    exact ⟨_, rfl, hlength, ⟨last, by simp, heof, hlast⟩, tokens', htokens', hlexemes⟩

end Scan

end Scriptlet
