import Scriptlet.Proofs.Reading.Follows
import Scriptlet.Proofs.Scan.Steps
import Scriptlet.Session
/-!
# Readings that succeed

`Reads r c a c'` says that the reading `r` succeeds from the cursor `c` with the result `a` and stops at `c'`.  For each way to
build a reading it is spelled out in terms of the parts, so that a form of the grammar opens into the steps it takes.

A repetition goes round as often as its fuel allows, and the fuel is the number of tokens that remain.  Where every round
takes a token and none goes past the last one (`Advances`), the fuel is never used up: a repetition that stops does so
because its step has nothing to add (`repeating_invariant`), and it may be opened one round at a time (`repeating_eq`).
-/
namespace Scriptlet

namespace Lexeme

@[simp] theorem isKeyword_iff {k : Keyword} {l : Lexeme} : l.isKeyword k = true ↔ l = .keyword k := by
  cases l <;> simp [isKeyword, eq_comm]

@[simp] theorem isSymbol_iff {s : Symbol} {l : Lexeme} : l.isSymbol s = true ↔ l = .symbol s := by
  cases l <;> simp [isSymbol, eq_comm]

@[simp] theorem isNewline_iff {l : Lexeme} : l.isNewline = true ↔ l = .newline := by
  cases l <;> simp [isNewline]

@[simp] theorem isEof_iff {l : Lexeme} : l.isEof = true ↔ l = .eof := by
  cases l <;> simp [isEof]

end Lexeme

namespace Grammar

/-! ## Rows of tokens -/

/-- The last token and no other marks the end. -/
structure Ended (tokens : List Token) : Prop where
  eof : ∃ last, tokens.getLast? = some last ∧ last.lexeme = .eof
  inner : ∀ i : Nat, i + 1 < tokens.length → ∀ t, tokens[i]? = some t → t.lexeme ≠ .eof

namespace Ended

variable {tokens : List Token}

theorem ne_nil (h : Ended tokens) : tokens ≠ [] := by
  obtain ⟨last, hl, _⟩ := h.eof
  rintro rfl
  cases hl

theorem length_pos (h : Ended tokens) : 0 < tokens.length := List.length_pos_iff.2 h.ne_nil

theorem shown_last (h : Ended tokens) {i : Nat} (hi : tokens.length ≤ i + 1) :
    (Cursor.shown tokens i).lexeme = .eof := by
  obtain ⟨last, hl, he⟩ := h.eof
  rw [Cursor.shown_eq_last hi, List.getLastD_eq_getLast?, hl]
  exact he

/-- Where something else than the end is shown, there is a token after it. -/
theorem succ_lt (h : Ended tokens) {i : Nat} (hne : (Cursor.shown tokens i).lexeme ≠ .eof) : i + 1 < tokens.length :=
  Nat.lt_of_not_le fun hi => hne (h.shown_last hi)

theorem eq_last (h : Ended tokens) {i : Nat} (hi : i < tokens.length) (he : (Cursor.shown tokens i).lexeme = .eof) :
    i + 1 = tokens.length := by
  rw [Cursor.shown_of_lt hi] at he
  rcases Nat.lt_or_ge (i + 1) tokens.length with hlt | hge
  · exact absurd he (h.inner i hlt _ (List.getElem?_eq_getElem hi))
  · omega

/-- Lexemes of a text and the mark of the end. -/
theorem of_lexemes {ls : List Lexeme} (hls : ∀ l ∈ ls, l ≠ .eof) (h : tokens.map Token.lexeme = ls ++ [.eof]) :
    Ended tokens := by
  have hlen : tokens.length = ls.length + 1 := by simpa using congrArg List.length h
  constructor
  · have hlast : tokens.getLast?.map Token.lexeme = some .eof := by rw [← List.getLast?_map, h, List.getLast?_concat]
    exact Option.map_eq_some_iff.1 hlast
  · intro i hi t ht
    have hi' : ls[i]? = some t.lexeme := by
      have happend : (ls ++ [.eof])[i]? = ls[i]? := List.getElem?_append_left (by omega)
      rw [← happend, ← h, List.getElem?_map, ht]
      rfl
    exact hls _ (List.mem_of_getElem? hi')

/-- The scanner ends every row of tokens. -/
theorem of_tokens {source : Source} (h : Scan.tokens source = .ok tokens) : Ended tokens := by
  obtain ⟨ls, hls, hscans⟩ := Scan.tokensFrom_scans _ _ _ _ (Nat.le_of_eq String.length_toList) h
  exact of_lexemes hscans.ne_eof hls

end Ended

/-- The lexemes from one number up to another. -/
def between (tokens : List Token) (i j : Nat) : List Lexeme := ((tokens.drop i).take (j - i)).map Token.lexeme

theorem between_self (tokens : List Token) (i : Nat) : between tokens i i = [] := by
  rw [between, Nat.sub_self, List.take_zero, List.map_nil]

theorem between_cons {tokens : List Token} {i j : Nat} (hi : i < tokens.length) (hij : i < j) :
    between tokens i j = (Cursor.shown tokens i).lexeme :: between tokens (i + 1) j := by
  rw [between, between, Cursor.shown_of_lt hi, List.drop_eq_getElem_cons hi,
    show j - i = (j - (i + 1)) + 1 by omega, List.take_succ_cons, List.map_cons]

theorem between_append (tokens : List Token) {i j k : Nat} (hij : i ≤ j) (hjk : j ≤ k) :
    between tokens i k = between tokens i j ++ between tokens j k := by
  rw [between, between, between, ← List.map_append, show k - i = (j - i) + (k - j) by omega, List.take_add,
    List.drop_drop, show i + (j - i) = j by omega]

namespace Reading

variable {α β γ σ : Type}

/-- The reading succeeds with `a` from `c` to `c'`. -/
def Reads (r : Reading α) (c : Cursor) (a : α) (c' : Cursor) : Prop :=
  (r c).result = .ok a ∧ (r c).cursor = c'

theorem Reads.unique {r : Reading α} {c c₁ c₂ : Cursor} {a b : α} (h : Reads r c a c₁) (h' : Reads r c b c₂) :
    a = b ∧ c₁ = c₂ := by
  refine ⟨?_, h.2.symm.trans h'.2⟩
  have := h.1.symm.trans h'.1
  cases this
  rfl

@[simp] theorem reads_pure {a b : α} {c c' : Cursor} : Reads (Pure.pure a : Reading α) c b c' ↔ b = a ∧ c' = c := by
  constructor
  · rintro ⟨h, h'⟩
    cases h
    exact ⟨rfl, h'.symm⟩
  · rintro ⟨rfl, rfl⟩
    exact ⟨rfl, rfl⟩

@[simp low] theorem reads_bind {r : Reading α} {f : α → Reading β} {c c' : Cursor} {b : β} :
    Reads (r >>= f) c b c' ↔ ∃ a c₁, Reads r c a c₁ ∧ Reads (f a) c₁ b c' := by
  have hb : (r >>= f) c = Reading.bind r f c := rfl
  rw [Reads, hb, Reading.bind]
  constructor
  · intro h
    cases hr : (r c).result with
    | error e =>
      rw [hr] at h
      cases h.1
    | ok a =>
      rw [hr] at h
      exact ⟨a, _, ⟨hr, rfl⟩, h⟩
  · rintro ⟨a, c₁, ⟨hr, rfl⟩, h⟩
    rw [hr]
    exact h

@[simp] theorem reads_pure_bind {a : α} {f : α → Reading β} {c c' : Cursor} {b : β} :
    Reads ((Pure.pure a : Reading α) >>= f) c b c' ↔ Reads (f a) c b c' := by
  constructor
  · rintro h
    obtain ⟨_, _, ha, h⟩ := reads_bind.1 h
    obtain ⟨rfl, rfl⟩ := reads_pure.1 ha
    exact h
  · exact fun h => reads_bind.2 ⟨a, c, reads_pure.2 ⟨rfl, rfl⟩, h⟩

@[simp] theorem reads_lexeme_bind {f : Lexeme → Reading β} {c c' : Cursor} {b : β} :
    Reads (lexeme >>= f) c b c' ↔ Reads (f c.current.lexeme) c b c' := by
  constructor
  · intro h
    obtain ⟨_, _, ⟨hl, rfl⟩, h⟩ := reads_bind.1 h
    cases hl
    exact h
  · exact fun h => reads_bind.2 ⟨_, _, ⟨rfl, rfl⟩, h⟩

@[simp] theorem reads_current_bind {f : Token → Reading β} {c c' : Cursor} {b : β} :
    Reads (current >>= f) c b c' ↔ Reads (f c.current) c b c' := by
  constructor
  · intro h
    obtain ⟨_, _, ⟨ht, rfl⟩, h⟩ := reads_bind.1 h
    cases ht
    exact h
  · exact fun h => reads_bind.2 ⟨_, _, ⟨rfl, rfl⟩, h⟩

@[simp] theorem reads_take {c c' : Cursor} {u : Unit} : Reads take c u c' ↔ c' = c.next :=
  ⟨fun h => h.2.symm, fun h => ⟨rfl, h.symm⟩⟩

@[simp] theorem reads_take_bind {f : Unit → Reading β} {c c' : Cursor} {b : β} :
    Reads (take >>= f) c b c' ↔ Reads (f ()) c.next b c' := by
  simp only [reads_bind, reads_take]
  exact ⟨fun ⟨_, _, hc, h⟩ => hc ▸ h, fun h => ⟨_, _, rfl, h⟩⟩

@[simp] theorem reads_fail {e : Expected} {c c' : Cursor} {a : α} : Reads (fail e) c a c' ↔ False :=
  iff_of_false (fun h => nomatch h.1) id

@[simp] theorem reads_tooDeep {c c' : Cursor} {a : α} : Reads tooDeep c a c' ↔ False :=
  iff_of_false (fun h => nomatch h.1) id

@[simp] theorem reads_ite {p : Prop} [Decidable p] {r s : Reading α} {c c' : Cursor} {a : α} :
    Reads (if p then r else s) c a c' ↔ p ∧ Reads r c a c' ∨ ¬p ∧ Reads s c a c' := by
  split <;> simp [*]

@[simp] theorem reads_relabel {e : Expected} {r : Reading α} {c c' : Cursor} {a : α} :
    Reads (relabel e r) c a c' ↔ Reads r c a c' := by
  rw [Reads, Reads, relabel]
  cases hr : (r c).result with
  | ok b => simp [hr]
  | error x =>
    cases x with
    | tooDeep => simp [hr]
    | unexpected e' span =>
      simp only [reduceCtorEq, false_and, iff_false, not_and]
      split
      · intro h
        cases h
      · intro h
        rw [hr] at h
        cases h

@[simp] theorem reads_expectKeyword {k : Keyword} {c c' : Cursor} {u : Unit} :
    Reads (expectKeyword k) c u c' ↔ c.current.lexeme = .keyword k ∧ c' = c.next := by
  simp [expectKeyword]

@[simp] theorem reads_expectKeyword_bind {k : Keyword} {f : Unit → Reading β} {c c' : Cursor} {b : β} :
    Reads (expectKeyword k >>= f) c b c' ↔ c.current.lexeme = .keyword k ∧ Reads (f ()) c.next b c' := by
  simp only [reads_bind, reads_expectKeyword]
  exact ⟨fun ⟨_, _, ⟨hk, hc⟩, h⟩ => ⟨hk, hc ▸ h⟩, fun ⟨hk, h⟩ => ⟨_, _, ⟨hk, rfl⟩, h⟩⟩

@[simp] theorem reads_expectSymbol {s : Symbol} {e : Expected} {c c' : Cursor} {u : Unit} :
    Reads (expectSymbol s e) c u c' ↔ c.current.lexeme = .symbol s ∧ c' = c.next := by
  simp [expectSymbol]

@[simp] theorem reads_expectSymbol_bind {s : Symbol} {e : Expected} {f : Unit → Reading β} {c c' : Cursor} {b : β} :
    Reads (expectSymbol s e >>= f) c b c' ↔ c.current.lexeme = .symbol s ∧ Reads (f ()) c.next b c' := by
  simp only [reads_bind, reads_expectSymbol]
  exact ⟨fun ⟨_, _, ⟨hk, hc⟩, h⟩ => ⟨hk, hc ▸ h⟩, fun ⟨hk, h⟩ => ⟨_, _, ⟨hk, rfl⟩, h⟩⟩

@[simp] theorem reads_expectName {e : Expected} {c c' : Cursor} {n : Name} :
    Reads (expectName e) c n c' ↔ c.current.lexeme = .name n.text ∧ n.span = c.current.span ∧ c' = c.next := by
  simp only [expectName, reads_current_bind]
  constructor
  · intro h
    cases hl : c.current.lexeme with
    | name text =>
      simp only [hl, reads_take_bind, reads_pure] at h
      obtain ⟨rfl, rfl⟩ := h
      exact ⟨rfl, rfl, rfl⟩
    | _ => simp [hl] at h
  · rintro ⟨h, hs, rfl⟩
    simp only [h, reads_take_bind, reads_pure]
    obtain ⟨text, span⟩ := n
    cases hs
    exact ⟨rfl, trivial⟩

/-- A reading that was tried has read, or is back where it began. -/
theorem reads_attempt {φ : Position → Position} {g : α → β} {r : Reading α} {r' : Reading β}
    (hr : Follows False φ g r r') {tokens : List Token} (ht : tokens ≠ []) {i : Nat} {c' : Cursor} {t : Tried α} :
    Reads r.attempt (.on tokens i) t c' ↔
      (∃ a, t = .read a ∧ Reads r (.on tokens i) a c') ∨
      (∃ e span, t = .handedBack (r (.on tokens i)).taken ∧
        (r (.on tokens i)).result = .error (.unexpected e span) ∧ c' = .on tokens i) := by
  have hback : (r (.on tokens i)).cursor.back (r (.on tokens i)).taken = .on tokens i := by
    rw [hr.cursor_eq ht, Cursor.back_on]
  simp only [Reads, attempt]
  cases hx : (r (.on tokens i)).result with
  | ok a =>
    simp only [Except.ok.injEq, reduceCtorEq, false_and, and_false, exists_false, or_false]
    constructor
    · rintro ⟨rfl, rfl⟩
      exact ⟨a, rfl, rfl, rfl⟩
    · rintro ⟨b, rfl, rfl, rfl⟩
      exact ⟨rfl, rfl⟩
  | error x =>
    cases x with
    | tooDeep => simp
    | unexpected e span => simp [hback, eq_comm]

/-! ## Sequences -/

theorem bind_assoc (r : Reading α) (f : α → Reading β) (g : β → Reading γ) :
    r >>= f >>= g = r >>= fun a => f a >>= g := by
  funext c
  show Reading.bind (Reading.bind r f) g c = Reading.bind r (fun a => Reading.bind (f a) g) c
  simp only [Reading.bind]
  cases (r c).result with
  | error e => rfl
  | ok a =>
    simp only
    cases (f a (r c).cursor).result with
    | error e => rfl
    | ok b => simp only [Nat.add_assoc]

theorem pure_bind (a : α) (f : α → Reading β) : (Pure.pure a : Reading α) >>= f = f a := by
  funext c
  show Reading.bind (Reading.pure a) f c = f a c
  simp only [Reading.bind, Reading.pure, Nat.zero_add]

theorem ite_bind {p : Prop} [Decidable p] (r s : Reading α) (f : α → Reading β) :
    (if p then r else s) >>= f = if p then r >>= f else s >>= f := by
  split <;> rfl

/-! ## Repetition -/

/-- Every round takes a token, and none goes past the last one. -/
def Advances (tokens : List Token) (step : σ → Reading (Option σ)) : Prop :=
  ∀ (s t : σ) (i : Nat) (c' : Cursor), i < tokens.length → Reads (step s) (.on tokens i) (some t) c' →
    ∃ j, c' = .on tokens j ∧ i < j ∧ j < tokens.length

theorem bind_congr_on {r : Reading α} {f g : α → Reading β} {c : Cursor}
    (h : ∀ a c', Reads r c a c' → f a c' = g a c') : (r >>= f) c = (r >>= g) c := by
  show Reading.bind r f c = Reading.bind r g c
  rw [Reading.bind, Reading.bind]
  cases hr : (r c).result with
  | error e => rfl
  | ok a => simp only [h a _ ⟨hr, rfl⟩]

theorem rounds_eq_of_le {tokens : List Token} {step : σ → Reading (Option σ)} (ha : Advances tokens step) :
    ∀ (f f' : Nat) (s : σ) (i : Nat), i < tokens.length → tokens.length - i ≤ f → tokens.length - i ≤ f' →
      rounds step f s (.on tokens i) = rounds step f' s (.on tokens i)
  | 0, _, _, _, hi, hf, _ => by omega
  | _ + 1, 0, _, _, hi, _, hf' => by omega
  | f + 1, f' + 1, s, i, hi, hf, hf' => by
    refine bind_congr_on fun t c' ht => ?_
    cases t with
    | none => rfl
    | some t =>
      obtain ⟨j, rfl, hij, hj⟩ := ha s t i c' hi ht
      exact rounds_eq_of_le ha f f' t j hj (by omega) (by omega)

/-- A repetition is its first round and, if that adds something, the repetition after it. -/
theorem repeating_eq {tokens : List Token} {step : σ → Reading (Option σ)} (ha : Advances tokens step) (s : σ) {i : Nat}
    (hi : i < tokens.length) : repeating step s (.on tokens i) =
      (step s >>= fun t => match t with
        | some t => repeating step t
        | none => Pure.pure s) (.on tokens i) := by
  have hfuel : tokens.length + 1 - i = (tokens.length - i) + 1 := by omega
  rw [repeating, Cursor.remaining_on, hfuel, rounds]
  refine bind_congr_on fun t c' ht => ?_
  cases t with
  | none => rfl
  | some t =>
    obtain ⟨j, rfl, hij, hj⟩ := ha s t i c' hi ht
    show rounds step (tokens.length - i) t _ = rounds step (Cursor.on tokens j).remaining t _
    rw [Cursor.remaining_on]
    exact rounds_eq_of_le ha _ _ t j hj (by omega) (by omega)

/-- A repetition that succeeds has come, by rounds that add something, to a place where there is nothing to add. -/
theorem repeating_invariant (tokens : List Token) {step : σ → Reading (Option σ)} (ha : Advances tokens step)
    {I : σ → Nat → Prop}
    (hI : ∀ s t i j, i < j → j < tokens.length → I s i → Reads (step s) (.on tokens i) (some t) (.on tokens j) → I t j)
    {s s' : σ} {i : Nat} {c' : Cursor} (hi : i < tokens.length) (hs : I s i)
    (h : Reads (repeating step s) (.on tokens i) s' c') :
    ∃ j, i ≤ j ∧ j < tokens.length ∧ I s' j ∧ Reads (step s') (.on tokens j) none c' := by
  induction hn : tokens.length - i using Nat.strongRecOn generalizing s i with
  | _ n ih =>
    subst hn
    rw [Reads, repeating_eq ha s hi] at h
    obtain ⟨t, c₁, ht, h⟩ := reads_bind.1 h
    cases t with
    | none =>
      obtain ⟨rfl, rfl⟩ := reads_pure.1 h
      exact ⟨i, Nat.le_refl i, hi, hs, ht⟩
    | some t =>
      obtain ⟨j, rfl, hij, hj⟩ := ha s t i c₁ hi ht
      obtain ⟨k, hjk, hk, hIk, hend⟩ := ih _ (by omega) hj (hI s t i j hij hj hs ht) h rfl
      exact ⟨k, by omega, hk, hIk, hend⟩

end Reading

/-! ## Tokens without positions -/

/-- Lexemes as tokens without positions. -/
def bareTokens (ls : List Lexeme) : List Token := ls.map fun l => ⟨l, .forgotten⟩

theorem map_bare {tokens : List Token} {ls : List Lexeme} (h : tokens.map Token.lexeme = ls) :
    tokens.map Token.bare = bareTokens ls := by
  subst h
  rw [bareTokens, List.map_map]
  rfl

theorem span_bareTokens {ls : List Lexeme} (hne : ls ≠ []) (i : Nat) :
    (Cursor.shown (bareTokens ls) i).span = .forgotten := by
  have hne' : bareTokens ls ≠ [] := by
    intro h
    exact hne (List.map_eq_nil_iff.1 h)
  have hall : ∀ t ∈ bareTokens ls, t.span = .forgotten := by
    intro t ht
    obtain ⟨l, _, rfl⟩ := List.mem_map.1 ht
    rfl
  have hlast := hall _ (List.getLast_mem hne')
  rw [Cursor.shown, List.getLastD_eq_getLast?, List.getLast?_eq_some_getLast hne']
  cases hi : (bareTokens ls)[i]? with
  | none => exact hlast
  | some t => exact hall t (List.mem_of_getElem? hi)

end Grammar

/-- A source has a tree if it can be scanned and its tokens can be read. -/
theorem Parse.program_eq_ok {limits : Limits} {source : Source} {tree : Node} :
    Parse.program limits source = .ok tree ↔ ∃ tokens, Scan.tokens source = .ok tokens ∧
      (Grammar.program limits.reading (.start tokens)).result = .ok tree := by
  simp only [Parse.program, Parse.scan, Parse.settle, bind, Except.bind]
  cases Scan.tokens source with
  | error e => cases e <;> simp
  | ok tokens =>
    cases hr : (Grammar.program limits.reading (.start tokens)).result with
    | ok a => simp [hr]
    | error e => cases e <;> simp [hr]

open Grammar in
/-- A program is read with its positions if it is read without them, to a tree that is the same without its positions. -/
theorem parse_bare_iff {source : Source} {ls : List Lexeme} (h : Scan.Scans source.text.toList ls) {limits : Limits}
    {tree : Node} : (∃ n, Parse.program limits source = .ok n ∧ n.bare = tree) ↔
      (Grammar.program limits.reading (.start (bareTokens (ls ++ [.eof])))).result = .ok tree := by
  obtain ⟨tokens, htokens, hlexemes⟩ := Scan.scans_iff.1 h
  have hne : tokens ≠ [] := (Ended.of_tokens htokens).ne_nil
  have hresult := ((program_follows (fun _ => .forgotten) limits.reading).reply [] [] hne 0).result
  simp only [List.nil_append, List.length_nil, Nat.add_zero, ← Cursor.start_eq_on] at hresult
  rw [show tokens.map (Token.relocate _) = bareTokens (ls ++ [.eof]) from map_bare hlexemes] at hresult
  rw [hresult, mapResult_eq_ok]
  constructor
  · rintro ⟨n, hn, hbare⟩
    obtain ⟨tokens', htokens', hn⟩ := Parse.program_eq_ok.1 hn
    cases htokens.symm.trans htokens'
    exact ⟨n, hn, hbare⟩
  · rintro ⟨n, hn, hbare⟩
    exact ⟨n, Parse.program_eq_ok.2 ⟨tokens, htokens, hn⟩, hbare⟩

/-- That a computation gives a result can be decided where the result itself cannot be compared. -/
theorem exists_ok_of_toBool {ε α : Type} {x : Except ε α} (h : x.toBool = true) : ∃ a, x = .ok a := by
  cases x with
  | ok a => exact ⟨a, rfl⟩
  | error e => cases h

end Scriptlet
