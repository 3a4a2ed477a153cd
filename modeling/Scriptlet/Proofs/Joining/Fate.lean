import Scriptlet.Proofs.Grammar.Acceptance
/-!
# A text alone and with more after it

Lexemes `A` are read twice: alone, and with a newline and more lexemes after them.  As long as a reading stays inside `A` it
cannot tell the two apart; what becomes of it is its `Fate`.

- It is `Settled`: whatever comes after `A`, it does the same.
- It is `Unclosed`: alone it stops at the end of `A`, and it would also take a newline and `end` that stand there.  This is
  what becomes of a block without an `end`.
- It `Strays`: alone it fails, or stops at a place from where the text cannot be read to its end.

Fates are put together along the readings: the fate of a sequence follows from those of its parts (`Fated.bind`).
-/
namespace Scriptlet.Grammar

open Production Reading

/-! ## The tokens -/

/-- What may come after the lexemes: nothing, or a newline and more. -/
def Rest (Z : List Lexeme) : Prop := (∀ l ∈ Z, l ≠ .eof) ∧ ∀ l ∈ Z.head?, l = .newline

/-- The tokens of lexemes with others after them. -/
def row (A Z : List Lexeme) : List Token := bareTokens (A ++ (Z ++ [.eof]))

/-- What would close a block. -/
def closing : List Lexeme := [.newline, .keyword .end_]

theorem rest_nil : Rest [] := ⟨by simp, by simp⟩

theorem rest_closing : Rest closing := ⟨by simp [closing], by simp [closing]⟩

section Rows

variable {A Z : List Lexeme} {i : Nat}

theorem length_row : (row A Z).length = A.length + Z.length + 1 := by
  simp [row, bareTokens]
  omega

theorem row_ne_nil : row A Z ≠ [] := by
  intro h
  have := congrArg List.length h
  rw [length_row] at this
  cases this

theorem ended_row (hA : ∀ l ∈ A, l ≠ .eof) (hZ : Rest Z) : Ended (row A Z) := by
  have hls : ∀ l ∈ A ++ Z, l ≠ .eof := by
    intro l hl
    rcases List.mem_append.1 hl with h | h
    · exact hA l h
    · exact hZ.1 l h
  refine .of_lexemes hls ?_
  rw [row, bareTokens, List.map_map, List.append_assoc]
  exact List.map_id _

theorem span_row : (Cursor.shown (row A Z) i).span = .forgotten := span_bareTokens (by simp) i

theorem lexeme_row_lt (hi : i < A.length) : (Cursor.shown (row A Z) i).lexeme = A[i] := by
  have hlen : i < (row A Z).length := by
    rw [length_row]
    omega
  rw [Cursor.shown_of_lt hlen]
  simp only [row, bareTokens, List.getElem_map, List.getElem_append_left hi]

theorem lexeme_row_past (hi : A.length ≤ i) : (Cursor.shown (row A []) i).lexeme = .eof := by
  have hlast : (row A []).getLastD default = ⟨.eof, .forgotten⟩ := by
    simp [row, bareTokens, List.getLastD_eq_getLast?]
  rw [Cursor.shown_eq_last (by rw [length_row, List.length_nil]; omega), hlast]

theorem lexeme_row_nil : (Cursor.shown (row A []) A.length).lexeme = .eof := lexeme_row_past (Nat.le_refl _)

theorem lt_of_lexeme_row {l : Lexeme} (h : (Cursor.shown (row A []) i).lexeme = l) (hl : l ≠ .eof) : i < A.length :=
  Nat.lt_of_not_le fun hi => hl (h.symm.trans (lexeme_row_past hi))

theorem shown_row_cons {x : Lexeme} {Y : List Lexeme} :
    Cursor.shown (row A (x :: Y)) (A.length + i) = Cursor.shown (row [] (x :: Y)) i := by
  have hsplit : row A (x :: Y) = bareTokens A ++ row [] (x :: Y) := by
    simp [row, bareTokens]
  have hlen : (bareTokens A).length = A.length := by simp [bareTokens]
  rw [hsplit, ← hlen, Cursor.shown_append _ row_ne_nil]

theorem lexeme_row_cons {x : Lexeme} {Y : List Lexeme} : (Cursor.shown (row A (x :: Y)) A.length).lexeme = x := by
  rw [← Nat.add_zero A.length, shown_row_cons]
  rfl

theorem lexeme_row_end : (Cursor.shown (row A closing) (A.length + 1)).lexeme = .keyword .end_ := by
  rw [closing, shown_row_cons]
  rfl

/-- After the lexemes the end is shown or a newline. -/
theorem lexeme_row_length (hZ : Rest Z) :
    (Cursor.shown (row A Z) A.length).lexeme = .eof ∨ (Cursor.shown (row A Z) A.length).lexeme = .newline := by
  cases Z with
  | nil => exact .inl lexeme_row_nil
  | cons x Y => exact .inr (lexeme_row_cons.trans (hZ.2 x rfl))

theorem on_row_inj {tokens : List Token} {j : Nat} (h : Cursor.on tokens i = Cursor.on tokens j) : i = j := by
  have := congrArg Cursor.index h
  exact Int.ofNat.inj this

end Rows

/-! ## Fates -/

section Fates

variable (A : List Lexeme) {α β : Type}

/-- The reading does the same whatever comes after the lexemes, and stays inside them. -/
def Settled (r : Reading α) (i : Nat) : Prop :=
  ∃ result taken, i + taken ≤ A.length ∧
    ∀ Z, Rest Z → r (.on (row A Z) i) = ⟨result, taken, .on (row A Z) (i + taken)⟩

/-- The reading stops where the lexemes end, and takes what would close a block if it comes next. -/
def Unclosed (r : Reading α) (i : Nat) : Prop :=
  ∃ a, Reads r (.on (row A []) i) a (.on (row A []) A.length) ∧
    Reads r (.on (row A closing) i) a (.on (row A closing) (A.length + 2))

/-- Alone, the reading fails or stops at such a place. -/
def Strays (Φ : Nat → Prop) (r : Reading α) (i : Nat) : Prop :=
  ∀ a c, Reads r (.on (row A []) i) a c → ∃ j, c = .on (row A []) j ∧ Φ j

def Fate (Φ : Nat → Prop) (r : Reading α) (i : Nat) : Prop := Settled A r i ∨ Unclosed A r i ∨ Strays A Φ r i

/-- The reading depends on nothing but the tokens from its cursor on, and from every place before the bound it has one of
the fates. -/
structure Fated (bound : Nat) (Φ : Nat → Prop) (r : Reading α) : Prop where
  steady : Follows False id id r r
  bound_le : bound ≤ A.length + 1
  fate : ∀ i, i < bound → Fate A Φ r i

end Fates

namespace Reading

variable {α β : Type} {r : Reading α} {f : α → Reading β} {c c' : Cursor} {k : Nat}

theorem bind_apply_ok {a : α} (h : r c = ⟨.ok a, k, c'⟩) :
    (r >>= f) c = { f a c' with taken := k + (f a c').taken } := by
  show Reading.bind r f c = _
  rw [Reading.bind, h]

theorem bind_apply_error {e : Refusal} (h : r c = ⟨.error e, k, c'⟩) : (r >>= f) c = ⟨.error e, k, c'⟩ := by
  show Reading.bind r f c = _
  rw [Reading.bind, h]

end Reading

section Rules

variable {A : List Lexeme} {α β σ : Type} {Φ Ψ : Nat → Prop} {r s : Reading α} {f : α → Reading β} {i b : Nat}

/-! ### At one place -/

/-- The fate of a reading depends on what it does there. -/
theorem Fate.congr (h : ∀ Z, Rest Z → r (.on (row A Z) i) = s (.on (row A Z) i)) (hs : Fate A Φ s i) :
    Fate A Φ r i := by
  have hnil := h [] rest_nil
  have hclosing := h closing rest_closing
  rcases hs with ⟨res, k, hk, hs⟩ | ⟨a, ha, ha'⟩ | hs
  · exact .inl ⟨res, k, hk, fun Z hZ => (h Z hZ).trans (hs Z hZ)⟩
  · refine .inr (.inl ⟨a, ?_, ?_⟩)
    · rwa [Reads, hnil]
    · rwa [Reads, hclosing]
  · refine .inr (.inr fun a c ha => ?_)
    rw [Reads, hnil] at ha
    exact hs a c ha

theorem Strays.mono (h : Strays A Φ r i) (hΦ : ∀ j, Φ j → Ψ j) : Strays A Ψ r i := by
  intro a c ha
  obtain ⟨j, hc, hj⟩ := h a c ha
  exact ⟨j, hc, hΦ j hj⟩

theorem Strays.pure {a : α} (h : Φ i) : Strays A Φ (Pure.pure a : Reading α) i := by
  intro b c hb
  obtain ⟨_, rfl⟩ := reads_pure.1 hb
  exact ⟨i, rfl, h⟩

theorem Strays.bind (hr : Strays A Φ r i) (hf : ∀ a j, Φ j → Strays A Ψ (f a) j) : Strays A Ψ (r >>= f) i := by
  intro b c hb
  obtain ⟨a, c₁, ha, hb⟩ := reads_bind.1 hb
  obtain ⟨j, rfl, hj⟩ := hr a c₁ ha
  exact hf a j hj b c hb

theorem Fate.mono (h : Fate A Φ r i) (hΦ : ∀ j, Φ j → Ψ j) : Fate A Ψ r i := by
  rcases h with h | h | h
  · exact .inl h
  · exact .inr (.inl h)
  · exact .inr (.inr (h.mono hΦ))

/-- After a part that is settled and succeeds, the fate is that of what follows. -/
theorem Fate.of_settled {a : α} {k : Nat} (hr : ∀ Z, Rest Z → r (.on (row A Z) i) = ⟨.ok a, k, .on (row A Z) (i + k)⟩)
    (hf : Fate A Φ (f a) (i + k)) : Fate A Φ (r >>= f) i := by
  have hreads : ∀ Z, Rest Z → Reads r (.on (row A Z) i) a (.on (row A Z) (i + k)) := by
    intro Z hZ
    rw [Reads, hr Z hZ]
    exact ⟨rfl, rfl⟩
  rcases hf with ⟨res, m, hm, hf⟩ | ⟨b, hb, hb'⟩ | hf
  · refine .inl ⟨res, k + m, by omega, fun Z hZ => ?_⟩
    rw [bind_apply_ok (hr Z hZ), hf Z hZ, Nat.add_assoc]
  · exact .inr (.inl ⟨b, reads_bind.2 ⟨a, _, hreads [] rest_nil, hb⟩, reads_bind.2 ⟨a, _, hreads closing rest_closing, hb'⟩⟩)
  · refine .inr (.inr fun b c hb => ?_)
    obtain ⟨a', c₁, ha, hb⟩ := reads_bind.1 hb
    obtain ⟨rfl, rfl⟩ := ha.unique (hreads [] rest_nil)
    exact hf b c hb

/-- A reading that takes nothing where the lexemes end alone takes nothing after what would close a block. -/
theorem reads_after_closing (hr : Follows False id id r r) {a : α}
    (h : Reads r (.on (row A []) A.length) a (.on (row A []) A.length)) :
    Reads r (.on (row A closing) (A.length + 2)) a (.on (row A closing) (A.length + 2)) := by
  have hend : bareTokens [.eof] ≠ [] := by simp [bareTokens]
  have h₁ : row A [] = bareTokens A ++ bareTokens [.eof] := by simp [row, bareTokens]
  have h₂ : row A closing = bareTokens (A ++ closing) ++ bareTokens [.eof] := by simp [row, bareTokens]
  have hl₁ : (bareTokens A).length = A.length := by simp [bareTokens]
  have hl₂ : (bareTokens (A ++ closing)).length = A.length + 2 := by simp [bareTokens, closing]
  have hs₁ := hr.shift (bareTokens A) hend 0
  have hs₂ := hr.shift (bareTokens (A ++ closing)) hend 0
  rw [← h₁, hl₁, Nat.add_zero] at hs₁
  rw [← h₂, hl₂, Nat.add_zero] at hs₂
  have hc := hr.cursor_eq (row_ne_nil (A := A) (Z := [])) A.length
  have htaken : (r (.on (row A []) A.length)).taken = 0 := by
    have := on_row_inj (hc.symm.trans h.2)
    omega
  constructor
  · rw [hs₂.1, ← hs₁.1]
    exact h.1
  · rw [hr.cursor_eq row_ne_nil, hs₂.2, ← hs₁.2, htaken, Nat.add_zero]

/-- **The fate of a sequence.** -/
theorem Fate.bind (hi : i ≤ A.length) (hr : Fate A Φ r i) (hf : ∀ a j, i ≤ j → j ≤ A.length → Fate A Ψ (f a) j)
    (hsteady : ∀ a, Follows False id id (f a) (f a)) (hΦ : ∀ a j, Φ j → Strays A Ψ (f a) j) :
    Fate A Ψ (r >>= f) i := by
  rcases hr with ⟨res, k, hk, hr⟩ | ⟨a, ha, ha'⟩ | hr
  · cases res with
    | ok a => exact .of_settled hr (hf a _ (Nat.le_add_right i k) hk)
    | error e => exact .inl ⟨.error e, k, hk, fun Z hZ => bind_apply_error (hr Z hZ)⟩
  · -- The first part is unclosed, so the second stands at the end both alone and after the closing.
    have hopen : ∀ b, Reads (f a) (.on (row A []) A.length) b (.on (row A []) A.length) → Unclosed A (r >>= f) i :=
      fun b hb => ⟨b, reads_bind.2 ⟨a, _, ha, hb⟩, reads_bind.2 ⟨a, _, ha', reads_after_closing (hsteady a) hb⟩⟩
    have hstrays : ∀ b c, Reads (r >>= f) (.on (row A []) i) b c → Reads (f a) (.on (row A []) A.length) b c := by
      intro b c hb
      obtain ⟨a', c₁, ha₁, hb⟩ := reads_bind.1 hb
      obtain ⟨rfl, rfl⟩ := ha₁.unique ha
      exact hb
    rcases hf a A.length hi (Nat.le_refl _) with ⟨res, k, hk, hr⟩ | ⟨b, hb, _⟩ | hs
    · cases res with
      | ok b =>
        obtain rfl : k = 0 := by omega
        refine .inr (.inl (hopen b ?_))
        rw [Reads, hr [] rest_nil]
        exact ⟨rfl, rfl⟩
      | error e =>
        refine .inr (.inr fun b c hb => ?_)
        have hb := (hstrays b c hb).1
        rw [hr [] rest_nil] at hb
        cases hb
    · exact .inr (.inl (hopen b hb))
    · exact .inr (.inr fun b c hb => hs b c (hstrays b c hb))
  · exact .inr (.inr (hr.bind hΦ))

/-! ### From every place -/

namespace Fated

theorem mono (h : Fated A b Φ r) (hΦ : ∀ j, Φ j → Ψ j) : Fated A b Ψ r :=
  ⟨h.steady, h.bound_le, fun i hi => (h.fate i hi).mono hΦ⟩

/-- A smaller bound asks for less. -/
theorem inside (h : Fated A (A.length + 1) Φ r) : Fated A A.length Φ r :=
  ⟨h.steady, Nat.le_succ _, fun i hi => h.fate i (Nat.lt_succ_of_lt hi)⟩

theorem pure (a : α) : Fated A (A.length + 1) Φ (Pure.pure a : Reading α) :=
  ⟨.pure rfl, Nat.le_refl _, fun i hi => .inl ⟨.ok a, 0, by omega, fun _ _ => rfl⟩⟩

theorem bind (hr : Fated A b Φ r) (hf : ∀ a, Fated A (A.length + 1) Ψ (f a)) (hΦ : ∀ a j, Φ j → Strays A Ψ (f a) j) :
    Fated A b Ψ (r >>= f) := by
  refine ⟨.bind hr.steady fun a => (hf a).steady, hr.bound_le, fun i hi => ?_⟩
  have hb := hr.bound_le
  exact .bind (by omega) (hr.fate i hi) (fun a j _ hj => (hf a).fate j (by omega)) (fun a => (hf a).steady) hΦ

/-- After a part that never strays there is nothing to ask. -/
theorem bind_settled (hr : Fated A b (fun _ => False) r) (hf : ∀ a, Fated A (A.length + 1) Ψ (f a)) :
    Fated A b Ψ (r >>= f) :=
  hr.bind hf fun _ _ h => h.elim

theorem fail (e : Expected) : Fated A (A.length + 1) Φ (Reading.fail e : Reading α) := by
  refine ⟨.fail id e, Nat.le_refl _, fun i hi => .inl ⟨.error (.unexpected e .forgotten), 0, by omega, fun Z _ => ?_⟩⟩
  rw [Reading.fail, Cursor.on_current, span_row, Nat.add_zero]

theorem take : Fated A A.length Φ Reading.take := by
  refine ⟨.take, Nat.le_succ _, fun i hi => .inl ⟨.ok (), 1, by omega, fun Z _ => ?_⟩⟩
  rw [Reading.take, Cursor.next_on]

/-- A reading that looks at its token, and does the same at a newline and at the end. -/
theorem of_current {g : Token → Reading α} (hg : ∀ t, Fated A A.length Φ (g t)) (heof : g ⟨.eof, .forgotten⟩ = s)
    (hnewline : g ⟨.newline, .forgotten⟩ = s) (hs : Fated A (A.length + 1) Φ s) :
    Fated A (A.length + 1) Φ (current >>= g) := by
  refine ⟨.bind .current fun t => (hg t).steady, Nat.le_refl _, fun i hi => ?_⟩
  have hshown : ∀ {Z l}, (Cursor.shown (row A Z) i).lexeme = l → Cursor.shown (row A Z) i = ⟨l, .forgotten⟩ := by
    rintro Z l rfl
    rw [← span_row (A := A) (Z := Z) (i := i)]
  by_cases hlt : i < A.length
  · refine .congr (fun Z _ => ?_) ((hg ⟨A[i], .forgotten⟩).fate i hlt)
    rw [current_bind_apply, Cursor.on_current, hshown (lexeme_row_lt hlt)]
  · obtain rfl : i = A.length := by omega
    refine .congr (fun Z hZ => ?_) (hs.fate _ hi)
    rw [current_bind_apply, Cursor.on_current]
    rcases lexeme_row_length (A := A) hZ with h | h
    · rw [hshown h, heof]
    · rw [hshown h, hnewline]

theorem of_lexeme {g : Lexeme → Reading α} (hg : ∀ l, Fated A A.length Φ (g l)) (heof : g .eof = s)
    (hnewline : g .newline = s) (hs : Fated A (A.length + 1) Φ s) : Fated A (A.length + 1) Φ (lexeme >>= g) :=
  of_current (g := fun t => g t.lexeme) (fun t => hg t.lexeme) heof hnewline hs

/-- A test of the token that fails at a newline and at the end. -/
theorem ite_current {p : Lexeme → Bool} (heof : p .eof = false) (hnewline : p .newline = false) {g : Token → Reading α}
    (hg : ∀ t, Fated A A.length Φ (g t)) (hs : Fated A (A.length + 1) Φ s) :
    Fated A (A.length + 1) Φ (current >>= fun t => if p t.lexeme = true then g t else s) := by
  refine .of_current (s := s) (fun t => ?_) (if_neg ?_) (if_neg ?_) hs
  · split
    · exact hg t
    · exact hs.inside
  · exact ne_true_of_eq_false heof
  · exact ne_true_of_eq_false hnewline

theorem ite_lexeme {p : Lexeme → Bool} (heof : p .eof = false) (hnewline : p .newline = false) (hr : Fated A A.length Φ r)
    (hs : Fated A (A.length + 1) Φ s) :
    Fated A (A.length + 1) Φ (lexeme >>= fun l => if p l = true then r else s) :=
  ite_current heof hnewline (fun _ => hr) hs

/-- A test for a newline, where without one nothing can be read at the end. -/
theorem ite_newline (hr : Fated A A.length Φ r) (hs : Fated A (A.length + 1) Φ s)
    (hend : ∀ a c, ¬Reads s (.on (row A []) A.length) a c) :
    Fated A (A.length + 1) Φ (lexeme >>= fun l => if l.isNewline = true then r else s) := by
  refine ⟨.bind .lexeme fun _ => .ite hr.steady hs.steady, Nat.le_refl _, fun i hi => ?_⟩
  by_cases hlt : i < A.length
  · by_cases hp : A[i].isNewline = true
    · refine .congr (fun Z _ => ?_) (hr.fate i hlt)
      rw [lexeme_bind_apply, Cursor.on_current, lexeme_row_lt hlt, if_pos hp]
    · refine .congr (fun Z _ => ?_) (hs.fate i hi)
      rw [lexeme_bind_apply, Cursor.on_current, lexeme_row_lt hlt, if_neg hp]
  · obtain rfl : i = A.length := by omega
    refine .inr (.inr fun a c ha => absurd ?_ (hend a c))
    rw [reads_lexeme_bind, Cursor.on_current, lexeme_row_nil] at ha
    exact ha

/-- A reading that asks for its place only. -/
theorem of_span {g : Token → Reading α} (hg : ∀ t, Fated A b Φ (g t)) (hspan : ∀ l span, g ⟨l, span⟩ = g ⟨.eof, span⟩) :
    Fated A b Φ (current >>= g) := by
  refine ⟨.bind .current fun t => (hg t).steady, (hg ⟨.eof, .forgotten⟩).bound_le, fun i hi => ?_⟩
  refine .congr (fun Z _ => ?_) ((hg ⟨.eof, .forgotten⟩).fate i hi)
  rw [current_bind_apply, Cursor.on_current, ← span_row (A := A) (Z := Z) (i := i), ← hspan]

theorem relabel (e : Expected) (hr : Fated A b Φ r) : Fated A b Φ (r.relabel e) := by
  refine ⟨.relabel e hr.steady, hr.bound_le, fun i hi => ?_⟩
  rcases hr.fate i hi with ⟨res, k, hk, h⟩ | ⟨a, ha, ha'⟩ | h
  · cases res with
    | ok a =>
      refine .inl ⟨.ok a, k, hk, fun Z hZ => ?_⟩
      rw [Reading.relabel, h Z hZ]
    | error x =>
      cases x with
      | tooDeep =>
        refine .inl ⟨.error .tooDeep, k, hk, fun Z hZ => ?_⟩
        rw [Reading.relabel, h Z hZ]
      | unexpected e' span =>
        refine .inl ⟨.error (if k = 0 then .unexpected e .forgotten else .unexpected e' span), k, hk, fun Z hZ => ?_⟩
        rw [Reading.relabel, h Z hZ]
        by_cases hk : k = 0
        · simp only [hk, if_true, Cursor.on_current, span_row]
        · simp only [hk, if_false]
  · exact .inr (.inl ⟨a, reads_relabel.2 ha, reads_relabel.2 ha'⟩)
  · exact .inr (.inr fun a c ha => h a c (reads_relabel.1 ha))

theorem expectKeyword (k : Keyword) : Fated A (A.length + 1) Φ (Reading.expectKeyword k) :=
  ite_lexeme rfl rfl take (fail _)

theorem expectSymbol (s : Symbol) (e : Expected) : Fated A (A.length + 1) Φ (Reading.expectSymbol s e) :=
  ite_lexeme rfl rfl take (fail _)

theorem expectName (e : Expected) : Fated A (A.length + 1) Φ (Reading.expectName e) := by
  refine .of_current (fun t => ?_) rfl rfl (fail e)
  obtain ⟨l, span⟩ := t
  cases l with
  | name text => exact take.bind_settled fun _ => pure _
  | _ => exact (fail e).inside

end Fated

end Rules

/-! ## Repetition -/

section Rounds

variable {A : List Lexeme} (hA : ∀ l ∈ A, l ≠ .eof) {α σ : Type} {Φ Ψ : Nat → Prop} {further : Reading α}
  {D : List Lexeme → α → Lexeme → Prop} (hsound : ∀ Z, Rest Z → Sound (row A Z) further D)
  {joins : Lexeme → Bool} (heof : joins .eof = false) (hnewline : joins .newline = false)

include hA hsound heof hnewline

theorem fated_repeating (add : σ → Lexeme → α → σ) (hf : Fated A (A.length + 1) Φ further)
    (hΦ : ∀ s j, Φ j → Strays A Ψ (repeating (round joins add further) s) j) (s : σ) :
    Fated A (A.length + 1) Ψ (repeating (round joins add further) s) := by
  have hsteady : ∀ s, Follows False id id (repeating (round joins add further) s) (repeating (round joins add further) s) := fun s =>
    .repeating s fun s => .bind .lexeme fun op => .ite (.bind .take fun _ => .bind hf.steady fun a => .pure rfl) (.pure rfl)
  refine ⟨hsteady s, Nat.le_refl _, fun i hi => ?_⟩
  induction hn : A.length - i using Nat.strongRecOn generalizing s i with
  | _ n ih =>
    subst hn
    refine .congr (fun Z hZ => repeating_round_eq (ended_row hA hZ) (hsound Z hZ) heof add s (by rw [length_row]; omega)) ?_
    by_cases hlt : i < A.length
    · by_cases hj : joins A[i] = true
      · refine .congr (s := do
          take
          let a ← further
          repeating (round joins add further) (add s A[i] a)) (fun Z _ => ?_) ?_
        · rw [lexeme_bind_apply, Cursor.on_current, lexeme_row_lt hlt, if_pos hj]
        · refine .of_settled (a := ()) (k := 1) (fun Z _ => by rw [take, Cursor.next_on]) ?_
          refine .bind hlt (hf.fate (i + 1) (by omega)) (fun a j hij hj => ?_) (fun a => hsteady _) (fun a => hΦ _)
          exact ih _ (by omega) _ j (by omega) rfl
      · refine .congr (fun Z _ => ?_) ((Fated.pure s).fate i hi)
        rw [lexeme_bind_apply, Cursor.on_current, lexeme_row_lt hlt, if_neg hj]
    · obtain rfl : i = A.length := by omega
      refine .congr (fun Z hZ => ?_) ((Fated.pure s).fate _ hi)
      rw [lexeme_bind_apply, Cursor.on_current]
      rcases lexeme_row_length (A := A) hZ with h | h
      · rw [h, if_neg (ne_true_of_eq_false heof)]
      · rw [h, if_neg (ne_true_of_eq_false hnewline)]

omit hA hsound heof hnewline in
/-- Where nothing joins a repetition stops at once. -/
theorem strays_repeating (add : σ → Lexeme → α → σ) {s : σ} {i : Nat} (hi : i < (row A []).length)
    (hno : joins (Cursor.shown (row A []) i).lexeme = false) (h : Φ i) :
    Strays A Φ (repeating (round joins add further) s) i := by
  intro t c ht
  obtain ⟨_, rfl⟩ := ht.unique (reads_repeating_none hi (reads_round_none add hno))
  exact ⟨i, rfl, h⟩

omit heof hnewline in
theorem fated_commaSeparated (hf : Fated A (A.length + 1) Φ further)
    (hΦ : ∀ j, Φ j → j < A.length ∧ (Cursor.shown (row A []) j).lexeme ≠ .symbol .comma) :
    Fated A (A.length + 1) Φ further.commaSeparated := by
  have hstop : ∀ items j, Φ j → Strays A Φ (further.moreItems items) j := by
    intro items j hj
    obtain ⟨hlt, hcomma⟩ := hΦ j hj
    refine strays_repeating (fun items _ a => a :: items) (by rw [length_row]; omega) ?_ hj
    exact Bool.eq_false_iff.2 fun h => hcomma (Lexeme.isSymbol_iff.1 h)
  have hmore : ∀ items, Fated A (A.length + 1) Φ (further.moreItems items) :=
    fated_repeating hA hsound rfl rfl (fun items _ a => a :: items) hf hstop
  refine hf.bind (fun first => (hmore [first]).bind (fun _ => .pure _) fun _ _ => .pure) fun first j hj => ?_
  exact (hstop [first] j hj).bind fun _ _ => .pure

end Rounds

end Scriptlet.Grammar
