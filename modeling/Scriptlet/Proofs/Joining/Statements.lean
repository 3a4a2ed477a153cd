import Scriptlet.Proofs.Joining.Stuck
/-!
# The fate of a row of statements

A row of statements does not stop where the lexemes end: more statements may come.  So it has one of the fates of other
readings, or it comes to the newlines with which the lexemes end, and does from there what it would do from any row of
statements (`Trails`).

What comes after such newlines then decides.  If nothing does, or what would close a block, the row ends there
(`Trails.ends`); if it is another program, the row goes on with the statements of that program (`Trails.goes_on`).
-/
namespace Scriptlet.Grammar

open Production Reading

/-! ## Newlines -/

/-- Where a reading comes to says how much it took. -/
theorem reply_eq {α : Type} {r : Reading α} (hr : Follows False id id r r) {tokens : List Token} (ht : tokens ≠ [])
    {i k : Nat} {a : α} (h : Reads r (.on tokens i) a (.on tokens (i + k))) :
    r (.on tokens i) = ⟨.ok a, k, .on tokens (i + k)⟩ := by
  have htaken : (r (.on tokens i)).taken = k := by
    have := on_row_inj ((hr.cursor_eq ht i).symm.trans h.2)
    omega
  exact Reply.ext h.1 htaken h.2

theorem covers_newlines {tokens : List Token} (ht : Ended tokens) {i n : Nat} (hi : i < tokens.length)
    (h : ∀ k, k < n → (Cursor.shown tokens (i + k)).lexeme = .newline) :
    Covers tokens i (List.replicate n .newline) (i + n) := by
  induction n with
  | zero => exact .refl hi
  | succ n ih =>
    rw [List.replicate_succ']
    exact (ih fun k hk => h k (Nat.lt_succ_of_lt hk)).trans (.one ht (h n (Nat.lt_succ_self n)) (by simp))

/-- Only newlines stand from the place to the end of the lexemes. -/
def Blank (A : List Lexeme) (i : Nat) : Prop :=
  i ≤ A.length ∧ ∀ (k : Nat) (h : k < A.length), i ≤ k → A[k] = .newline

section Lines

variable {A : List Lexeme} {i : Nat}

theorem newlines_or_blank (hi : i ≤ A.length) :
    (∃ n, ∃ h : i + n < A.length, A[i + n] ≠ .newline ∧ ∀ k (hk : k < n), A[i + k] = .newline) ∨ Blank A i := by
  induction hn : A.length - i generalizing i with
  | zero => exact .inr ⟨hi, fun k hk hik => by omega⟩
  | succ m ih =>
    have hlt : i < A.length := by omega
    by_cases hline : A[i] = .newline
    · rcases ih (i := i + 1) hlt (by omega) with ⟨n, hn, hstop, hbefore⟩ | ⟨_, hblank⟩
      · refine .inl ⟨n + 1, by omega, ?_, fun k hk => ?_⟩
        · simpa only [show i + (n + 1) = i + 1 + n by omega] using hstop
        · cases k with
          | zero => exact hline
          | succ k =>
            have := hbefore k (Nat.lt_of_succ_lt_succ hk)
            simpa only [show i + (k + 1) = i + 1 + k by omega] using this
      · refine .inr ⟨hi, fun k hk hik => ?_⟩
        by_cases hki : k = i
        · subst hki
          exact hline
        · exact hblank k hk (by omega)
    · exact .inl ⟨0, hlt, hline, fun k hk => absurd hk (Nat.not_lt_zero k)⟩

variable (hA : ∀ l ∈ A, l ≠ .eof)

include hA

/-- Newlines inside the lexemes are the same whatever comes after. -/
theorem newlines_settled {n : Nat} (h : i + n < A.length) (hstop : A[i + n] ≠ .newline)
    (hbefore : ∀ k (hk : k < n), A[i + k] = .newline) {Z : List Lexeme} (hZ : Rest Z) :
    newlines (.on (row A Z) i) = ⟨.ok n, n, .on (row A Z) (i + n)⟩ := by
  have ht := ended_row hA hZ
  refine reply_eq .newlines ht.ne_nil (reads_newlines ht (covers_newlines ht ?_ fun k hk => ?_) ?_)
  · rw [length_row]
    omega
  · rw [lexeme_row_lt (by omega), hbefore k hk]
  · rwa [lexeme_row_lt h]

theorem Blank.covers (h : Blank A i) {Z : List Lexeme} (hZ : Rest Z) :
    Covers (row A Z) i (List.replicate (A.length - i) .newline) A.length := by
  have hle := h.1
  have hlt : i < (row A Z).length := by
    rw [length_row]
    omega
  have hcovers := covers_newlines (n := A.length - i) (ended_row hA hZ) hlt fun k hk => by
    rw [lexeme_row_lt (by omega)]
    exact h.2 (i + k) (by omega) (by omega)
  rwa [show i + (A.length - i) = A.length by omega] at hcovers

end Lines

/-! ## Rows -/

/-- What a row of statements has come to after one more was tried. -/
def Production.Progress.tried (s : Progress) : Tried Node → Progress
  | .read node => { s with items := node :: s.items }
  | .handedBack k => { s with handedBack := k, goesOn := false }

/-- The rest of a row of statements. -/
def further (d : Nat) (s : Progress) : Reading Progress := repeating (nextStatement (readAt d)) s

section Rows

variable {tokens : List Token} {d i : Nat} {s : Progress}

theorem further_steady (d : Nat) (s : Progress) : Follows False id id (further d s) (further d s) := by
  refine .repeating s fun s => .bind .newlines fun n => .ite (.pure rfl) ?_
  refine .bind (.attempt (readAt_follows_self d .expression)) fun t => ?_
  cases t with
  | read node => exact .pure rfl
  | handedBack k => exact .pure rfl

/-- Where no newline stands the row ends. -/
theorem further_stops (hi : i < tokens.length) (h : (Cursor.shown tokens i).lexeme ≠ .newline) :
    Reads (further d s) (.on tokens i) s (.on tokens i) := by
  refine reads_repeating_none hi (reads_bind.2 ⟨0, _, reads_newlines_zero hi h, ?_⟩)
  rw [if_pos (.inl rfl)]
  exact reads_pure.2 ⟨rfl, rfl⟩

/-- Where newlines stand, a statement is tried after them. -/
theorem further_eq (ht : Ended tokens) (hi : i < tokens.length) (hgo : s.goesOn = true) {n : Nat} (hn : n ≠ 0)
    {c : Cursor} (hlines : Reads newlines (.on tokens i) n c) : further d s (.on tokens i) =
      (newlines >>= fun _ => attempt (readAt d .expression) >>= fun t => further d (s.tried t)) (.on tokens i) := by
  rw [further, repeating_eq (advances_statements ht d) s hi, nextStatement, Reading.bind_assoc]
  refine bind_congr_on fun m c' hm => ?_
  obtain ⟨rfl, rfl⟩ := hm.unique hlines
  rw [if_neg (by simp [hn, hgo]), Reading.bind_assoc]
  refine bind_congr_on fun t c' _ => ?_
  cases t <;> exact congrFun (Reading.pure_bind _ _) _

/-- After the newlines comes something that begins no statement. -/
theorem further_ends (items : List Node) (ht : Ended tokens) (hd : Production.expression.rank < d) {n j : Nat}
    (h : Covers tokens i (List.replicate n .newline) j) (hstop : (Cursor.shown tokens j).lexeme ≠ .newline)
    (hstarts : (Cursor.shown tokens j).lexeme.starts = false) :
    ∃ goesOn, Reads (further d ⟨items, 0, true⟩) (.on tokens i) ⟨items, 0, goesOn⟩ (.on tokens j) := by
  have hlines := reads_newlines ht h hstop
  by_cases hn : n = 0
  · subst hn
    cases h.eq_of_nil
    exact ⟨true, further_stops h.2.1 hstop⟩
  · obtain ⟨refusal, he, hr⟩ := readAt_refuses d .expression rfl
    obtain ⟨e, he⟩ := he hd
    have hr := hr (.on tokens j) hstarts
    rw [he] at hr
    have hback := (reads_attempt (readAt_follows_self d .expression) ht.ne_nil).2 (.inr ⟨e, _, rfl, by rw [hr], rfl⟩)
    rw [hr] at hback
    refine ⟨false, ?_⟩
    rw [Reads, further_eq ht h.lt_length rfl hn hlines]
    exact reads_bind.2 ⟨n, _, hlines, reads_bind.2 ⟨_, _, hback, further_stops h.2.1 hstop⟩⟩

end Rows

/-! ## Fates -/

/-- The reading comes to the newlines at the end of the lexemes, with statements that are read so far, and goes on with
the rest of their row. -/
def Trails (A : List Lexeme) (d : Nat) (r : Reading Progress) (i : Nat) : Prop :=
  ∃ items m, Blank A m ∧ ∀ Z, Rest Z → ∀ t c,
    Reads (further d ⟨items, 0, true⟩) (.on (row A Z) m) t c → Reads r (.on (row A Z) i) t c

def RowFate (A : List Lexeme) (d : Nat) (r : Reading Progress) (i : Nat) : Prop :=
  Fate A (Stuck A) r i ∨ Trails A d r i

section Fates

variable {A : List Lexeme} {d i : Nat}

theorem RowFate.congr {r s : Reading Progress} (h : ∀ Z, Rest Z → r (.on (row A Z) i) = s (.on (row A Z) i))
    (hs : RowFate A d s i) : RowFate A d r i := by
  rcases hs with hs | ⟨items, m, hm, hs⟩
  · exact .inl (.congr h hs)
  · refine .inr ⟨items, m, hm, fun Z hZ t c ht => ?_⟩
    rw [Reads, h Z hZ]
    exact hs Z hZ t c ht

theorem RowFate.of_settled {α : Type} {r : Reading α} {f : α → Reading Progress} {a : α} {k : Nat}
    (hr : ∀ Z, Rest Z → r (.on (row A Z) i) = ⟨.ok a, k, .on (row A Z) (i + k)⟩) (hf : RowFate A d (f a) (i + k)) :
    RowFate A d (r >>= f) i := by
  rcases hf with hf | ⟨items, m, hm, hf⟩
  · exact .inl (.of_settled hr hf)
  · refine .inr ⟨items, m, hm, fun Z hZ t c ht => reads_bind.2 ⟨a, _, ?_, hf Z hZ t c ht⟩⟩
    rw [Reads, hr Z hZ]
    exact ⟨rfl, rfl⟩

/-- At a place that is stuck a row of statements ends. -/
theorem Stuck.further {s : Progress} (h : Stuck A i) : Strays A (Stuck A) (further d s) i := by
  intro t c ht
  obtain ⟨_, rfl⟩ := ht.unique (further_stops h.lt_length (h.ne_of_starts rfl))
  exact ⟨i, rfl, h⟩

/-- The fate of a row after something that has a fate itself. -/
theorem RowFate.bind {α : Type} {r : Reading α} {next : α → Progress} (hr : Fate A (Stuck A) r i)
    (hnext : ∀ a k, (∀ Z, Rest Z → r (.on (row A Z) i) = ⟨.ok a, k, .on (row A Z) (i + k)⟩) → i + k ≤ A.length →
      RowFate A d (further d (next a)) (i + k)) : RowFate A d (r >>= fun a => further d (next a)) i := by
  rcases hr with ⟨res, k, hk, hr⟩ | ⟨a, ha, ha'⟩ | hr
  · cases res with
    | ok a => exact .of_settled hr (hnext a k hr hk)
    | error e => exact .inl (.inl ⟨.error e, k, hk, fun Z hZ => bind_apply_error (hr Z hZ)⟩)
  · -- An unclosed statement ends with the lexemes or with the closing, and no newline follows there.
    refine .inl (.inr (.inl ⟨next a, reads_bind.2 ⟨a, _, ha, further_stops ?_ ?_⟩, reads_bind.2 ⟨a, _, ha', further_stops ?_ ?_⟩⟩))
    · rw [length_row]
      omega
    · rw [lexeme_row_nil]
      simp
    · rw [length_row]
      exact Nat.lt_succ_self _
    · have hlast : (Cursor.shown (row A closing) (A.length + 2)).lexeme = .eof := by
        rw [closing, shown_row_cons]
        rfl
      rw [hlast]
      simp
  · exact .inl (.inr (.inr (hr.bind fun a j hj => hj.further)))

variable (hA : ∀ l ∈ A, l ≠ .eof)

include hA

variable (hfated : ∀ b, b ≤ d → Fated A (A.length + 1) (Stuck A) (readAt b .expression))

include hfated

/-- A statement that is tried inside the lexemes: if it is handed back for what comes after them, it is stuck. -/
theorem attempt_fate (hi : i < A.length) : Fate A (Stuck A) (attempt (readAt d .expression)) i := by
  have hsteady := readAt_follows_self d .expression
  have hsettled : Settled A (readAt d .expression) i → Fate A (Stuck A) (attempt (readAt d .expression)) i := by
    rintro ⟨res, k, hk, h⟩
    cases res with
    | ok a => exact .inl ⟨.ok (.read a), k, hk, fun Z hZ => by rw [attempt, h Z hZ]⟩
    | error x =>
      cases x with
      | tooDeep => exact .inl ⟨.error .tooDeep, k, hk, fun Z hZ => by rw [attempt, h Z hZ]⟩
      | unexpected e span =>
        refine .inl ⟨.ok (.handedBack k), 0, Nat.le_of_lt hi, fun Z hZ => ?_⟩
        simp only [attempt, h Z hZ, Cursor.back_on, Nat.add_zero]
  rcases (hfated d (Nat.le_refl d)).fate i (by omega) with h | ⟨a, ha, ha'⟩ | h
  · exact hsettled h
  · exact .inr (.inl ⟨.read a, (reads_attempt hsteady row_ne_nil).2 (.inl ⟨a, rfl, ha⟩),
      (reads_attempt hsteady row_ne_nil).2 (.inl ⟨a, rfl, ha'⟩)⟩)
  · have hread : ∀ {t c}, Reads (attempt (readAt d .expression)) (.on (row A []) i) t c →
        (∃ j, c = .on (row A []) j ∧ Stuck A j) ∨ ∃ e span, (readAt d .expression (.on (row A []) i)).result =
          .error (.unexpected e span) ∧ c = .on (row A []) i := by
      intro t c ht
      rcases (reads_attempt hsteady row_ne_nil).1 ht with ⟨a, _, ha⟩ | ⟨e, span, _, he, hc⟩
      · exact .inl (h a c ha)
      · exact .inr ⟨e, span, he, hc⟩
    by_cases hdenied : ∃ e span, (readAt d .expression (.on (row A []) i)).result = .error (.unexpected e span)
    · obtain ⟨e, span, hdenied⟩ := hdenied
      rcases settled_or_stuck hA hi hdenied fun b hb => hfated b (Nat.le_of_lt hb) with h | hstuck
      · exact hsettled h
      · refine .inr (.inr fun t c ht => ?_)
        rcases hread ht with h | ⟨_, _, _, hc⟩
        · exact h
        · exact ⟨i, hc, hstuck⟩
    · refine .inr (.inr fun t c ht => ?_)
      rcases hread ht with h | ⟨e, span, he, _⟩
      · exact h
      · exact (hdenied ⟨e, span, he⟩).elim

omit hA hfated in
/-- A row that is not to go on, or has no newline to go on after, ends where it is, whatever comes after the lexemes. -/
theorem further_settled {s : Progress} (hi : i < A.length) (h : A[i] ≠ .newline) : Settled A (further d s) i := by
  refine ⟨.ok s, 0, Nat.le_of_lt hi, fun Z hZ => reply_eq (further_steady d s) row_ne_nil (further_stops ?_ ?_)⟩
  · rw [length_row]
    omega
  · rwa [lexeme_row_lt hi]

/-- **The fate of a row of statements.** -/
theorem further_fate (items : List Node) (hi : i ≤ A.length) : RowFate A d (further d ⟨items, 0, true⟩) i := by
  -- By induction on what is left of the lexemes; each round takes a newline.
  induction hm : A.length - i using Nat.strongRecOn generalizing items i with
  | _ m ih =>
    subst hm
    rcases newlines_or_blank hi with ⟨n, hn, hstop, hbefore⟩ | hblank
    · by_cases hzero : n = 0
      · subst hzero
        exact .inl (.inl (further_settled hn hstop))
      · have hlines : ∀ Z, Rest Z → newlines (.on (row A Z) i) = ⟨.ok n, n, .on (row A Z) (i + n)⟩ :=
          fun Z hZ => newlines_settled hA hn hstop hbefore hZ
        refine .congr (fun Z hZ => further_eq (ended_row hA hZ) (by rw [length_row]; omega) rfl hzero
          (show Reads newlines _ n (.on (row A Z) (i + n)) from ?_)) (.of_settled hlines (.bind (attempt_fate hA hfated hn) ?_))
        · rw [Reads, hlines Z hZ]
          exact ⟨rfl, rfl⟩
        · intro t k ht hk
          cases t with
          | read node => exact ih _ (by omega) (node :: items) hk rfl
          | handedBack taken =>
            -- What is handed back was not taken.
            obtain rfl : k = 0 := by
              have htaken := congrArg Reply.taken (ht [] rest_nil)
              have hresult := congrArg Reply.result (ht [] rest_nil)
              simp only [attempt] at htaken hresult
              split at htaken <;> simp_all
            exact .inl (.inl (further_settled hn hstop))
    · exact .inr ⟨items, i, hblank, fun _ _ _ _ h => h⟩

end Fates

/-! ## Statements -/

/-- Statements in a row, before they are made a block. -/
def statementRow (d : Nat) : Reading Progress := do
  let _ ← newlines
  let first ← readAt d .expression
  further d ⟨[first], 0, true⟩

def Production.Progress.block (s : Progress) : Block := ⟨s.items.reverse, .forgotten, s.handedBack⟩

/-- An expression is read only with the depth to get to an atom. -/
theorem rank_lt_of_reads : ∀ (d : Nat) (p : Production), p.isOperand = true → ∀ {c c' : Cursor} {a : p.Result},
    Reads (readAt d p) c a c' → p.rank < d
  | 0, _, _, _, _, _, h => (reads_tooDeep.1 h).elim
  | d + 1, .expression, _, c, c', a, h => by
    rw [readAt, body, expressionForm, reads_lexeme_bind, reads_ite, reads_relabel] at h
    rcases h with ⟨_, h⟩ | ⟨_, h⟩
    · rw [reads_take_bind] at h
      obtain ⟨name, c₁, _, h⟩ := reads_bind.1 h
      obtain ⟨_, c₂, _, h⟩ := reads_bind.1 h
      obtain ⟨value, c₃, h, _⟩ := reads_bind.1 h
      exact Nat.lt_succ_of_lt (rank_lt_of_reads d .expression rfl h)
    · obtain ⟨first, c₁, h, _⟩ := reads_bind.1 h
      exact Nat.succ_lt_succ (rank_lt_of_reads d .comparison rfl h)
  | d + 1, .comparison, _, c, c', a, h => by
    rw [readAt, body, comparisonForm, reads_current_bind, reads_ite, reads_relabel] at h
    rcases h with ⟨_, h⟩ | ⟨_, h⟩
    · rw [reads_take_bind] at h
      obtain ⟨operand, c₁, h, _⟩ := reads_bind.1 h
      exact Nat.lt_succ_of_lt (rank_lt_of_reads d .comparison rfl h)
    · obtain ⟨first, c₁, h, _⟩ := reads_bind.1 h
      exact Nat.succ_lt_succ (rank_lt_of_reads d .sum rfl h)
  | d + 1, .sum, _, c, c', a, h => by
    rw [readAt, body, chain] at h
    obtain ⟨first, c₁, h, _⟩ := reads_bind.1 h
    exact Nat.succ_lt_succ (rank_lt_of_reads d .product rfl h)
  | d + 1, .product, _, c, c', a, h => by
    rw [readAt, body, chain] at h
    obtain ⟨first, c₁, h, _⟩ := reads_bind.1 h
    exact Nat.succ_lt_succ (rank_lt_of_reads d .factor rfl h)
  | d + 1, .factor, _, c, c', a, h => by
    rw [readAt, body, factorForm, reads_current_bind, reads_ite] at h
    rcases h with ⟨_, h⟩ | ⟨_, h⟩
    · rw [reads_take_bind] at h
      obtain ⟨operand, c₁, h, _⟩ := reads_bind.1 h
      exact Nat.lt_succ_of_lt (rank_lt_of_reads d .factor rfl h)
    · exact Nat.succ_lt_succ (rank_lt_of_reads d .power rfl h)
  | d + 1, .power, _, c, c', a, h => by
    rw [readAt, body, chain] at h
    obtain ⟨first, c₁, h, _⟩ := reads_bind.1 h
    exact Nat.succ_lt_succ (rank_lt_of_reads d .call rfl h)
  | d + 1, .call, _, c, c', a, h => by
    rw [readAt, body, callForm] at h
    obtain ⟨callee, c₁, h, _⟩ := reads_bind.1 h
    exact Nat.succ_lt_succ (rank_lt_of_reads d .atom rfl h)
  | d + 1, .atom, _, _, _, _, _ => Nat.succ_pos d

section Statements

variable {A : List Lexeme} {d i : Nat}

theorem statements_eq (Z : List Lexeme) : statementsForm (readAt d) (.on (row A Z) i) =
    (statementRow d >>= fun s => Pure.pure s.block) (.on (row A Z) i) := by
  have hform : statementsForm (readAt d) = current >>= fun t => statementRow d >>= fun s => current >>= fun u =>
      Pure.pure ⟨s.items.reverse, ⟨t.span.start, u.span.stop⟩, s.handedBack⟩ := by
    simp only [statementsForm, statementRow, Reading.bind_assoc]
    rfl
  have hsteady : Follows False id id (statementRow d) (statementRow d) :=
    .bind .newlines fun _ => .bind (readAt_follows_self d .expression) fun first => further_steady d _
  rw [hform, current_bind_apply]
  refine bind_congr_on fun s c hs => ?_
  rw [current_bind_apply, ← hs.2, hsteady.cursor_eq row_ne_nil, Cursor.on_current, Cursor.on_current, span_row, span_row]
  rfl

theorem reads_statements {Z : List Lexeme} {b : Block} {c : Cursor} :
    Reads (statementsForm (readAt d)) (.on (row A Z) i) b c ↔
      ∃ s, Reads (statementRow d) (.on (row A Z) i) s c ∧ b = s.block := by
  rw [Reads, statements_eq, ← Reads, reads_bind]
  constructor
  · rintro ⟨s, c₁, hs, h⟩
    obtain ⟨rfl, rfl⟩ := reads_pure.1 h
    exact ⟨s, hs, rfl⟩
  · rintro ⟨s, hs, rfl⟩
    exact ⟨s, c, hs, reads_pure.2 ⟨rfl, rfl⟩⟩

/-- Statements end with the lexemes, or in front of `end` if what would close a block comes next. -/
def Unended (A : List Lexeme) (r : Reading Block) (i : Nat) : Prop :=
  ∃ b, Reads r (.on (row A []) i) b (.on (row A []) A.length) ∧
    Reads r (.on (row A closing) i) b (.on (row A closing) (A.length + 1))

variable (hA : ∀ l ∈ A, l ≠ .eof)

include hA

/-- From the newlines at the end no more statements are read, if the lexemes stand alone. -/
theorem Blank.further_alone (h : Blank A i) (hd : Production.expression.rank < d) (items : List Node) :
    ∃ goesOn, Reads (further d ⟨items, 0, true⟩) (.on (row A []) i) ⟨items, 0, goesOn⟩ (.on (row A []) A.length) :=
  further_ends items (ended_row hA rest_nil) hd (h.covers hA rest_nil) (by rw [lexeme_row_nil]; simp)
    (by rw [lexeme_row_nil]; rfl)

/-- A row that comes to the newlines at the end has read its statements, if no more come. -/
theorem Trails.ends {r : Reading Progress} (h : Trails A d r i) (hd : Production.expression.rank < d) :
    ∃ items goesOn goesOn', Reads r (.on (row A []) i) ⟨items, 0, goesOn⟩ (.on (row A []) A.length) ∧
      Reads r (.on (row A closing) i) ⟨items, 0, goesOn'⟩ (.on (row A closing) (A.length + 1)) := by
  obtain ⟨items, m, hm, h⟩ := h
  obtain ⟨goesOn, halone⟩ := hm.further_alone hA hd items
  have ht := ended_row hA rest_closing
  have hcovers := (hm.covers hA rest_closing).trans (.one ht lexeme_row_cons (by simp))
  rw [← List.replicate_succ'] at hcovers
  obtain ⟨goesOn', hclosing⟩ := further_ends items ht hd hcovers (by rw [lexeme_row_end]; simp) (by rw [lexeme_row_end]; rfl)
  exact ⟨items, goesOn, goesOn', h [] rest_nil _ _ halone, h closing rest_closing _ _ hclosing⟩

variable (hfated : ∀ b, b ≤ d → Fated A (A.length + 1) (Stuck A) (readAt b .expression))

include hfated

theorem statementRow_fate (hi : i ≤ A.length) : RowFate A d (statementRow d) i := by
  rcases newlines_or_blank hi with ⟨n, hn, hstop, hbefore⟩ | hblank
  · refine .of_settled (fun Z hZ => newlines_settled hA hn hstop hbefore hZ) ?_
    exact .bind ((hfated d (Nat.le_refl d)).fate _ (by omega)) fun a k _ hk => further_fate hA hfated [a] hk
  · -- Alone there is no statement to begin with.
    refine .inl (.inr (.inr fun t c ht => ?_))
    obtain ⟨n, c₁, hn, ht⟩ := reads_bind.1 ht
    obtain ⟨_, rfl⟩ := hn.unique
      (reads_newlines (ended_row hA rest_nil) (hblank.covers hA rest_nil) (by rw [lexeme_row_nil]; simp))
    obtain ⟨a, c₂, ha, _⟩ := reads_bind.1 ht
    exact ((readAt_refuses d .expression rfl).not_reads (by rw [Cursor.on_current, lexeme_row_nil]; rfl) ha).elim

/-- **The fate of statements.** -/
theorem statements_fate (hi : i ≤ A.length) :
    Fate A (Stuck A) (statementsForm (readAt d)) i ∨ Unended A (statementsForm (readAt d)) i := by
  by_cases hd : Production.expression.rank < d
  · rcases statementRow_fate hA hfated hi with hrow | htrails
    · refine .inl (.congr (fun Z _ => statements_eq Z) (.bind hi hrow (fun s j _ hj => ?_) (fun s => .pure rfl) ?_))
      · exact (Fated.pure s.block).fate j (Nat.lt_succ_of_le hj)
      · exact fun s j hj => .pure hj
    · obtain ⟨items, goesOn, goesOn', halone, hclosing⟩ := htrails.ends hA hd
      exact .inr ⟨⟨items.reverse, .forgotten, 0⟩, reads_statements.2 ⟨_, halone, rfl⟩, reads_statements.2 ⟨_, hclosing, rfl⟩⟩
  · refine .inl (.inr (.inr fun b c hb => ?_))
    obtain ⟨s, hs, _⟩ := reads_statements.1 hb
    obtain ⟨n, c₁, _, hs⟩ := reads_bind.1 hs
    obtain ⟨first, c₂, hfirst, _⟩ := reads_bind.1 hs
    exact (hd (rank_lt_of_reads d .expression rfl hfirst)).elim

end Statements

/-! ## Two programs -/

section Two

variable {A B : List Lexeme} (hA : ∀ l ∈ A, l ≠ .eof) (hB : ∀ l ∈ B, l ≠ .eof) {d : Nat}

/-- A reading of the second text does the same after the first. -/
theorem reads_after {α : Type} {r : Reading α} (hr : Follows False id id r r) {i j : Nat} {a : α}
    (h : Reads r (.on (row B []) i) a (.on (row B []) j)) :
    Reads r (.on (row A (.newline :: B)) (A.length + 1 + i)) a (.on (row A (.newline :: B)) (A.length + 1 + j)) := by
  have hsplit : row A (.newline :: B) = bareTokens (A ++ [.newline]) ++ row B [] := by simp [row, bareTokens]
  have hlen : (bareTokens (A ++ [.newline])).length = A.length + 1 := by simp [bareTokens]
  have hshift := hr.shift (bareTokens (A ++ [.newline])) (show row B [] ≠ [] from row_ne_nil) i
  rw [← hsplit, hlen] at hshift
  have hj : i + (r (.on (row B []) i)).taken = j := on_row_inj ((hr.cursor_eq row_ne_nil i).symm.trans h.2)
  refine ⟨hshift.1.trans h.1, ?_⟩
  rw [hr.cursor_eq row_ne_nil, hshift.2, ← hj, Nat.add_assoc]

/-- Statements that were read before stay there. -/
def Production.Progress.after (s : Progress) (items : List Node) : Progress := { s with items := s.items ++ items }

theorem nextStatement_after {s : Progress} {o : Option Progress} {c c' : Cursor}
    (h : Reads (nextStatement (readAt d) s) c o c') (items : List Node) :
    Reads (nextStatement (readAt d) (s.after items)) c (o.map (·.after items)) c' := by
  obtain ⟨n, c₁, hn, h⟩ := reads_bind.1 h
  refine reads_bind.2 ⟨n, c₁, hn, ?_⟩
  rw [reads_ite] at h ⊢
  refine h.imp (fun ⟨hstop, h⟩ => ⟨hstop, ?_⟩) fun ⟨hgo, h⟩ => ⟨hgo, ?_⟩
  · obtain ⟨rfl, rfl⟩ := reads_pure.1 h
    exact reads_pure.2 ⟨rfl, rfl⟩
  · obtain ⟨t, c₂, ht, h⟩ := reads_bind.1 h
    refine reads_bind.2 ⟨t, c₂, ht, ?_⟩
    cases t with
    | read node | handedBack k =>
      obtain ⟨rfl, rfl⟩ := reads_pure.1 h
      exact reads_pure.2 ⟨rfl, rfl⟩

theorem further_after {tokens : List Token} (ht : Ended tokens) {i : Nat} (hi : i < tokens.length) {s t : Progress}
    {c : Cursor} (h : Reads (further d s) (.on tokens i) t c) (items : List Node) :
    Reads (further d (s.after items)) (.on tokens i) (t.after items) c := by
  induction hn : tokens.length - i using Nat.strongRecOn generalizing s i with
  | _ n ih =>
    subst hn
    have hadvances := advances_statements ht d
    rw [further, Reads, repeating_eq hadvances s hi] at h
    obtain ⟨o, c₁, ho, h⟩ := reads_bind.1 h
    cases o with
    | none =>
      obtain ⟨rfl, rfl⟩ := reads_pure.1 h
      exact reads_repeating_none hi (nextStatement_after ho items)
    | some u =>
      obtain ⟨j, rfl, hij, hj⟩ := hadvances s u i c₁ hi ho
      exact reads_repeating_some hadvances hi (nextStatement_after ho items) (ih _ (by omega) hj h rfl)

include hA hB

/-- **Statements that come to the end of a text go on with those of the next text.** -/
theorem Trails.goes_on {r : Reading Progress} {i : Nat} (h : Trails A d r i) {s t : Progress} {c : Cursor}
    (hd : Production.expression.rank < d) (halone : Reads r (.on (row A []) i) s c) {stop : Nat}
    (hnext : Reads (statementRow d) (.on (row B []) 0) t (.on (row B []) stop)) :
    Reads r (.on (row A (.newline :: B)) i) (t.after s.items) (.on (row A (.newline :: B)) (A.length + 1 + stop)) := by
  obtain ⟨items, m, hm, h⟩ := h
  have hZ : Rest (.newline :: B) := ⟨by simpa using hB, by simp⟩
  have ht := ended_row hA hZ
  have hle := hm.1
  have hlength : ∀ {k}, k < (row B []).length → A.length + 1 + k < (row A (.newline :: B)).length := by
    intro k hk
    rw [length_row, List.length_nil] at hk
    rw [length_row, List.length_cons]
    omega
  obtain ⟨goesOn, hend⟩ := hm.further_alone hA hd items
  obtain ⟨rfl, _⟩ := halone.unique (h [] rest_nil _ _ hend)
  -- The second text is newlines, a statement and the rest of its row.
  obtain ⟨n, c₁, hn, hnext⟩ := reads_bind.1 hnext
  obtain ⟨first, c₂, hfirst, hnext⟩ := reads_bind.1 hnext
  have htB := ended_row hB rest_nil
  obtain ⟨q, _, rfl, hq, rfl, _⟩ := newlines_sound htB (by rw [length_row]; omega) hn
  obtain ⟨j, _, rfl, hj, _⟩ := readAt_sound htB d .expression hq.2.1 hfirst
  -- All newlines between the two texts are taken at once.
  have hbetween := (hm.covers hA hZ).trans (.one ht lexeme_row_cons (by simp))
  have hskip := reads_after (A := A) .newlines hn
  rw [Nat.add_zero] at hskip
  obtain ⟨q', _, hq', hcovers, rfl, hstop⟩ := newlines_sound ht hbetween.2.1 hskip
  cases on_row_inj hq'
  have hcovers := hbetween.trans hcovers
  rw [← List.replicate_succ', List.replicate_append_replicate] at hcovers
  have hlines := reads_newlines ht hcovers hstop
  refine h _ hZ _ _ ?_
  rw [Reads, further_eq ht hcovers.lt_length rfl (by omega) hlines]
  refine reads_bind.2 ⟨_, _, hlines, reads_bind.2 ⟨.read first, .on (row A (.newline :: B)) (A.length + 1 + j), ?_, ?_⟩⟩
  · have hsteady := readAt_follows_self d .expression
    exact (reads_attempt hsteady ht.ne_nil).2 (.inl ⟨first, rfl, reads_after hsteady hfirst⟩)
  · exact further_after ht (hlength hj.2.1) (reads_after (further_steady d _) hnext) items

end Two

end Scriptlet.Grammar
