import Scriptlet.Proofs.Arithmetic.Integers
import Scriptlet.Proofs.Display.Pieces
import Scriptlet.Proofs.Joining.Refusals
import Scriptlet.Shell
/-!
# Reading displayed values back

The text of a displayed list is the row of its pieces in brackets.  Read as a program it is a list of integers, if the pieces
spell one (`Nested.spelled?`): there is no gap among them, or a gap is all there is.  Where a gap stands between commas an
expression is missed.  Both are followed at once: a reading `Finds` a result or misses an expression, and so does a sequence of
such readings.

What is read is evaluated to the integers again, in one list.  So `[[1], 2]` comes back as `[1, 2]`, and only integers and lists of
integers come back as they are (`run_displayed`).
-/
namespace Scriptlet

/-! ## What reads back -/

/-- The integers that a row of pieces in brackets spells.  With a gap among them there are none, but a gap alone is no piece. -/
def Nested.spelled? : List (Option Int) → Option (List Int)
  | [none] => some []
  | ps => ps.mapM id

/-- An integer as it is written: digits, after a minus sign if it is negative. -/
def Arithmetic.ofInt : Int → Arithmetic
  | .ofNat n => .literal n
  | .negSucc n => .opposite (.literal (n + 1))

def Nested.intNode (n : Int) : Node := (Arithmetic.ofInt n).node

/-- The tree that is read from a displayed value. -/
def Nested.node? : Nested → Option Node
  | .int n => some (intNode n)
  | .list vs => (spelled? (list vs).pieces).map fun ns => .list (ns.map intNode) .forgotten

/-- What a displayed value is read back to. -/
def Nested.readBack? : Nested → Option Nested
  | .int n => some (.int n)
  | .list vs => (spelled? (list vs).pieces).map fun ns => .list (ns.map .int)

/-- An integer, or a list of integers. -/
def Nested.isFlat : Nested → Bool
  | .int _ => true
  | .list vs => vs.all (!·.isList)

namespace Grammar

open Production Reading Nested

/-! ## Up from an atom, at a depth -/

section Climbing

variable {tokens : List Token} {i j d : Nat} {n : Node} (hj : j < tokens.length)
  (hnext : continues (Cursor.shown tokens j).lexeme = false)

include hj hnext

theorem reads_factor_of_atom (hstart : (Cursor.shown tokens i).lexeme.isSymbol .minus = false)
    (h : Reads (readAt d .atom) (.on tokens i) n (.on tokens j)) :
    Reads (readAt (d + 3) .factor) (.on tokens i) n (.on tokens j) := by
  simp only [continues, Bool.or_eq_false_iff] at hnext
  have hcall := reads_call h hnext.1.1.1.1
  have hpower : Reads (readAt (d + 2) .power) (.on tokens i) n (.on tokens j) :=
    reads_chain_one hcall hj (isSymbol_power_of_joinsFactors hnext.1.1.1.2)
  exact reads_factor hpower hstart

theorem reads_expression_of_factor (hstart : leads (Cursor.shown tokens i).lexeme = false)
    (h : Reads (readAt d .factor) (.on tokens i) n (.on tokens j)) :
    Reads (readAt (d + 4) .expression) (.on tokens i) n (.on tokens j) := by
  simp only [leads, continues, Bool.or_eq_false_iff] at hstart hnext
  have hproduct : Reads (readAt (d + 1) .product) (.on tokens i) n (.on tokens j) := reads_chain_one h hj hnext.1.1.1.2
  have hsum : Reads (readAt (d + 2) .sum) (.on tokens i) n (.on tokens j) := reads_chain_one hproduct hj hnext.1.1.2
  have hcomparison := reads_comparison hsum hj hstart.1 hnext.1.2
  exact reads_expression hcomparison hj hstart.2 hnext.2

end Climbing

/-- Where no expression begins, one is missed. -/
theorem expression_missed {d : Nat} (hd : Production.comparison.rank < d) {c : Cursor}
    (hc : c.current.lexeme.starts = false) :
    (readAt (d + 1) .expression c).result = .error (.unexpected .expression c.current.span) := by
  obtain ⟨refusal, he, hr⟩ := readAt_refuses d .comparison rfl
  obtain ⟨e, he⟩ := he hd
  have hvar : ¬c.current.lexeme.isKeyword .var = true := by
    intro hl
    rw [Lexeme.isKeyword_iff.1 hl] at hc
    cases hc
  have hchain : chain (readAt d .comparison) (readAt d .comparison) joinsConditions c = _ := bind_apply_error (hr c hc)
  show (expressionForm (readAt d) c).result = _
  rw [expressionForm, lexeme_bind_apply, if_neg hvar, relabel, hchain, he]
  rfl

/-! ## Read or missed -/

/-- The reading comes to a result and stops at a place, or it misses an expression on the way. -/
def Finds {α : Type} (tokens : List Token) (r : Reading α) (i j : Nat) : Option α → Prop
  | some a => Reads r (.on tokens i) a (.on tokens j)
  | none => (r (.on tokens i)).result = .error (.unexpected .expression .forgotten)

namespace Finds

variable {α β : Type} {tokens : List Token} {r s : Reading α} {i j k : Nat}

theorem congr {o : Option α} (h : r (.on tokens i) = s (.on tokens i)) (hs : Finds tokens s i j o) :
    Finds tokens r i j o := by
  cases o with
  | none => exact (congrArg Reply.result h).trans hs
  | some a => rwa [Finds, Reads, h]

theorem bind {f : α → Reading β} {o : Option α} {g : α → Option β} (h : Finds tokens r i k o)
    (hf : ∀ a, Finds tokens (f a) k j (g a)) : Finds tokens (r >>= f) i j (o.bind g) := by
  cases o with
  | none => exact congrArg Reply.result (bind_apply_error (Reply.ext h rfl rfl))
  | some a =>
    have hfa := hf a
    rw [Option.bind_some]
    cases hg : g a with
    | none =>
      rw [hg] at hfa
      exact (congrArg Reply.result (bind_apply_ok (Reply.ext h.1 rfl h.2))).trans hfa
    | some b =>
      rw [hg] at hfa
      exact reads_bind.2 ⟨a, _, h, hfa⟩

theorem pure (a : α) : Finds tokens (Pure.pure a) i i (some a) := reads_pure.2 ⟨rfl, rfl⟩

end Finds

/-! ## Rows of pieces -/

section Rows

variable {tokens : List Token} (ht : Ended tokens) (hbare : ∀ i, (Cursor.shown tokens i).span = .forgotten) {i j : Nat}

theorem comma_or_close {ps : List (Option Int)} (h : Covers tokens i (ps.flatMap fun p => .symbol .comma :: pieceLexemes p) j)
    (hclose : (Cursor.shown tokens j).lexeme = .symbol .closeSquare) :
    (Cursor.shown tokens i).lexeme = .symbol .comma ∨ (Cursor.shown tokens i).lexeme = .symbol .closeSquare := by
  cases ps with
  | nil =>
    cases h.eq_of_nil
    exact .inr hclose
  | cons p ps => exact .inl h.head

section Pieces

include hbare

/-- An integer is read. -/
theorem reads_int {n : Int} (h : Covers tokens i (pieceLexemes (some n)) j)
    (hnext : continues (Cursor.shown tokens j).lexeme = false) (d : Nat) :
    Reads (readAt (d + 9) .expression) (.on tokens i) (intNode n) (.on tokens j) := by
  cases n with
  | ofNat n =>
    have hatom := reads_number (d := d + 1) h.head
    rw [hbare] at hatom
    cases h.tail.eq_of_nil
    exact reads_expression_of_factor h.2.1 hnext (by rw [h.head]; rfl)
      (reads_factor_of_atom h.2.1 hnext (by rw [h.head]; rfl) hatom)
  | negSucc n =>
    have htail := h.tail
    have hatom := reads_number (d := d) htail.head
    rw [hbare] at hatom
    cases htail.tail.eq_of_nil
    have hfactor := reads_opposite h.head (reads_factor_of_atom h.2.1 hnext (by rw [htail.head]; rfl) hatom)
    have hminus : Cursor.shown tokens i = ⟨(Cursor.shown tokens i).lexeme, (Cursor.shown tokens i).span⟩ := rfl
    rw [hminus, h.head, hbare] at hfactor
    exact reads_expression_of_factor h.2.1 hnext (by rw [h.head]; rfl) hfactor

/-- A piece is read if it is no gap. -/
theorem finds_piece {p : Option Int} (h : Covers tokens i (pieceLexemes p) j)
    (hnext : (Cursor.shown tokens j).lexeme = .symbol .comma ∨ (Cursor.shown tokens j).lexeme = .symbol .closeSquare)
    (d : Nat) : Finds tokens (readAt (d + 9) .expression) i j (p.map intNode) := by
  cases p with
  | none =>
    cases h.eq_of_nil
    have hmissed := expression_missed (d := d + 8) (c := .on tokens i) (show 6 < d + 8 by omega) (by
      rw [Cursor.on_current]
      rcases hnext with hnext | hnext <;> rw [hnext] <;> rfl)
    rw [Cursor.on_current, hbare] at hmissed
    exact hmissed
  | some n =>
    refine reads_int hbare h ?_ d
    rcases hnext with hnext | hnext <;> rw [hnext] <;> rfl

end Pieces

include ht hbare

theorem finds_moreItems {ps : List (Option Int)}
    (h : Covers tokens i (ps.flatMap fun p => .symbol .comma :: pieceLexemes p) j)
    (hclose : (Cursor.shown tokens j).lexeme = .symbol .closeSquare) (d : Nat) (read : List Node) :
    Finds tokens (moreItems (readAt (d + 9) .expression) read) i j
      ((ps.mapM id).map fun ns => (ns.map intNode).reverse ++ read) := by
  induction ps generalizing i read with
  | nil =>
    cases h.eq_of_nil
    exact reads_repeating_none h.2.1 (reads_round_none (fun items _ a => a :: items) (by rw [hclose]; rfl))
  | cons p ps ih =>
    obtain ⟨k, hk, hrest⟩ := h.tail.split
    have hround : moreItems (readAt (d + 9) .expression) read (.on tokens i) = (take >>= fun _ =>
        readAt (d + 9) .expression >>= fun a => moreItems (readAt (d + 9) .expression) (a :: read)) (.on tokens i) := by
      rw [moreItems, repeating_round_eq ht (readAt_sound ht (d + 9) .expression) rfl (fun items _ a => a :: items) read
        h.lt_length, lexeme_bind_apply, Cursor.on_current, h.head]
      rfl
    have htake : Finds tokens take i (i + 1) (some ()) := reads_take.2 (Cursor.next_on tokens i).symm
    have hfinds := Finds.congr hround
      (htake.bind fun _ => (finds_piece hbare hk (comma_or_close hrest hclose) d).bind fun a => ih hrest (a :: read))
    cases p with
    | none => exact hfinds
    | some n =>
      have hoption : ((some n :: ps).mapM id).map (fun ns => (ns.map intNode).reverse ++ read) =
          (ps.mapM id).map fun ns => (ns.map intNode).reverse ++ intNode n :: read := by
        cases hns : ps.mapM id <;> simp [List.mapM_cons, hns]
      rw [hoption]
      exact hfinds

/-- **A row of pieces is read if it has no gap**; else an expression is missed at the first one. -/
theorem finds_row {p : Option Int} {ps : List (Option Int)} (h : Covers tokens i (commaRow ((p :: ps).map pieceLexemes)) j)
    (hclose : (Cursor.shown tokens j).lexeme = .symbol .closeSquare) (d : Nat) :
    Finds tokens (readAt (d + 9) .expression).commaSeparated i j
      (((p :: ps).mapM id).map fun ns => ns.map intNode) := by
  rw [List.map_cons, commaRow, List.flatMap_map] at h
  obtain ⟨k, hk, hrest⟩ := h.split
  have hfinds := (finds_piece hbare hk (comma_or_close hrest hclose) d).bind fun a =>
    (finds_moreItems ht hbare hrest hclose d [a]).bind fun items => .pure items.reverse
  cases p with
  | none => exact hfinds
  | some n =>
    have hoption : ((some n :: ps).mapM id).map (fun ns => ns.map intNode) =
        ((ps.mapM id).map fun ns => (ns.map intNode).reverse ++ [intNode n]).bind fun items => some items.reverse := by
      cases hns : ps.mapM id <;> simp [List.mapM_cons, hns]
    rw [hoption]
    exact hfinds

end Rows

/-! ## Lists of pieces -/

section Lists

variable {tokens : List Token} {i : Nat}

/-- A list that is not empty is refused for what is in it. -/
theorem list_refused (hopen : (Cursor.shown tokens i).lexeme = .symbol .openSquare)
    (hstart : (Cursor.shown tokens (i + 1)).lexeme.isSymbol .closeSquare = false) {d : Nat} {x : Refusal}
    (h : ((readAt d .expression).commaSeparated (.on tokens (i + 1))).result = .error x) :
    ∃ k c, readAt (d + 1) .list (.on tokens i) = ⟨.error x, 1 + k, c⟩ := by
  have htake : expectSymbol .openSquare .openSquare (.on tokens i) = ⟨.ok (), 1, .on tokens (i + 1)⟩ := by
    rw [expectSymbol, lexeme_bind_apply, Cursor.on_current, if_pos (Lexeme.isSymbol_iff.2 hopen), take, Cursor.next_on]
  obtain ⟨k, c, hrow⟩ : ∃ k c, (readAt d .expression).commaSeparated (.on tokens (i + 1)) = ⟨.error x, k, c⟩ :=
    ⟨_, _, Reply.ext h rfl rfl⟩
  refine ⟨k, c, ?_⟩
  show listForm (readAt d) _ = _
  rw [listForm, current_bind_apply, bind_apply_ok htake, lexeme_bind_apply, Cursor.on_current tokens (i + 1),
    if_neg (ne_true_of_eq_false hstart), bind_apply_error hrow]

/-- Unless it is a single gap, a row does not begin where it ends. -/
theorem row_start {p : Option Int} {ps : List (Option Int)} (h : ¬(p = none ∧ ps = [])) :
    spelled? (p :: ps) = (p :: ps).mapM id ∧
    ∃ l ls, commaRow ((p :: ps).map pieceLexemes) = l :: ls ∧ l.isSymbol .closeSquare = false := by
  cases p with
  | none =>
    cases ps with
    | nil => exact absurd ⟨rfl, rfl⟩ h
    | cons q qs => exact ⟨rfl, _, _, rfl, rfl⟩
  | some n => cases n <;> exact ⟨rfl, _, _, rfl, rfl⟩

/-- **Pieces in brackets are read as a list of integers if they spell one.** -/
theorem finds_list (ht : Ended tokens) (hbare : ∀ i, (Cursor.shown tokens i).span = .forgotten) {j : Nat} {p : Option Int}
    {ps : List (Option Int)} (h : Covers tokens i
      (.symbol .openSquare :: (commaRow ((p :: ps).map pieceLexemes) ++ [.symbol .closeSquare])) j)
    (hnext : continues (Cursor.shown tokens j).lexeme = false) (d : Nat) :
    Finds tokens (readAt (d + 18) .expression) i j
      ((spelled? (p :: ps)).map fun ns => .list (ns.map intNode) .forgotten) := by
  have hopen := h.head
  have hlead : leads (Cursor.shown tokens i).lexeme = false := by rw [hopen]; rfl
  have hminus : (Cursor.shown tokens i).lexeme.isSymbol .minus = false := by rw [hopen]; rfl
  have hclimb : ∀ {ns : List Node}, Reads (readAt (d + 10) .list) (.on tokens i)
      (.list ns ⟨(Cursor.shown tokens i).span.start, (Cursor.shown tokens j).span.stop⟩) (.on tokens j) →
      Reads (readAt (d + 18) .expression) (.on tokens i) (.list ns .forgotten) (.on tokens j) := by
    intro ns hlist
    rw [hbare, hbare] at hlist
    exact reads_expression_of_factor h.2.1 hnext hlead
      (reads_factor_of_atom h.2.1 hnext hminus (reads_atom_list hopen hlist))
  obtain ⟨k, hrow, hclose⟩ := h.tail.split
  cases hclose.tail.eq_of_nil
  by_cases hgap : p = none ∧ ps = []
  · obtain ⟨rfl, rfl⟩ := hgap
    cases hrow.eq_of_nil
    exact hclimb (reads_list_nil hopen hclose.head)
  · obtain ⟨hspelled, l, ls, hls, hl⟩ := row_start hgap
    have hstart : (Cursor.shown tokens (i + 1)).lexeme.isSymbol .closeSquare = false := by
      rw [hls] at hrow
      rw [hrow.head, hl]
    have hfinds := finds_row ht hbare hrow hclose.head d
    rw [hspelled]
    cases hns : (p :: ps).mapM id with
    | some ns =>
      rw [hns] at hfinds
      exact hclimb (reads_list hopen hstart hfinds hclose.head)
    | none =>
      rw [hns] at hfinds
      obtain ⟨m, c, hlist⟩ := list_refused hopen hstart hfinds
      have hatom : readAt (d + 11) .atom (.on tokens i) = ⟨.error (.unexpected .expression .forgotten), 1 + m, c⟩ := by
        show atomForm (readAt (d + 10)) _ = _
        rw [atomForm, current_bind_apply, Cursor.on_current, hopen]
        exact hlist
      exact congrArg Reply.result (expression_error hlead hminus (.inl (by omega)) hatom)

end Lists

/-! ## Programs of one statement -/

theorem finds_program {A : List Lexeme} {d : Nat} (hstart : (Cursor.shown (row A []) 0).lexeme ≠ .newline)
    {o : Option Node} (h : Finds (row A []) (readAt d .expression) 0 A.length o) :
    Finds (row A []) (program (d + 1)) 0 A.length (o.map fun n => .list [n] .forgotten) := by
  have hlast : A.length < (row A []).length := by
    rw [length_row]
    omega
  have hlines : Finds (row A []) newlines 0 0 (some 0) := reads_newlines_zero (by rw [length_row]; omega) hstart
  have hrow : Finds (row A []) (statementRow d) 0 A.length _ := hlines.bind fun _ => h.bind fun n =>
    (show Finds _ _ _ A.length (some ⟨[n], 0, true⟩) from further_stops hlast (by rw [lexeme_row_nil]; simp))
  have hblock : Finds (row A []) (readAt (d + 1) .statements) 0 A.length _ :=
    Finds.congr (statements_eq (d := d) (i := 0) []) (hrow.bind fun s => .pure s.block)
  have hclosed : Finds (row A []) (closed (readAt (d + 1) .statements)) 0 A.length _ := hblock.bind fun b => by
    show Finds _ _ _ A.length (some b)
    rw [Finds, reads_lexeme_bind, Cursor.on_current, lexeme_row_nil]
    exact reads_pure.2 ⟨rfl, rfl⟩
  have hprogram := hclosed.bind fun b => .pure b.node
  cases o with
  | none => exact hprogram
  | some n => exact hprogram

end Grammar

namespace Nested

open Grammar Scan

/-- **A displayed value is read as one statement, or an expression is missed in it.** -/
theorem finds_displayed {v : Nested} (hv : v.isWritable = true) (d : Nat) :
    Finds (row v.lexemes []) (program (d + 19)) 0 v.lexemes.length (v.node?.map fun n => .list [n] .forgotten) := by
  have ht : Ended (row v.lexemes []) := ended_row (scans_displayed hv).ne_eof rest_nil
  have hcovers : Covers (row v.lexemes []) 0 v.lexemes v.lexemes.length := covers_all v.lexemes
  have hnext : continues (Cursor.shown (row v.lexemes []) v.lexemes.length).lexeme = false := by rw [lexeme_row_nil]; rfl
  cases v with
  | int n =>
    have hlexemes : (int n).lexemes = pieceLexemes (some n) := by simp [lexemes, isList, pieces, commaRow]
    rw [hlexemes] at hcovers hnext ⊢
    refine finds_program ?_ (reads_int (fun i => span_row) hcovers hnext (d + 9))
    cases n <;> rw [hcovers.head] <;> simp
  | list vs =>
    obtain ⟨p, ps, hps⟩ := List.exists_cons_of_ne_nil (pieces_ne_nil (list vs))
    have hlexemes : (list vs).lexemes = .symbol .openSquare :: (commaRow ((p :: ps).map pieceLexemes) ++
        [.symbol .closeSquare]) := by simp [lexemes, isList, hps]
    rw [node?, hps]
    rw [hlexemes] at hcovers hnext ht ⊢
    refine finds_program (by rw [hcovers.head]; simp) (finds_list ht (fun i => span_row) hcovers hnext d)

/-- The text of a displayed value is parsed, or an expression is expected in it. -/
theorem parse_displayed {v : Nested} (hv : v.isWritable = true) {limits : Limits} (hlimits : 19 ≤ limits.reading)
    (file : String) :
    (∀ n, v.node? = some n → ∃ tree, Parse.program limits ⟨file, v.displayed⟩ = .ok tree ∧
      tree.bare = .list [n] .forgotten) ∧
    (v.node? = none → ∃ span, Parse.program limits ⟨file, v.displayed⟩ = .error (.problem ⟨.expected .expression, span⟩)) := by
  have hscans : Scans (Source.mk file v.displayed).text.toList v.lexemes := scans_displayed hv
  obtain ⟨d, hd⟩ : ∃ d, limits.reading = d + 19 := ⟨limits.reading - 19, by omega⟩
  have hfinds := finds_displayed hv d
  constructor
  · intro n hn
    rw [hn] at hfinds
    refine (parse_row_iff (by rwa [List.append_nil]) file).2 ?_
    rw [hd]
    exact hfinds.1
  · intro hn
    rw [hn] at hfinds
    obtain ⟨tokens, htokens, hls⟩ := scans_iff.1 hscans
    have hcursor := (program_follows id (d + 19)).cursor_eq (row_ne_nil (A := v.lexemes) (Z := [])) 0
    rw [Nat.zero_add] at hcursor
    have hreply := Reply.ext hfinds rfl hcursor
    rw [← hd] at hreply
    exact ⟨_, (Parse.program_eq_problem htokens hls).2 ⟨_, rfl, hreply⟩⟩

end Nested

/-! ## Evaluation -/

namespace Arithmetic

theorem ofInt_value (n : Int) : (ofInt n).value = some n := by cases n <;> rfl

theorem ofInt_comes (limits : Limits) (c : Context) (w : World) {n : Int} {node : Node} (h : node.bare = Nested.intNode n)
    {d : Nat} (hd : 2 ≤ d) : Comes w (some n) ((eval limits d node c).run w) := by
  have hdefined : (ofInt n).remaindersDefined = true := by cases n <;> rfl
  have hdepth : (ofInt n).depth ≤ d := Nat.le_trans (by cases n <;> simp [ofInt, depth]) hd
  rw [← ofInt_value]
  exact eval_comes limits c w hdefined h hdepth

/-- Integers in a row are evaluated to themselves. -/
theorem evalAll_ofInt (limits : Limits) (c : Context) (w : World) {ns : List Int} {items : List Node}
    (h : items.map Node.bare = ns.map Nested.intNode) {d : Nat} (hd : 2 ≤ d) :
    ∃ vs, (Eval.evalAll (eval limits d) c items).run w = (.ok vs, w) ∧
      vs.map Value.datum = ns.map fun n => .number (.int n) := by
  induction items generalizing ns with
  | nil =>
    cases ns with
    | nil => exact ⟨[], rfl, rfl⟩
    | cons n ns => cases h
  | cons item items ih =>
    cases ns with
    | nil => cases h
    | cons n ns =>
      rw [List.map_cons, List.map_cons, List.cons.injEq] at h
      obtain ⟨site, hitem⟩ := ofInt_comes limits c w h.1 hd
      obtain ⟨vs, hvs, hdata⟩ := ih h.2
      refine ⟨⟨.number (.int n), site⟩ :: vs, ?_, by rw [List.map_cons, hdata]; rfl⟩
      rw [Eval.evalAll, Effect.run_bind, hitem]
      show (Eval.evalAll (eval limits d) c items >>= _).run w = _
      rw [Effect.run_bind, hvs]
      rfl

end Arithmetic

/-- What a run ends with, if it is made of integers and lists. -/
def Session.nestedValue? (depth : Nat) : Ending × Session → Option Nested
  | (.value v, s) => s.world.nested? depth v.datum
  | _ => none

theorem World.nested?_list {w : World} {depth cell : Nat} {items : Array Datum} {vs : List Nested}
    (h : w.lists[cell]? = some items) (hvs : items.toList.mapM (w.nested? depth) = some vs) :
    w.nested? (depth + 1) (.list cell) = some (.list vs) := by
  rw [World.nested?, h, Option.bind_eq_bind, Option.bind_some, hvs]
  rfl

namespace Nested

theorem mapM_numbers (w : World) (depth : Nat) (ns : List Int) :
    (ns.map fun n => Datum.number (.int n)).mapM (w.nested? (depth + 1)) = some (ns.map .int) := by
  induction ns with
  | nil => rfl
  | cons n ns ih =>
    rw [List.map_cons, List.mapM_cons, ih]
    rfl

/-- **The tree of a displayed value is evaluated to what it reads back to.** -/
theorem evaluate_displayed (s : Session) (hevaluation : 4 ≤ s.limits.evaluation) (name : String) {v : Nested} {n tree : Node}
    (hn : v.node? = some n) (htree : tree.bare = .list [n] .forgotten) :
    Session.nestedValue? 3 (s.evaluate name tree) = v.readBack?.map fun u => .list [u] := by
  obtain ⟨item, span, rfl, hitem⟩ := Node.bare_eq_singleton htree
  obtain ⟨d, hd⟩ : ∃ d, s.limits.evaluation = d + 4 := ⟨s.limits.evaluation - 4, by omega⟩
  rw [Session.evaluate, hd, Session.perform, eval_singleton]
  cases v with
  | int z =>
    cases hn
    obtain ⟨site, hcomes⟩ := Arithmetic.ofInt_comes s.limits (Session.rootContext name) s.world hitem (show 2 ≤ d + 3 by omega)
    rw [hcomes]
    simp [Session.nestedValue?, World.nested?, Value.placed, readBack?, Datum.scalar?]
  | list vs =>
    rw [node?, Option.map_eq_some_iff] at hn
    obtain ⟨ns, hns, rfl⟩ := hn
    obtain ⟨items, span', rfl, hitems⟩ := Node.bare_eq_list hitem
    obtain ⟨values, hvalues, hdata⟩ :=
      Arithmetic.evalAll_ofInt s.limits (Session.rootContext name) s.world hitems (show 2 ≤ d + 2 by omega)
    rw [eval_list, hvalues]
    simp only [Session.nestedValue?, Value.placed, readBack?, hns, hdata, Option.map_some]
    -- The list is the last one but one, and the list of the only statement the last one.
    refine World.nested?_list Array.getElem?_push_size ?_
    have hlist : ∀ w : World, w.lists[s.world.lists.size]? = some (ns.map fun n => Datum.number (.int n)).toArray →
        w.nested? 2 (.list s.world.lists.size) = some (.list (ns.map .int)) :=
      fun w hw => World.nested?_list hw (mapM_numbers w 0 ns)
    have hlast : ∀ items last : Array Datum, ((s.world.lists.push items).push last)[s.world.lists.size]? = some items := by
      intro items last
      rw [Array.getElem?_push, if_neg (by rw [Array.size_push]; omega), Array.getElem?_push_size]
    rw [List.mapM_cons, hlist _ (hlast _ _)]
    rfl

/-! ## What comes back unchanged -/

theorem spelled?_some (ns : List Int) : spelled? (ns.map some) = some ns := by
  have hall : ∀ ns : List Int, (ns.map some).mapM id = some ns := by
    intro ns
    induction ns with
    | nil => rfl
    | cons n ns ih =>
      rw [List.map_cons, List.mapM_cons, ih]
      rfl
  cases ns with
  | nil => rfl
  | cons n ns => exact hall (n :: ns)

theorem pieces_ints (n : Int) (ns : List Int) : (list ((n :: ns).map int)).pieces = (n :: ns).map some := by
  have hall : ∀ ns : List Int, allPieces (ns.map int) = ns.map some := by
    intro ns
    induction ns with
    | nil => rfl
    | cons n ns ih => rw [List.map_cons, allPieces, ih, pieces]; rfl
  rw [List.map_cons, pieces, hall, pieces]
  rfl

theorem exists_ints {vs : List Nested} (h : vs.all (!·.isList) = true) : ∃ ns : List Int, vs = ns.map int := by
  induction vs with
  | nil => exact ⟨[], rfl⟩
  | cons v vs ih =>
    rw [List.all_cons, Bool.and_eq_true] at h
    obtain ⟨ns, rfl⟩ := ih h.2
    cases v with
    | int n => exact ⟨n :: ns, rfl⟩
    | list us => cases h.1

/-- **Of the lists only those of integers are read back as they are.** -/
theorem readBack?_eq_self_iff {v : Nested} : v.readBack? = some v ↔ v.isFlat = true := by
  cases v with
  | int n => exact iff_of_true rfl rfl
  | list vs =>
    constructor
    · intro h
      obtain ⟨ns, _, hns⟩ := Option.map_eq_some_iff.1 h
      cases hns
      simp [isFlat, isList]
    · intro h
      obtain ⟨ns, rfl⟩ := exists_ints h
      cases ns with
      | nil => rfl
      | cons n ns => rw [readBack?, pieces_ints, spelled?_some]; rfl

end Nested

/-- **What a displayed value is read back to.**  A value made of integers and lists has a text, however it is nested.  Running the
text in any session gives the list of what the value reads back to, or misses an expression where an empty list left a gap; the
depth that a list of negative integers takes is enough for it.  The value itself comes back exactly if it is an integer or a list
of integers.  Two values have the same text exactly if they have the same pieces, and both are lists or neither is. -/
theorem run_displayed (s : Session) {depth : Nat} {d : Datum} {v : Nested} (hd : s.world.nested? depth d = some v)
    (hv : v.isWritable = true) (hreading : 19 ≤ s.limits.reading) (hevaluation : 4 ≤ s.limits.evaluation)
    (name file : String) :
    ∃ text, s.world.display depth d = .ok text ∧
      Session.nestedValue? 3 (s.run name ⟨file, text⟩) = v.readBack?.map (fun u => .list [u]) ∧
      (v.readBack? = none → ∃ span, s.run name ⟨file, text⟩ = (.problem ⟨.expected .expression, span⟩, s)) ∧
      (v.readBack? = some v ↔ v.isFlat = true) ∧
      ∀ (w : World) (depth' : Nat) (d' : Datum) (u : Nested), w.nested? depth' d' = some u → u.isWritable = true →
        (w.display depth' d' = .ok text ↔ u.isList = v.isList ∧ u.pieces = v.pieces) := by
  obtain ⟨hread, hmissed⟩ := Nested.parse_displayed hv hreading file
  have hnone : v.readBack? = none → ∃ span, s.run name ⟨file, v.displayed⟩ = (.problem ⟨.expected .expression, span⟩, s) := by
    intro hv
    have hnode : v.node? = none := by cases v <;> simp_all [Nested.node?, Nested.readBack?]
    obtain ⟨span, hspan⟩ := hmissed hnode
    refine ⟨span, ?_⟩
    rw [Session.run, hspan]
  refine ⟨v.displayed, World.display_of_nested hd hv, ?_, hnone, Nested.readBack?_eq_self_iff, fun w depth' d' u hu hwritable => ?_⟩
  · cases hnode : v.node? with
    | none =>
      have hback : v.readBack? = none := by cases v <;> simp_all [Nested.node?, Nested.readBack?]
      obtain ⟨span, hspan⟩ := hnone hback
      rw [hspan, hback]
      rfl
    | some n =>
      obtain ⟨tree, hparse, hbare⟩ := hread n hnode
      rw [Session.run, hparse]
      exact Nested.evaluate_displayed s hevaluation name hnode hbare
  · rw [World.display_of_nested hu hwritable, Except.ok.injEq]
    exact Nested.displayed_eq_iff hwritable hv

/-- A list of lists comes back as a list of integers. -/
theorem run_displayed_flattened : ∃ (s : Session) (v : Nested) (text : String),
    s = ((Shell.start "").run Shell.programName ⟨Shell.sourceName, "var a = [[1, -20], [[3]]]"⟩).2 ∧
    v = .list [.list [.int 1, .int (-20)], .list [.list [.int 3]]] ∧
    s.world.nested? 4 (.list 3) = some v ∧ v.isWritable = true ∧
    s.world.display 4 (.list 3) = .ok text ∧
    Session.nestedValue? 3 (s.run Shell.programName ⟨Shell.sourceName, text⟩) =
      some (.list [.list [.int 1, .int (-20), .int 3]]) := by
  have hd : ((Shell.start "").run Shell.programName ⟨Shell.sourceName, "var a = [[1, -20], [[3]]]"⟩).2.world.nested? 4 (.list 3) =
      some (.list [.list [.int 1, .int (-20)], .list [.list [.int 3]]]) := by decide +kernel
  have hv : (Nested.list [.list [.int 1, .int (-20)], .list [.list [.int 3]]]).isWritable = true := by decide +kernel
  have hback : (Nested.list [.list [.int 1, .int (-20)], .list [.list [.int 3]]]).readBack? =
      some (.list [.int 1, .int (-20), .int 3]) := by decide +kernel
  obtain ⟨text, htext, hrun, -⟩ := run_displayed _ hd hv (by decide +kernel) (by decide +kernel) Shell.programName Shell.sourceName
  rw [hback] at hrun
  exact ⟨_, _, text, rfl, rfl, hd, hv, htext, hrun⟩

/-- **Displayed lists need not read back**: the brackets inside are not shown, so `[[1], 2]` is displayed like `[1, 2]` and read
back as that, and the text of a list with an empty list in it may be no program. -/
theorem nested_list_misread : ∃ s t : Session,
    s = ((Shell.start "").run Shell.programName ⟨Shell.sourceName, "var a = [[1], 2]"⟩).2 ∧
    t = ((Shell.start "").run Shell.programName ⟨Shell.sourceName, "var a = [1, []]"⟩).2 ∧
    s.bindings.map (fun b => (b.1, s.world.nested? 3 b.2, (s.display b.2).toOption)) =
      [("a", some (.list [.list [.int 1], .int 2]), some "[1, 2]")] ∧
    Session.nestedValue? 3 (s.run Shell.programName ⟨Shell.sourceName, "[1, 2]"⟩) = some (.list [.list [.int 1, .int 2]]) ∧
    t.bindings.map (fun b => (b.1, t.world.nested? 3 b.2, (t.display b.2).toOption)) =
      [("a", some (.list [.int 1, .list []]), some "[1, ]")] ∧
    Session.nestedValue? 3 (t.run Shell.programName ⟨Shell.sourceName, "[1, ]"⟩) = none :=
  ⟨_, _, rfl, rfl, by decide +kernel, by decide +kernel, by decide +kernel, by decide +kernel⟩

end Scriptlet
