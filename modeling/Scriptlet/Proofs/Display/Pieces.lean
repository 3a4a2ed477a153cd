import Scriptlet.Proofs.Spelling.Trees
import Scriptlet.World.Text
/-!
# What is displayed of nested lists

`Nested` are the values made of integers and lists, and `World.nested?` tells which of them a datum is.

A list is displayed in brackets, but the elements in it are printed plainly, and a list is printed plainly without brackets.
So what is displayed of a list is the row of its `pieces`: the integers in it from left to right, however deep they are, and a
gap for each empty list (`display_of_nested`).  The scanner finds the pieces again (`scans_displayed`), and nothing more: two
lists are displayed alike exactly if they have the same pieces (`displayed_eq_iff`).
-/
namespace Scriptlet

/-- Integers, and lists of such values. -/
inductive Nested where
  | int (n : Int)
  | list (items : List Nested)

namespace Nested

mutual

def decEq : (u v : Nested) → Decidable (u = v)
  | .int m, .int n => decidable_of_iff (m = n) (by simp)
  | .list us, .list vs =>
    match decEqAll us vs with
    | isTrue h => isTrue (by rw [h])
    | isFalse h => isFalse (by simpa using h)
  | .int _, .list _ | .list _, .int _ => isFalse (by simp)

def decEqAll : (us vs : List Nested) → Decidable (us = vs)
  | [], [] => isTrue rfl
  | u :: us, v :: vs =>
    match decEq u v, decEqAll us vs with
    | isTrue h, isTrue h' => isTrue (by rw [h, h'])
    | isFalse h, _ => isFalse (by simp [h])
    | _, isFalse h => isFalse (by simp [h])
  | [], _ :: _ | _ :: _, [] => isFalse (by simp)

end

instance : DecidableEq Nested := decEq

end Nested

/-- The value made of integers and lists that a datum is, if it is one, nested to at most the given depth. -/
def World.nested? (w : World) : (depth : Nat) → Datum → Option Nested
  | 0, _ => none
  | depth + 1, .list cell => do
    let items ← w.lists[cell]?
    return .list (← items.toList.mapM (w.nested? depth))
  | _ + 1, d =>
    match d.scalar? with
    | some (.int n) => some (.int n)
    | _ => none

namespace Nested

mutual

/-- The integers of a value from left to right, and a gap for each empty list. -/
def pieces : Nested → List (Option Int)
  | .int n => [some n]
  | .list [] => [none]
  | .list (v :: vs) => v.pieces ++ allPieces vs

def allPieces : List Nested → List (Option Int)
  | [] => []
  | v :: vs => v.pieces ++ allPieces vs

end

/-- Every integer is within the limit on digits. -/
def isWritable (v : Nested) : Bool := v.pieces.all fun p => p.all (·.natAbs < Nat.pow 10 Text.digitLimit)

def isList : Nested → Bool
  | .int _ => false
  | .list _ => true

/-- The text of a piece; a gap has none. -/
def pieceText : Option Int → String
  | none => ""
  | some n => toString n

/-- The text of a value without brackets. -/
def plain (v : Nested) : String := String.intercalate ", " (v.pieces.map pieceText)

def displayed (v : Nested) : String := if v.isList then "[" ++ v.plain ++ "]" else v.plain

/-! ## The text -/

theorem pieces_ne_nil : ∀ v : Nested, v.pieces ≠ []
  | .int n => by simp [pieces]
  | .list [] => by simp [pieces]
  | .list (v :: vs) => by simp [pieces, pieces_ne_nil v]

/-- A list is printed plainly as its elements are. -/
theorem plain_list (vs : List Nested) : (list vs).plain = String.intercalate ", " (vs.map plain) := by
  cases vs with
  | nil => simp [plain, pieces, pieceText]
  | cons v vs =>
    have hpieces : ∀ v : Nested, v.pieces.map pieceText ≠ [] := fun v => by simpa using v.pieces_ne_nil
    rw [plain, pieces]
    induction vs generalizing v with
    | nil => simp [allPieces, plain]
    | cons u us ih =>
      rw [allPieces, List.map_append, String.intercalate_append_of_ne_nil (hpieces v) (by simp [u.pieces_ne_nil]), ih]
      simp [plain]

theorem isWritable_list {v : Nested} {vs : List Nested} (h : (list (v :: vs)).isWritable = true) :
    v.isWritable = true ∧ (vs = [] ∨ (list vs).isWritable = true) := by
  rw [isWritable, pieces, List.all_append, Bool.and_eq_true] at h
  cases vs with
  | nil => exact ⟨h.1, .inl rfl⟩
  | cons u us => exact ⟨h.1, .inr h.2⟩

end Nested

namespace World

open Nested

variable {w : World} {depth : Nat} {d : Datum} {v : Nested}

/-- What a datum is that is made of integers and lists. -/
theorem nested?_cases (h : w.nested? (depth + 1) d = some v) :
    (∃ n, d.scalar? = some (.int n) ∧ v = .int n) ∨
    ∃ cell items vs, d = .list cell ∧ w.lists[cell]? = some items ∧ items.toList.mapM (w.nested? depth) = some vs ∧
      v = .list vs := by
  cases d with
  | list cell =>
    simp only [nested?, Option.bind_eq_bind, Option.bind_eq_some_iff, Option.pure_def, Option.some.injEq] at h
    obtain ⟨items, hitems, vs, hvs, rfl⟩ := h
    exact .inr ⟨cell, items, vs, rfl, hitems, hvs, rfl⟩
  | null =>
    cases h
    exact .inl ⟨0, rfl, rfl⟩
  | number x =>
    cases x with
    | int n =>
      cases h
      exact .inl ⟨n, rfl, rfl⟩
    | _ => cases h
  | _ => cases h

theorem text_of_int {n : Int} (hd : d.scalar? = some (.int n)) (hn : (Nested.int n).isWritable = true) :
    w.text (depth + 1) d = .ok (Nested.int n).plain := by
  have hlimit : n.natAbs < Nat.pow 10 Text.digitLimit := by simpa [Nested.isWritable, pieces] using hn
  have hplain : (Nested.int n).plain = toString n := by simp [plain, pieces, pieceText]
  cases d with
  | null =>
    cases hd
    rfl
  | number x =>
    cases hd
    rw [text, Scalar.toText, Text.ofInt, if_pos hlimit, hplain]
  | _ => cases hd

/-- **A value is printed plainly as its pieces divided by commas.** -/
theorem text_of_nested (h : w.nested? depth d = some v) (hv : v.isWritable = true) : w.text depth d = .ok v.plain := by
  induction depth generalizing d v with
  | zero => cases h
  | succ depth ih =>
    have hall : ∀ (ds : List Datum) (vs : List Nested), ds.mapM (w.nested? depth) = some vs →
        (vs = [] ∨ (Nested.list vs).isWritable = true) → ds.mapM (w.text depth) = .ok (vs.map plain) := by
      intro ds
      induction ds with
      | nil =>
        intro vs hvs _
        cases hvs
        rfl
      | cons d ds ihds =>
        intro vs hvs hwritable
        simp only [List.mapM_cons, Option.bind_eq_bind, Option.bind_eq_some_iff, Option.pure_def, Option.some.injEq] at hvs
        obtain ⟨u, hu, us, hus, rfl⟩ := hvs
        obtain ⟨hwu, hwus⟩ := isWritable_list (hwritable.resolve_left (by simp))
        rw [List.mapM_cons, ih hu hwu, ihds us hus hwus]
        rfl
    rcases nested?_cases h with ⟨n, hd, rfl⟩ | ⟨cell, items, vs, rfl, hitems, hvs, rfl⟩
    · exact text_of_int hd hv
    · rw [text, hitems, Option.getD_some, hall _ vs hvs (.inr hv), plain_list]
      rfl

/-- **A value is displayed as its pieces divided by commas**, in brackets if it is a list. -/
theorem display_of_nested (h : w.nested? depth d = some v) (hv : v.isWritable = true) :
    w.display depth d = .ok v.displayed := by
  rw [display, text_of_nested h hv]
  cases depth with
  | zero => cases h
  | succ depth =>
    rcases nested?_cases h with ⟨n, hd, rfl⟩ | ⟨cell, items, vs, rfl, hitems, hvs, rfl⟩
    · cases d with
      | null | number => rfl
      | _ => cases hd
    · rfl

end World

/-! ## The lexemes -/

theorem commaRow_cons_cons (u v : List Lexeme) (us : List (List Lexeme)) :
    commaRow (u :: v :: us) = u ++ .symbol .comma :: commaRow (v :: us) := by
  simp [commaRow]

namespace Nested

open Scan

/-- The lexemes of a piece; a gap has none. -/
def pieceLexemes : Option Int → List Lexeme
  | none => []
  | some (.ofNat n) => [.numeral (.whole n)]
  | some (.negSucc n) => [.symbol .minus, .numeral (.whole (n + 1))]

def lexemes (v : Nested) : List Lexeme :=
  if v.isList then .symbol .openSquare :: (commaRow (v.pieces.map pieceLexemes) ++ [.symbol .closeSquare])
  else commaRow (v.pieces.map pieceLexemes)

theorem toList_negSucc (n : Nat) : (toString (Int.negSucc n)).toList = '-' :: Nat.toDigits 10 (n + 1) := by
  show ("-" ++ (n + 1).repr).toList = _
  rw [String.toList_append, Nat.toList_repr]
  rfl

/-- A digit follows the minus sign, so the two are not read as an arrow. -/
theorem step_minus (n : Nat) (rest : List Char) :
    Step ('-' :: (Nat.toDigits 10 n ++ rest)) (some (.symbol .minus)) (Nat.toDigits 10 n ++ rest) := by
  have hdigit : StopsAt (fun x => x = '>') (Nat.toDigits 10 n ++ rest) := by
    obtain ⟨c, cs, hcs⟩ := List.exists_cons_of_ne_nil (Nat.toDigits_ne_nil (b := 10) (n := n))
    have hc : Scan.isDigit c = true := isDigit_of_mem_toDigits (hcs ▸ List.mem_cons_self)
    rw [hcs]
    rintro _ ⟨⟩
    rw [decide_eq_false_iff_not]
    rintro rfl
    cases hc
  exact .short (c := '-') rfl rfl hdigit

section Scanning

variable {rest : List Char} {ls : List Lexeme} (hrest : Scans rest ls)
  (hstop : StopsAt (fun c => Scan.isDigit c || c = '.') rest)

include hrest hstop

theorem scans_piece {p : Option Int} (hp : p.all (·.natAbs < Nat.pow 10 Text.digitLimit) = true) :
    Scans ((pieceText p).toList ++ rest) (pieceLexemes p ++ ls) := by
  cases p with
  | none => exact hrest
  | some n =>
    rw [Option.all_some, decide_eq_true_eq] at hp
    cases n with
    | ofNat n =>
      have htext : (pieceText (some (.ofNat n))).toList = Nat.toDigits 10 n := Nat.toList_repr
      rw [htext]
      exact .step (step_whole hp hstop) hrest
    | negSucc n =>
      rw [show pieceText (some (.negSucc n)) = toString (Int.negSucc n) from rfl, toList_negSucc]
      exact .step (step_minus (n + 1) rest) (.step (step_whole hp hstop) hrest)

/-- **Pieces divided by commas are scanned to their lexemes divided by commas.** -/
theorem scans_row : ∀ {ps : List (Option Int)}, ps.all (·.all (·.natAbs < Nat.pow 10 Text.digitLimit)) = true →
    Scans ((String.intercalate ", " (ps.map pieceText)).toList ++ rest) (commaRow (ps.map pieceLexemes) ++ ls)
  | [], _ => by simpa [commaRow] using hrest
  | [p], h => by
    simp only [List.all_cons, List.all_nil, Bool.and_true] at h
    simpa [commaRow] using scans_piece hrest hstop h
  | p :: q :: ps, h => by
    rw [List.all_cons, Bool.and_eq_true] at h
    have hscans : Scans (',' :: ' ' :: _) (.symbol .comma :: _) :=
      .step (.plain rfl) (.step (.blank (.inl rfl)) (scans_row h.2))
    have hpiece := scans_piece hscans (by simp [StopsAt, Scan.isDigit]) h.1
    simpa [commaRow_cons_cons] using hpiece

end Scanning

/-- **The pieces of a displayed value are scanned.** -/
theorem scans_displayed {v : Nested} (h : v.isWritable = true) : Scans v.displayed.toList v.lexemes := by
  cases hv : v.isList with
  | false =>
    have hscans := scans_row .done (by simp [StopsAt]) h
    simpa [displayed, lexemes, plain, hv] using hscans
  | true =>
    have hclose : Scans [']'] [.symbol .closeSquare] := scans_symbol .closeSquare
    have hscans : Scans ('[' :: _) (.symbol .openSquare :: _) :=
      .step (.plain rfl) (scans_row hclose (by simp [StopsAt, Scan.isDigit]) h)
    simpa [displayed, lexemes, plain, hv] using hscans

/-! ## What is displayed alike -/

theorem comma_not_mem_pieceLexemes : ∀ p : Option Int, .symbol .comma ∉ pieceLexemes p
  | none => by simp [pieceLexemes]
  | some (.ofNat n) => by simp [pieceLexemes]
  | some (.negSucc n) => by simp [pieceLexemes]

theorem pieceLexemes_inj : ∀ {p q : Option Int}, pieceLexemes p = pieceLexemes q → p = q
  | none, none, _ => rfl
  | none, some (.ofNat _), h | none, some (.negSucc _), h => by cases h
  | some (.ofNat _), none, h | some (.negSucc _), none, h => by cases h
  | some (.ofNat _), some (.ofNat _), h | some (.negSucc _), some (.negSucc _), h => by
    cases h
    rfl
  | some (.ofNat _), some (.negSucc _), h | some (.negSucc _), some (.ofNat _), h => by cases h

/-- Up to the first comma two rows are the same. -/
theorem append_inj_of_comma {u v X Y : List Lexeme} (hu : .symbol .comma ∉ u) (hv : .symbol .comma ∉ v)
    (hX : ∀ l ∈ X.head?, l = .symbol .comma) (hY : ∀ l ∈ Y.head?, l = .symbol .comma) (h : u ++ X = v ++ Y) :
    u = v ∧ X = Y := by
  induction u generalizing v with
  | nil =>
    cases v with
    | nil => exact ⟨rfl, h⟩
    | cons b v =>
      have hb := hX b (by rw [← List.nil_append X, h]; rfl)
      simp [hb] at hv
  | cons a u ih =>
    cases v with
    | nil =>
      have ha := hY a (by rw [← List.nil_append Y, ← h]; rfl)
      simp [ha] at hu
    | cons b v =>
      rw [List.cons_append, List.cons_append, List.cons.injEq] at h
      obtain ⟨rfl, h⟩ := h
      rw [List.mem_cons, not_or] at hu hv
      obtain ⟨rfl, rfl⟩ := ih hu.2 hv.2 h
      exact ⟨rfl, rfl⟩

theorem head?_flatMap_comma (us : List (List Lexeme)) :
    ∀ l ∈ (us.flatMap (.symbol .comma :: ·)).head?, l = .symbol .comma := by
  cases us <;> simp [eq_comm]

theorem flatMap_comma_inj : ∀ {ps qs : List (Option Int)},
    (ps.map pieceLexemes).flatMap (.symbol .comma :: ·) = (qs.map pieceLexemes).flatMap (.symbol .comma :: ·) → ps = qs
  | [], [], _ => rfl
  | [], q :: qs, h => by simp at h
  | p :: ps, [], h => by simp at h
  | p :: ps, q :: qs, h => by
    simp only [List.map_cons, List.flatMap_cons, List.cons_append, List.cons.injEq, true_and] at h
    obtain ⟨hp, hps⟩ := append_inj_of_comma (comma_not_mem_pieceLexemes p) (comma_not_mem_pieceLexemes q)
      (head?_flatMap_comma _) (head?_flatMap_comma _) h
    rw [pieceLexemes_inj hp, flatMap_comma_inj hps]

theorem commaRow_pieces_inj {ps qs : List (Option Int)} (hps : ps ≠ []) (hqs : qs ≠ [])
    (h : commaRow (ps.map pieceLexemes) = commaRow (qs.map pieceLexemes)) : ps = qs := by
  cases ps with
  | nil => exact absurd rfl hps
  | cons p ps =>
    cases qs with
    | nil => exact absurd rfl hqs
    | cons q qs => exact flatMap_comma_inj (congrArg (List.cons (Lexeme.symbol .comma)) h)

theorem lexemes_inj {u v : Nested} (h : u.lexemes = v.lexemes) : u.isList = v.isList ∧ u.pieces = v.pieces := by
  have hint : ∀ (n : Int) (ls : List Lexeme), (int n).lexemes ≠ .symbol .openSquare :: ls := by
    intro n ls h
    cases n <;> simp [lexemes, isList, pieces, commaRow, pieceLexemes] at h
  cases u with
  | int m =>
    cases v with
    | int n => exact ⟨rfl, commaRow_pieces_inj (pieces_ne_nil _) (pieces_ne_nil _) h⟩
    | list vs => exact absurd h (hint m _)
  | list us =>
    cases v with
    | int n => exact absurd h.symm (hint n _)
    | list vs =>
      refine ⟨rfl, commaRow_pieces_inj (pieces_ne_nil _) (pieces_ne_nil _) ?_⟩
      exact List.append_cancel_right (List.cons.inj h).2

/-- **Two values are displayed alike exactly if they have the same pieces**, and both are lists or neither is. -/
theorem displayed_eq_iff {u v : Nested} (hu : u.isWritable = true) (hv : v.isWritable = true) :
    u.displayed = v.displayed ↔ u.isList = v.isList ∧ u.pieces = v.pieces := by
  constructor
  · intro h
    have hscans := scans_displayed hu
    rw [h] at hscans
    obtain ⟨tokens, htokens, hus⟩ := scans_iff.1 (show Scans (Source.mk "" v.displayed).text.toList _ from hscans)
    obtain ⟨tokens', htokens', hvs⟩ := scans_iff.1
      (show Scans (Source.mk "" v.displayed).text.toList _ from scans_displayed hv)
    cases htokens.symm.trans htokens'
    exact lexemes_inj (List.append_cancel_right (hus.symm.trans hvs))
  · rintro ⟨hlist, hpieces⟩
    rw [displayed, displayed, plain, plain, hlist, hpieces]

end Nested

end Scriptlet
