import Scriptlet.Eval.Operator
import Scriptlet.Proofs.Grammar.Acceptance
/-!
# How operators group

A row is a number under any number of minus signs, and then operators with such operands.  Every row is read, as one statement;
its tree has the tokens of the row in order, and each operator has operands that bind as tightly as its level asks
(`program_groups`).

The productions from factors to expressions are taken level by level.  `Groups tokens r L x rest` says that a reading takes
from a row the operand and all that follows it at the level `L` or tighter, and gives a tree at that level.  A chain goes
from a level to the next looser one (`chain_groups`): its loop keeps a tree of the looser level, and adds an operator of just
that level with an operand of the tighter one.
-/
namespace Scriptlet

/-! ## Levels -/

namespace BinaryOp

def lexeme : BinaryOp → Lexeme
  | add => .symbol .plus
  | sub => .symbol .minus
  | mul => .symbol .times
  | mod => .symbol .percent
  | div => .symbol .slash
  | floorDiv => .symbol .doubleSlash
  | pow => .symbol .power
  | eq => .symbol .sameAs
  | ne => .symbol .differs
  | lt => .symbol .less
  | gt => .symbol .greater
  | le => .symbol .atMost
  | ge => .symbol .atLeast
  | and => .keyword .and
  | or => .keyword .or

theorem ofLexeme?_lexeme (op : BinaryOp) : ofLexeme? op.lexeme = some op := by cases op <;> rfl

def level : BinaryOp → Nat
  | and | or => 1
  | eq | ne | lt | gt | le | ge => 2
  | add | sub => 3
  | mul | div | floorDiv | mod => 4
  | pow => 5

/-- How tightly the left operand of an operator binds at least.  That of a power is a number. -/
def leftLevel : BinaryOp → Nat
  | pow => 6
  | op => op.level

/-- How tightly the right operand of an operator binds at least.  Powers group to the right, all others to the left. -/
def rightLevel : BinaryOp → Nat
  | pow => 5
  | op => op.level + 1

theorem leftLevel_of_lt {op : BinaryOp} (h : op.level < 5) : op.leftLevel = op.level := by
  cases op with
  | pow => exact absurd h (Nat.lt_irrefl 5)
  | _ => rfl

theorem rightLevel_of_lt {op : BinaryOp} (h : op.level < 5) : op.rightLevel = op.level + 1 := by
  cases op with
  | pow => exact absurd h (Nat.lt_irrefl 5)
  | _ => rfl

end BinaryOp

namespace Node

/-- How tightly the root of a tree binds: as its operator; a minus sign as a power; a number tightest. -/
def tightness : Node → Nat
  | number _ _ => 6
  | unary op _ => if op.lexeme.isSymbol .minus then 5 else 0
  | binary _ op _ => ((BinaryOp.ofLexeme? op).map BinaryOp.level).getD 0
  | _ => 0

/-- Numbers, minus signs and binary operators, all with operands that bind tightly enough. -/
def isGrouped : Node → Bool
  | number _ _ => true
  | unary op operand => op.lexeme.isSymbol .minus && decide (5 ≤ operand.tightness) && operand.isGrouped
  | binary left op right =>
    match BinaryOp.ofLexeme? op with
    | some op =>
      decide (op.leftLevel ≤ left.tightness) && decide (op.rightLevel ≤ right.tightness) && left.isGrouped && right.isGrouped
    | none => false
  | _ => false

theorem tightness_binary (l r : Node) (op : BinaryOp) : (binary l op.lexeme r).tightness = op.level := by
  rw [tightness, op.ofLexeme?_lexeme]
  rfl

theorem isGrouped_binary {l r : Node} {op : BinaryOp} : (binary l op.lexeme r).isGrouped = true ↔
    ((op.leftLevel ≤ l.tightness ∧ op.rightLevel ≤ r.tightness) ∧ l.isGrouped = true) ∧ r.isGrouped = true := by
  simp only [isGrouped, op.ofLexeme?_lexeme, Bool.and_eq_true, decide_eq_true_eq]

/-- The tokens of a tree, from left to right. -/
inductive InOrder : Node → List Token → Prop
  | number {x : Numeral} {t : Token} : t.lexeme = .numeral x → InOrder (.number x t.span) [t]
  | unary {n : Node} {ts : List Token} (t : Token) : InOrder n ts → InOrder (.unary t n) (t :: ts)
  | binary {l r : Node} {us vs : List Token} (t : Token) : InOrder l us → InOrder r vs →
      InOrder (.binary l t.lexeme r) (us ++ t :: vs)

end Node

namespace Grammar

open Production Reading

/-! ## Rows -/

/-- A number with minus signs in front. -/
structure SignedNumeral where
  signs : Nat
  numeral : Numeral

namespace SignedNumeral

def lexemes (x : SignedNumeral) : List Lexeme := List.replicate x.signs (.symbol .minus) ++ [.numeral x.numeral]

end SignedNumeral

/-- What follows the first operand of a row. -/
abbrev RowTail := List (BinaryOp × SignedNumeral)

namespace RowTail

def lexemes (rest : RowTail) : List Lexeme := rest.flatMap fun p => p.1.lexeme :: p.2.lexemes

/-- From the first operator on that is looser than a level. -/
def looser (L : Nat) (rest : RowTail) : RowTail := rest.dropWhile fun p => decide (L ≤ p.1.level)

/-- How deep the powers nest that an operand before the tail begins, with the minus signs of their exponents. -/
def tower : RowTail → Nat
  | (.pow, y) :: rest => tower rest + y.signs + 2
  | _ => 0

/-- How deep the operands of the tail nest. -/
def nesting : RowTail → Nat
  | [] => 0
  | (_, y) :: rest => max (tower rest + y.signs) (nesting rest)

theorem looser_cons_of_le {L : Nat} {op : BinaryOp} (h : L ≤ op.level) (y : SignedNumeral) (rest : RowTail) :
    looser L ((op, y) :: rest) = looser L rest :=
  List.dropWhile_cons_of_pos (decide_eq_true h)

theorem looser_cons_of_lt {L : Nat} {op : BinaryOp} (h : op.level < L) (y : SignedNumeral) (rest : RowTail) :
    looser L ((op, y) :: rest) = (op, y) :: rest :=
  List.dropWhile_cons_of_neg (by rw [decide_eq_true_eq]; exact Nat.not_le.2 h)

theorem looser_looser {L M : Nat} (h : L ≤ M) (rest : RowTail) : looser L (looser M rest) = looser L rest := by
  induction rest with
  | nil => rfl
  | cons p rest ih =>
    obtain ⟨op, y⟩ := p
    rcases Nat.lt_or_ge op.level M with hlt | hle
    · rw [looser_cons_of_lt hlt]
    · rw [looser_cons_of_le hle, ih, looser_cons_of_le (Nat.le_trans h hle)]

theorem level_lt_of_looser {L : Nat} {rest rest' : RowTail} {op : BinaryOp} {y : SignedNumeral}
    (h : looser L rest = (op, y) :: rest') : op.level < L := by
  have hhead := List.head?_dropWhile_not (fun p : BinaryOp × SignedNumeral => decide (L ≤ p.1.level)) rest
  rw [show rest.dropWhile (fun p => decide (L ≤ p.1.level)) = (op, y) :: rest' from h] at hhead
  exact Nat.lt_of_not_le (of_decide_eq_false hhead)

theorem length_looser_le (L : Nat) (rest : RowTail) : (looser L rest).length ≤ rest.length :=
  (List.dropWhile_suffix _).length_le

theorem nesting_looser_le (L : Nat) (rest : RowTail) : nesting (looser L rest) ≤ nesting rest := by
  induction rest with
  | nil => exact Nat.le_refl 0
  | cons p rest ih =>
    obtain ⟨op, y⟩ := p
    rcases Nat.lt_or_ge op.level L with hlt | hle
    · exact Nat.le_of_eq (congrArg nesting (looser_cons_of_lt hlt y rest))
    · rw [looser_cons_of_le hle]
      exact Nat.le_trans ih (Nat.le_max_right _ _)

theorem lexemes_ne_eof (x : SignedNumeral) (rest : RowTail) : ∀ l ∈ x.lexemes ++ rest.lexemes, l ≠ .eof := by
  have hx : ∀ x : SignedNumeral, ∀ l ∈ x.lexemes, l ≠ .eof := by
    intro x l hl
    rcases List.mem_append.1 hl with hl | hl
    · rw [List.eq_of_mem_replicate hl]
      exact Lexeme.noConfusion
    · rw [List.mem_singleton.1 hl]
      exact Lexeme.noConfusion
  intro l hl
  rcases List.mem_append.1 hl with hl | hl
  · exact hx x l hl
  · obtain ⟨⟨op, y⟩, -, hl⟩ := List.mem_flatMap.1 hl
    rcases List.mem_cons.1 hl with rfl | hl
    · cases op <;> exact Lexeme.noConfusion
    · exact hx y l hl

end RowTail

/-- From the token `i` on there are the lexemes and the mark of the end. -/
def Ahead (tokens : List Token) (i : Nat) (ls : List Lexeme) : Prop := (tokens.drop i).map Token.lexeme = ls ++ [.eof]

namespace Ahead

variable {tokens : List Token} {i : Nat} {l : Lexeme} {ls : List Lexeme}

theorem lt (h : Ahead tokens i ls) : i < tokens.length := by
  have hlen := congrArg List.length h
  rw [List.length_map, List.length_drop, List.length_append, List.length_singleton] at hlen
  omega

theorem drop_eq (hi : i < tokens.length) : tokens.drop i = Cursor.shown tokens i :: tokens.drop (i + 1) := by
  rw [List.drop_eq_getElem_cons hi, Cursor.shown_of_lt hi]

theorem shown (h : Ahead tokens i ls) : (Cursor.shown tokens i).lexeme = ls.headD .eof := by
  have hcons := h
  rw [Ahead, drop_eq h.lt, List.map_cons] at hcons
  cases ls <;> exact (List.cons.inj hcons).1

theorem next (h : Ahead tokens i (l :: ls)) : Ahead tokens (i + 1) ls := by
  have hcons := h
  rw [Ahead, drop_eq h.lt, List.map_cons] at hcons
  exact (List.cons.inj hcons).2

theorem last (h : Ahead tokens i []) : tokens.drop i = [Cursor.shown tokens i] := by
  have hcons := h
  rw [Ahead, drop_eq h.lt, List.map_cons] at hcons
  rw [drop_eq h.lt, List.map_eq_nil_iff.1 (List.cons.inj hcons).2]

end Ahead

/-! ## Trees of rows -/

/-- The tokens from `i` up to `j` are grouped as a tree that binds at least as tightly as a level. -/
structure Grouping (tokens : List Token) (L i : Nat) (n : Node) (j : Nat) : Prop where
  inOrder : ∃ ts, n.InOrder ts ∧ tokens.drop i = ts ++ tokens.drop j
  grouped : n.isGrouped = true
  tight : L ≤ n.tightness

namespace Grouping

variable {tokens : List Token} {L i j k : Nat} {l r n : Node}

theorem mono {M : Nat} (h : Grouping tokens M i n j) (hL : L ≤ M) : Grouping tokens L i n j :=
  { h with tight := Nat.le_trans hL h.tight }

theorem number (hi : i < tokens.length) {x : Numeral} (hx : (Cursor.shown tokens i).lexeme = .numeral x) :
    Grouping tokens 6 i (.number x (Cursor.shown tokens i).span) (i + 1) where
  inOrder := ⟨_, .number hx, Ahead.drop_eq hi⟩
  grouped := rfl
  tight := Nat.le_refl 6

theorem opposite (hi : i < tokens.length) (hminus : (Cursor.shown tokens i).lexeme = .symbol .minus)
    (h : Grouping tokens 5 (i + 1) n j) : Grouping tokens 5 i (.unary (Cursor.shown tokens i) n) j where
  inOrder := by
    obtain ⟨ts, hts, hrow⟩ := h.inOrder
    exact ⟨_, .unary _ hts, by rw [Ahead.drop_eq hi, hrow, List.cons_append]⟩
  grouped := by
    rw [Node.isGrouped, hminus, decide_eq_true h.tight, h.grouped]
    rfl
  tight := by
    rw [Node.tightness, hminus]
    exact Nat.le_refl 5

theorem binary (op : BinaryOp) (hl : Grouping tokens op.leftLevel i l j) (hj : j < tokens.length)
    (hop : (Cursor.shown tokens j).lexeme = op.lexeme) (hr : Grouping tokens op.rightLevel (j + 1) r k) :
    Grouping tokens op.level i (.binary l op.lexeme r) k where
  inOrder := by
    obtain ⟨us, hus, hleft⟩ := hl.inOrder
    obtain ⟨vs, hvs, hright⟩ := hr.inOrder
    refine ⟨_, hop ▸ Node.InOrder.binary (Cursor.shown tokens j) hus hvs, ?_⟩
    rw [hleft, Ahead.drop_eq hj, hright, List.append_assoc, List.cons_append]
  grouped := Node.isGrouped_binary.2 ⟨⟨⟨hl.tight, hr.tight⟩, hl.grouped⟩, hr.grouped⟩
  tight := Nat.le_of_eq (Node.tightness_binary l r op).symm

end Grouping

/-- From a row the reading takes the first operand and all that follows it at a level or tighter. -/
def Groups (tokens : List Token) (read : Reading Node) (L : Nat) (x : SignedNumeral) (rest : RowTail) : Prop :=
  ∀ i, Ahead tokens i (x.lexemes ++ rest.lexemes) → ∃ n j, Reads read (.on tokens i) n (.on tokens j) ∧
    Grouping tokens L i n j ∧ Ahead tokens j (rest.looser L).lexemes

/-- It does so from every row whose operands nest no deeper than a bound. -/
def GroupsWithin (tokens : List Token) (read : Reading Node) (L N : Nat) : Prop :=
  ∀ x (rest : RowTail), rest.tower + x.signs ≤ N → rest.nesting ≤ N → Groups tokens read L x rest

/-- Of the operators at a level or looser, those at the level join; the end of a row does not. -/
structure JoinsAt (joins : Lexeme → Bool) (L : Nat) : Prop where
  eof : joins .eof = false
  lexeme : ∀ op : BinaryOp, op.level ≤ L → joins op.lexeme = decide (op.level = L)

namespace JoinsAt

theorem conditions : JoinsAt joinsConditions 1 := ⟨rfl, fun op => by cases op <;> decide⟩

theorem comparands : JoinsAt joinsComparands 2 := ⟨rfl, fun op => by cases op <;> decide⟩

theorem terms : JoinsAt joinsTerms 3 := ⟨rfl, fun op => by cases op <;> decide⟩

theorem factors : JoinsAt joinsFactors 4 := ⟨rfl, fun op => by cases op <;> decide⟩

theorem powers : JoinsAt (·.isSymbol .power) 5 := ⟨rfl, fun op => by cases op <;> decide⟩

end JoinsAt

/-! ## Factors -/

section Factors

variable {tokens : List Token}

theorem isSymbol_openParen_rest (rest : RowTail) : (rest.lexemes.headD .eof).isSymbol .openParen = false := by
  match rest with
  | [] => rfl
  | (op, _) :: _ => cases op <;> rfl

theorem isSymbol_power_looser (rest : RowTail) : ((rest.looser 5).lexemes.headD .eof).isSymbol .power = false := by
  match h : rest.looser 5 with
  | [] => rfl
  | (op, _) :: _ =>
    have hlt := RowTail.level_lt_of_looser h
    exact (JoinsAt.powers.lexeme op (Nat.le_of_lt hlt)).trans (decide_eq_false (Nat.ne_of_lt hlt))

theorem reads_call_number {d i : Nat} {x : Numeral} {rest : RowTail} (hi : Ahead tokens i (.numeral x :: rest.lexemes)) :
    Reads (readAt (d + 2) .call) (.on tokens i) (.number x (Cursor.shown tokens i).span) (.on tokens (i + 1)) := by
  refine reads_call (reads_number hi.shown) ?_
  rw [hi.next.shown]
  exact isSymbol_openParen_rest rest

/-- A number alone, where no power follows. -/
theorem number_groups {x : Numeral} {rest : RowTail} (hrest : rest.looser 5 = rest) {d : Nat} (hd : 3 ≤ d) :
    Groups tokens (readAt d .power) 5 ⟨0, x⟩ rest := by
  obtain ⟨d, rfl⟩ := Nat.exists_eq_add_of_le' hd
  intro i hi
  have hnext : (Cursor.shown tokens (i + 1)).lexeme.isSymbol .power = false := by
    rw [hi.next.shown, ← hrest]
    exact isSymbol_power_looser rest
  refine ⟨_, i + 1, reads_chain_one (reads_call_number hi) hi.next.lt hnext, ?_, ?_⟩
  · exact (Grouping.number hi.lt hi.shown).mono (by decide)
  · rw [hrest]
    exact hi.next

/-- A number and the factor to whose power it is raised. -/
theorem power_groups (ht : Ended tokens) {x : Numeral} {y : SignedNumeral} {rest : RowTail} {d : Nat} (hd : 2 ≤ d)
    (hfactor : Groups tokens (readAt d .factor) 5 y rest) :
    Groups tokens (readAt (d + 1) .power) 5 ⟨0, x⟩ ((.pow, y) :: rest) := by
  obtain ⟨d, rfl⟩ := Nat.exists_eq_add_of_le' hd
  intro i hi
  obtain ⟨r, k, hr, hright, hk⟩ := hfactor (i + 2) hi.next.next
  have hleft : Grouping tokens 6 i (.number x (Cursor.shown tokens i).span) (i + 1) := .number hi.lt hi.shown
  -- The exponent has taken all further powers, so the loop ends after one round.
  have hnext : (Cursor.shown tokens k).lexeme.isSymbol .power = false := by
    rw [hk.shown]
    exact isSymbol_power_looser rest
  refine ⟨_, k, reads_chain_two ht (readAt_sound ht _ .factor) rfl (reads_call_number hi) hi.next.lt hi.next.shown rfl hr
    hk.lt hnext, ?_, ?_⟩
  · exact Grouping.binary .pow hleft hi.next.lt hi.next.shown hright
  · rw [RowTail.looser_cons_of_le (Nat.le_refl 5)]
    exact hk

/-- Minus signs in front of a power. -/
theorem signs_group {x : Numeral} {rest : RowTail} {c : Nat}
    (hpower : ∀ d, c + 3 ≤ d → Groups tokens (readAt d .power) 5 ⟨0, x⟩ rest) (signs : Nat) :
    ∀ d, c + signs + 4 ≤ d → Groups tokens (readAt d .factor) 5 ⟨signs, x⟩ rest := by
  induction signs with
  | zero =>
    intro d hd i hi
    obtain ⟨d, rfl⟩ := Nat.exists_eq_add_of_le' (Nat.le_trans (Nat.le_add_left 1 _) hd)
    obtain ⟨n, j, hn, hgroup, hj⟩ := hpower d (by omega) i hi
    exact ⟨n, j, reads_factor hn (by rw [hi.shown]; rfl), hgroup, hj⟩
  | succ signs ih =>
    intro d hd i hi
    obtain ⟨d, rfl⟩ := Nat.exists_eq_add_of_le' (Nat.le_trans (Nat.le_add_left 1 _) hd)
    obtain ⟨n, j, hn, hgroup, hj⟩ := ih d (by omega) (i + 1) hi.next
    exact ⟨_, j, reads_opposite hi.shown hn, .opposite hi.lt hi.shown hgroup, hj⟩

theorem factor_groups (ht : Ended tokens) (rest : RowTail) :
    ∀ (x : SignedNumeral) (d : Nat), rest.tower + x.signs + 4 ≤ d → Groups tokens (readAt d .factor) 5 x rest := by
  induction rest with
  | nil => exact fun x => signs_group (fun d hd => number_groups rfl (by omega)) x.signs
  | cons p rest ih =>
    obtain ⟨op, y⟩ := p
    by_cases hop : op = .pow
    · subst hop
      refine fun x => signs_group (fun d hd => ?_) x.signs
      rw [RowTail.tower] at hd
      obtain ⟨d, rfl⟩ := Nat.exists_eq_add_of_le' (Nat.le_trans (Nat.le_add_left 1 _) hd)
      exact power_groups ht (by omega) (ih y d (by omega))
    · have hlow : op.level < 5 := by
        cases op with
        | pow => exact absurd rfl hop
        | _ => decide
      exact fun x => signs_group (fun d hd => number_groups (RowTail.looser_cons_of_lt hlow y rest) (by omega)) x.signs

end Factors

/-! ## Chains -/

section Chains

variable {tokens : List Token} (ht : Ended tokens) {read : Reading Node} {D : List Lexeme → Node → Lexeme → Prop}
  (hsound : Sound tokens read D) {joins : Lexeme → Bool} {L N : Nat} (hL : L < 5) (hjoins : JoinsAt joins L)
  (hread : GroupsWithin tokens read (L + 1) N)

include ht hsound hL hjoins hread

/-- The loop of a chain keeps a tree at its level, and leaves only looser operators. -/
theorem rounds_group (rest : RowTail) (hrest : rest.nesting ≤ N)
    (hhead : ∀ op y rest', rest = (op, y) :: rest' → op.level ≤ L) {i j : Nat} {l : Node} (hl : Grouping tokens L i l j)
    (hj : Ahead tokens j rest.lexemes) :
    ∃ n k, Reads (repeating (round joins Node.binary read) l) (.on tokens j) n (.on tokens k) ∧
      Grouping tokens L i n k ∧ Ahead tokens k (rest.looser L).lexemes := by
  match rest with
  | [] => exact ⟨l, j, reads_repeating_none hj.lt (reads_round_none Node.binary (hj.shown ▸ hjoins.eof)), hl, hj⟩
  | (op, y) :: rest =>
    have hop : (Cursor.shown tokens j).lexeme = op.lexeme := hj.shown
    have hle : op.level ≤ L := hhead op y rest rfl
    rcases Nat.lt_or_eq_of_le hle with hlt | heq
    · have hno : joins op.lexeme = false := (hjoins.lexeme op hle).trans (decide_eq_false (Nat.ne_of_lt hlt))
      rw [RowTail.looser_cons_of_lt hlt]
      exact ⟨l, j, reads_repeating_none hj.lt (reads_round_none Node.binary (hop ▸ hno)), hl, hj⟩
    · have hyes : joins op.lexeme = true := (hjoins.lexeme op hle).trans (decide_eq_true heq)
      have hnest := Nat.max_le.1 hrest
      -- The right operand takes the tighter operators after it, so the loop goes on with fewer.
      obtain ⟨r, k, hr, hright, hk⟩ := hread y rest hnest.1 hnest.2 (j + 1) hj.next
      have hlow : op.level < 5 := heq ▸ hL
      have hleft : Grouping tokens op.leftLevel i l j := by rwa [BinaryOp.leftLevel_of_lt hlow, heq]
      have hright : Grouping tokens op.rightLevel (j + 1) r k := by rwa [BinaryOp.rightLevel_of_lt hlow, heq]
      have hboth : Grouping tokens L i (.binary l op.lexeme r) k := heq ▸ .binary op hleft hj.lt hop hright
      obtain ⟨n, m, hn, hgroup, hm⟩ := rounds_group (RowTail.looser (L + 1) rest)
        (Nat.le_trans (RowTail.nesting_looser_le _ rest) hnest.2)
        (fun _ _ _ h => Nat.le_of_lt_succ (RowTail.level_lt_of_looser h)) hboth hk
      rw [RowTail.looser_looser (Nat.le_succ L)] at hm
      rw [RowTail.looser_cons_of_le (Nat.le_of_eq heq.symm)]
      exact ⟨n, m, reads_repeating_some (advances_round ht hsound hjoins.eof) hj.lt
        (reads_round_some Node.binary hop hyes hr) hn, hgroup, hm⟩
termination_by rest.length
decreasing_by exact Nat.lt_succ_of_le (RowTail.length_looser_le (L + 1) rest)

/-- **A chain goes from a level to the next looser one.** -/
theorem chain_groups : GroupsWithin tokens (chain read read joins) L N := by
  intro x rest hx hrest i hi
  obtain ⟨l, j, hl, hleft, hj⟩ := hread x rest hx hrest i hi
  obtain ⟨n, k, hn, hgroup, hk⟩ := rounds_group ht hsound hL hjoins hread (rest.looser (L + 1))
    (Nat.le_trans (RowTail.nesting_looser_le _ rest) hrest)
    (fun _ _ _ h => Nat.le_of_lt_succ (RowTail.level_lt_of_looser h)) (hleft.mono (Nat.le_succ L)) hj
  rw [RowTail.looser_looser (Nat.le_succ L)] at hk
  exact ⟨n, k, reads_bind.2 ⟨l, _, hl, hn⟩, hgroup, hk⟩

end Chains

/-! ## Whole rows -/

section Levels

variable {tokens : List Token} (ht : Ended tokens) {d N : Nat} (hd : N + 4 ≤ d)

include ht hd

theorem product_groups : GroupsWithin tokens (readAt (d + 1) .product) 4 N :=
  chain_groups ht (readAt_sound ht d .factor) (by decide) .factors fun x rest hx _ => factor_groups ht rest x d (by omega)

theorem sum_groups : GroupsWithin tokens (readAt (d + 2) .sum) 3 N :=
  chain_groups ht (readAt_sound ht (d + 1) .product) (by decide) .terms (product_groups ht hd)

omit ht hd in
/-- A row begins with a sign or a number. -/
theorem isKeyword_row {i : Nat} {x : SignedNumeral} {rest : RowTail} (hi : Ahead tokens i (x.lexemes ++ rest.lexemes))
    (k : Keyword) : (Cursor.shown tokens i).lexeme.isKeyword k = false := by
  rw [hi.shown]
  obtain ⟨_ | signs, numeral⟩ := x <;> rfl

omit ht hd in
theorem ne_newline_row {i : Nat} {x : SignedNumeral} {rest : RowTail} (hi : Ahead tokens i (x.lexemes ++ rest.lexemes)) :
    (Cursor.shown tokens i).lexeme ≠ .newline := by
  rw [hi.shown]
  obtain ⟨_ | signs, numeral⟩ := x <;> exact Lexeme.noConfusion

theorem comparison_groups : GroupsWithin tokens (readAt (d + 3) .comparison) 2 N := by
  intro x rest hx hrest i hi
  obtain ⟨n, j, hn, hgroup, hj⟩ :=
    chain_groups ht (readAt_sound ht (d + 2) .sum) (by decide) .comparands (sum_groups ht hd) x rest hx hrest i hi
  exact ⟨n, j, reads_comparands hn (isKeyword_row hi .not), hgroup, hj⟩

theorem expression_groups : GroupsWithin tokens (readAt (d + 4) .expression) 1 N := by
  intro x rest hx hrest i hi
  obtain ⟨n, j, hn, hgroup, hj⟩ :=
    chain_groups ht (readAt_sound ht (d + 3) .comparison) (by decide) .conditions (comparison_groups ht hd)
      x rest hx hrest i hi
  exact ⟨n, j, reads_conditions hn (isKeyword_row hi .var), hgroup, hj⟩

end Levels

/-- No operator is looser than the first level. -/
theorem RowTail.looser_one (rest : RowTail) : rest.looser 1 = [] := by
  match h : rest.looser 1 with
  | [] => rfl
  | (op, _) :: _ =>
    have hlt := RowTail.level_lt_of_looser h
    cases op <;> exact absurd hlt (by decide)

/-- A statement up to the end of the text. -/
theorem reads_statement {tokens : List Token} {d i j : Nat} {n : Node}
    (hi : i < tokens.length) (hstart : (Cursor.shown tokens i).lexeme ≠ .newline)
    (h : Reads (readAt d .expression) (.on tokens i) n (.on tokens j)) (hj : Ahead tokens j []) :
    Reads (readAt (d + 1) .statements) (.on tokens i)
      ⟨[n], ⟨(Cursor.shown tokens i).span.start, (Cursor.shown tokens j).span.stop⟩, 0⟩ (.on tokens j) := by
  have hend : Reads newlines (.on tokens j) 0 (.on tokens j) := by
    refine reads_newlines_zero hj.lt ?_
    rw [hj.shown]
    exact Lexeme.noConfusion
  have hrow : Reads (repeating (nextStatement (readAt d)) ⟨[n], 0, true⟩) (.on tokens j) ⟨[n], 0, true⟩ (.on tokens j) :=
    reads_repeating_none hj.lt (reads_bind.2 ⟨0, _, hend, reads_pure.2 ⟨rfl, rfl⟩⟩)
  show Reads (statementsForm (readAt d)) _ _ _
  rw [statementsForm, reads_current_bind]
  refine reads_bind.2 ⟨0, _, reads_newlines_zero hi hstart, reads_bind.2 ⟨n, _, h, reads_bind.2 ⟨_, _, hrow, ?_⟩⟩⟩
  rw [reads_current_bind]
  exact reads_pure.2 ⟨rfl, rfl⟩

/-- **Every row of operands and operators is read, and its operators group by their levels.**  The depth that is needed grows
with the minus signs and with the powers in one another, but not with the length of the row. -/
theorem program_groups (x : SignedNumeral) (rest : RowTail) {tokens : List Token}
    (htokens : tokens.map Token.lexeme = x.lexemes ++ rest.lexemes ++ [.eof]) {depth : Nat}
    (hdepth : max (rest.tower + x.signs) rest.nesting + 9 ≤ depth) :
    ∃ n span, (program depth (.start tokens)).result = .ok (.list [n] span) ∧ n.InOrder tokens.dropLast ∧
      n.isGrouped = true := by
  obtain ⟨d, rfl⟩ := Nat.exists_eq_add_of_le' (Nat.le_trans (Nat.le_add_left 5 _) hdepth)
  have ht : Ended tokens := .of_lexemes (RowTail.lexemes_ne_eof x rest) htokens
  have hrow : Ahead tokens 0 (x.lexemes ++ rest.lexemes) := htokens
  obtain ⟨n, j, hn, hgroup, hj⟩ := expression_groups ht (d := d) (by omega) x rest
    (Nat.le_max_left _ _) (Nat.le_max_right _ _) 0 hrow
  rw [RowTail.looser_one] at hj
  have hstatement := reads_statement hrow.lt (ne_newline_row hrow) hn hj
  have hprogram := reads_program.2 ⟨_, hstatement, hj.shown, rfl⟩
  rw [← Cursor.start_eq_on] at hprogram
  obtain ⟨ts, hts, htokens⟩ := hgroup.inOrder
  rw [hj.last, List.drop_zero] at htokens
  refine ⟨n, _, hprogram.1, ?_, hgroup.grouped⟩
  rw [htokens, List.dropLast_concat]
  exact hts

/-- Signs, a power with a sign in its exponent, and operators of all levels. -/
theorem program_groups_mixed :
    let one : SignedNumeral := ⟨0, .whole 1⟩
    let minusTwo : SignedNumeral := ⟨1, .whole 2⟩
    let rest : RowTail :=
      [(.sub, minusTwo), (.pow, minusTwo), (.pow, one), (.mul, one), (.and, minusTwo), (.eq, one), (.sub, one)]
    let tokens := bareTokens (one.lexemes ++ rest.lexemes ++ [.eof])
    max (rest.tower + one.signs) rest.nesting = 6 ∧
    ∃ n span, (program 15 (.start tokens)).result = .ok (.list [n] span) ∧ n.InOrder tokens.dropLast ∧
      n.isGrouped = true := by
  intro one minusTwo rest tokens
  exact ⟨rfl, program_groups one rest rfl (by decide)⟩

end Grammar

end Scriptlet
