import Scriptlet.Proofs.Running.Tracks
import Scriptlet.Proofs.Spelling.ReadBack
/-!
# Integer arithmetic is exact

`Arithmetic` is the language of integer expressions, and `Arithmetic.value` what they mean, in terms of the integers and of
rounding down a fraction.  An expression written down and run gives its value, however large, and an expression that divides by
zero somewhere gives the error that says so (`run_arithmetic`).

Evaluation meets each operand before it divides, so the first thing it comes to that has no value is a whole quotient by zero.
That is the one that is reported; a remainder by zero must not occur, since it is not reported.
-/
namespace Scriptlet

/-! ## Integer expressions -/

namespace Arithmetic

inductive Op where
  | add | sub | mul | floorDiv | mod

namespace Op

def symbol : Op → Symbol
  | add => .plus
  | sub => .minus
  | mul => .times
  | floorDiv => .doubleSlash
  | mod => .percent

/-- The quotient rounded down. -/
def quotient (a b : Int) : Int := ((a : Rat) / (b : Rat)).floor

/-- What the operator means; a quotient or a remainder by zero has no value. -/
def result? : Op → Int → Int → Option Int
  | add, a, b => some (a + b)
  | sub, a, b => some (a - b)
  | mul, a, b => some (a * b)
  | floorDiv, a, b => if b = 0 then none else some (quotient a b)
  | mod, a, b => if b = 0 then none else some (a - quotient a b * b)

end Op

end Arithmetic

inductive Arithmetic where
  | literal (n : Nat)
  | opposite (e : Arithmetic)
  | binary (op : Arithmetic.Op) (l r : Arithmetic)

namespace Arithmetic

def value : Arithmetic → Option Int
  | literal n => some n
  | opposite e => e.value.map (- ·)
  | binary op l r => l.value.bind fun a => r.value.bind fun b => op.result? a b

/-- The divisor of no remainder is zero. -/
def remaindersDefined : Arithmetic → Bool
  | literal _ => true
  | opposite e => e.remaindersDefined
  | binary .mod l r => r.value != some 0 && l.remaindersDefined && r.remaindersDefined
  | binary _ l r => l.remaindersDefined && r.remaindersDefined

/-- The divisor of some whole quotient is zero. -/
def dividesByZero : Arithmetic → Bool
  | literal _ => false
  | opposite e => e.dividesByZero
  | binary .floorDiv l r => r.value == some 0 || l.dividesByZero || r.dividesByZero
  | binary _ l r => l.dividesByZero || r.dividesByZero

/-- Every literal is within the limit on digits. -/
def isWritable : Arithmetic → Bool
  | literal n => n < Nat.pow 10 Text.digitLimit
  | opposite e => e.isWritable
  | binary _ l r => l.isWritable && r.isWritable

def node : Arithmetic → Node
  | literal n => .number (.whole n) .forgotten
  | opposite e => .unary ⟨.symbol .minus, .forgotten⟩ e.node
  | binary op l r => .binary l.node (.symbol op.symbol) r.node

/-- The text of an expression, with every operand in parentheses. -/
def text (e : Arithmetic) : String := e.node.print

/-- How deep the evaluation nests. -/
def depth : Arithmetic → Nat
  | literal _ => 1
  | opposite e => e.depth + 1
  | binary _ l r => max l.depth r.depth + 1

/-! ## Rounding down -/

theorem quotient_neg_neg (a b : Int) : Op.quotient (-a) (-b) = Op.quotient a b := by
  rw [Op.quotient, Op.quotient, ← Rat.divInt_eq_div, ← Rat.divInt_eq_div, Rat.neg_divInt_neg]

theorem fdiv_eq_quotient_of_pos (a : Int) {b : Int} (hb : 0 < b) : a.fdiv b = Op.quotient a b := by
  -- The two integers are below the same integers.
  have hbelow : ∀ x : Int, a.fdiv b < x ↔ Op.quotient a b < x := by
    intro x
    rw [Int.fdiv_eq_ediv_of_nonneg a (Int.le_of_lt hb), Int.ediv_lt_iff_lt_mul hb, Op.quotient, Rat.floor_lt_iff,
      Rat.div_lt_iff (Rat.intCast_pos.2 hb), ← Rat.intCast_mul, Rat.intCast_lt_intCast]
  exact Int.le_antisymm (Int.le_of_lt_add_one ((hbelow _).2 (Int.lt_succ _)))
    (Int.le_of_lt_add_one ((hbelow _).1 (Int.lt_succ _)))

theorem fdiv_eq_quotient {b : Int} (a : Int) (hb : b ≠ 0) : a.fdiv b = Op.quotient a b := by
  rcases Int.lt_or_gt_of_ne hb with hneg | hpos
  · rw [← quotient_neg_neg, ← Int.neg_fdiv_neg]
    exact fdiv_eq_quotient_of_pos (-a) (Int.neg_pos_of_neg hneg)
  · exact fdiv_eq_quotient_of_pos a hpos

theorem fmod_eq {b : Int} (a : Int) (hb : b ≠ 0) : a.fmod b = a - Op.quotient a b * b := by
  rw [Int.fmod_def, fdiv_eq_quotient a hb, Int.mul_comm]

/-- The remainder makes up for what the quotient leaves, and has the sign of the divisor. -/
theorem remainder_bounds (a b : Int) :
    (0 < b → 0 ≤ a - Op.quotient a b * b ∧ a - Op.quotient a b * b < b) ∧
    (b < 0 → b < a - Op.quotient a b * b ∧ a - Op.quotient a b * b ≤ 0) := by
  have hpositive : ∀ a b : Int, 0 < b → 0 ≤ a - Op.quotient a b * b ∧ a - Op.quotient a b * b < b := by
    intro a b hb
    rw [← fmod_eq a (Int.ne_of_gt hb)]
    exact ⟨Int.fmod_nonneg_of_pos a hb, Int.fmod_lt_of_pos a hb⟩
  refine ⟨hpositive a b, fun hneg => ?_⟩
  have hopposite := hpositive (-a) (-b) (Int.neg_pos_of_neg hneg)
  rw [quotient_neg_neg, Int.mul_neg] at hopposite
  omega

/-! ## Where there is no value -/

theorem parts_remaindersDefined {op : Op} {l r : Arithmetic} (h : (binary op l r).remaindersDefined = true) :
    l.remaindersDefined = true ∧ r.remaindersDefined = true := by
  cases op <;> simp only [remaindersDefined, Bool.and_eq_true] at h <;> simp [h]

theorem value_eq_none_iff {e : Arithmetic} (h : e.remaindersDefined = true) :
    e.value = none ↔ e.dividesByZero = true := by
  induction e with
  | literal n => simp [value, dividesByZero]
  | opposite e ih => simpa [value, dividesByZero] using ih h
  | binary op l r ihl ihr =>
    have hl := ihl (parts_remaindersDefined h).1
    have hr := ihr (parts_remaindersDefined h).2
    cases hlv : l.value with
    | none =>
      rw [hlv, eq_self, true_iff] at hl
      cases op <;> simp [value, dividesByZero, hlv, hl]
    | some a =>
      have hl : l.dividesByZero = false := by simpa [hlv] using hl
      cases hrv : r.value with
      | none =>
        rw [hrv, eq_self, true_iff] at hr
        cases op <;> simp [value, dividesByZero, hlv, hrv, hr]
      | some b =>
        have hr : r.dividesByZero = false := by simpa [hrv] using hr
        cases op with
        | mod =>
          have hb : b ≠ 0 := by simpa [remaindersDefined, hrv, (parts_remaindersDefined h)] using h
          simp [value, dividesByZero, hlv, hrv, hl, hr, Op.result?, hb]
        | _ => simp [value, dividesByZero, hlv, hrv, hl, hr, Op.result?]

/-! ## Evaluation -/

/-- An effect ends with the integer, or with the error that says that there is none, and does nothing else. -/
def Comes (w : World) : Option Int → Except Stop Value × World → Prop
  | some z, reply => ∃ site, reply = (.ok ⟨.number (.int z), site⟩, w)
  | none, reply => ∃ e : RuntimeError, reply = (.error (.error e), w) ∧ e.reason = .divisionByZero

theorem Comes.bind {w : World} {o : Option Int} {e : Effect Value} (h : Comes w o (e.run w)) {g : Int → Option Int}
    {f : Value → Effect Value} (hf : ∀ a site, o = some a → Comes w (g a) ((f ⟨.number (.int a), site⟩).run w)) :
    Comes w (o.bind g) ((e >>= f).run w) := by
  rw [Effect.run_bind]
  cases o with
  | none =>
    obtain ⟨error, hrun, hreason⟩ := h
    rw [hrun]
    exact ⟨error, rfl, hreason⟩
  | some a =>
    obtain ⟨site, hrun⟩ := h
    rw [hrun]
    exact hf a site rfl

def Op.operator : Op → BinaryOp
  | add => .add
  | sub => .sub
  | mul => .mul
  | floorDiv => .floorDiv
  | mod => .mod

theorem Op.ofLexeme?_symbol (op : Op) : BinaryOp.ofLexeme? (.symbol op.symbol) = some op.operator := by
  cases op <;> rfl

/-- An operator on two integers. -/
theorem Op.binary_comes {op : Op} {a b : Int} (h : op = .mod → b ≠ 0) (s t : Site) (w : World) :
    Comes w (op.result? a b) ((Value.binary op.operator ⟨.number (.int a), s⟩ ⟨.number (.int b), t⟩).run w) := by
  cases op with
  | add | sub | mul => exact ⟨_, rfl⟩
  | floorDiv =>
    by_cases hb : b = 0
    · subst hb
      exact ⟨_, rfl, rfl⟩
    · rw [Op.result?, if_neg hb, ← fdiv_eq_quotient a hb]
      have hzero : ¬(Op.floorDiv.operator.divides && (Scalar.int b).isZero) = true := by
        simpa [Op.operator, BinaryOp.divides, Scalar.isZero, Scalar.beq] using hb
      refine ⟨⟨none, s.context⟩, ?_⟩
      simp only [Value.binary, Value.binaryNumber, Datum.scalar?, if_neg hzero]
      rfl
  | mod =>
    have hb := h rfl
    rw [Op.result?, if_neg hb, ← fmod_eq a hb]
    have hmod : Scalar.mod (.int a) (.int b) = .ok (.int (a.fmod b)) := by
      simp [Scalar.mod, Scalar.realOperands, hb, bind, Except.bind, pure, Except.pure]
    refine ⟨⟨none, s.context⟩, ?_⟩
    simp only [Value.binary, Value.binaryNumber, Datum.scalar?, Op.operator, BinaryOp.divides, Bool.false_and,
      BinaryOp.onScalars, hmod]
    rfl

theorem opposite_comes (a : Int) (s : Site) (w : World) :
    Comes w (some (-a)) ((Value.opposite ⟨.number (.int a), s⟩).run w) := by
  have hmul : a * -1 = -a := by omega
  rw [← hmul]
  exact ⟨_, rfl⟩

theorem resite_comes {z : Int} {site : Site} {w : World} (f : Site → Site) :
    Comes w (some z) ((Effect.resite ⟨.number (.int z), site⟩ f).run w) := ⟨_, rfl⟩

end Arithmetic

/-! ## Trees without their positions -/

theorem Node.bare_eq_number {n : Node} {x : Numeral} {span : Span} (h : n.bare = .number x span) :
    ∃ span', n = .number x span' := by
  cases n with
  | number y s =>
    cases h
    exact ⟨s, rfl⟩
  | _ => cases h

theorem Node.bare_eq_list {n : Node} {items : List Node} {span : Span} (h : n.bare = .list items span) :
    ∃ items' span', n = .list items' span' ∧ items'.map Node.bare = items := by
  cases n with
  | list items' s =>
    have hitems : Node.relocateAll (fun _ => .forgotten) items' = items := (Node.list.inj h).1
    rw [Node.relocateAll_eq_map] at hitems
    exact ⟨items', s, rfl, hitems⟩
  | _ => cases h

theorem Node.bare_eq_singleton {n item : Node} {span : Span} (h : n.bare = .list [item] span) :
    ∃ n' span', n = .list [n'] span' ∧ n'.bare = item := by
  obtain ⟨items, s, rfl, hitems⟩ := Node.bare_eq_list h
  obtain ⟨n', rfl, hn⟩ := List.map_eq_singleton_iff.1 hitems
  exact ⟨n', s, rfl, hn⟩

theorem Node.bare_eq_unary {n operand : Node} {op : Token} (h : n.bare = .unary op operand) :
    ∃ op' operand', n = .unary op' operand' ∧ op'.lexeme = op.lexeme ∧ operand'.bare = operand := by
  cases n with
  | unary t m =>
    cases h
    exact ⟨t, m, rfl, rfl, rfl⟩
  | _ => cases h

theorem Node.bare_eq_binary {n l r : Node} {op : Lexeme} (h : n.bare = .binary l op r) :
    ∃ l' r', n = .binary l' op r' ∧ l'.bare = l ∧ r'.bare = r := by
  cases n with
  | binary l' op' r' =>
    cases h
    exact ⟨l', r', rfl, rfl, rfl⟩
  | _ => cases h

namespace Arithmetic

/-- **An expression is evaluated to its value**, in any context and world. -/
theorem eval_comes (limits : Limits) (c : Context) (w : World) {e : Arithmetic} (h : e.remaindersDefined = true)
    {n : Node} (hn : n.bare = e.node) {d : Nat} (hd : e.depth ≤ d) : Comes w e.value ((eval limits d n c).run w) := by
  induction e generalizing n d with
  | literal m =>
    obtain ⟨span, rfl⟩ := Node.bare_eq_number hn
    obtain ⟨d, rfl⟩ := Nat.exists_eq_add_of_lt hd
    exact ⟨_, rfl⟩
  | opposite e ih =>
    obtain ⟨op, operand, rfl, hop, hoperand⟩ := Node.bare_eq_unary hn
    obtain ⟨k, rfl⟩ := Nat.exists_eq_add_of_lt hd
    have hvalue : (opposite e).value = e.value.bind fun a => (some (-a)).bind some := by
      cases hv : e.value <;> simp [value, hv]
    rw [hvalue]
    simp only [eval, Eval.step, hop]
    refine .bind (ih h hoperand (Nat.le_add_right _ _)) fun a site _ => ?_
    exact .bind (opposite_comes a site w) fun _ _ _ => resite_comes _
  | binary op l r ihl ihr =>
    obtain ⟨l', r', rfl, hl, hr⟩ := Node.bare_eq_binary hn
    obtain ⟨k, rfl⟩ := Nat.exists_eq_add_of_lt hd
    have hvalue : (binary op l r).value = l.value.bind fun a => r.value.bind fun b => (op.result? a b).bind some := by
      simp [value]
    obtain ⟨hdl, hdr⟩ := parts_remaindersDefined h
    rw [hvalue]
    simp only [eval, Eval.step, Op.ofLexeme?_symbol]
    refine .bind (ihl hdl hl (by omega)) fun a s _ => .bind (ihr hdr hr (by omega)) fun b t hb => ?_
    refine .bind (Op.binary_comes (fun hop => ?_) s t w) fun _ _ _ => resite_comes _
    -- The divisor of a remainder is not zero, since the whole expression says so.
    subst hop
    simp only [remaindersDefined, hb, Bool.and_eq_true, bne_iff_ne, ne_eq, Option.some.injEq] at h
    exact h.1.1

/-! ## Texts -/

theorem bare_node (e : Arithmetic) : e.node.bare = e.node := by
  induction e with
  | literal n => rfl
  | opposite e ih =>
    have hoperand : e.node.relocate (fun _ => .forgotten) = e.node := ih
    rw [node, Node.bare, Node.relocate, hoperand]
    rfl
  | binary op l r ihl ihr =>
    have hl : l.node.relocate (fun _ => .forgotten) = l.node := ihl
    have hr : r.node.relocate (fun _ => .forgotten) = r.node := ihr
    rw [node, Node.bare, Node.relocate, hl, hr]

theorem isExpressible_node {e : Arithmetic} (h : e.isWritable = true) : e.node.isExpressible = true := by
  induction e with
  | literal n => exact h
  | opposite e ih => rw [node, Node.isExpressible, ih h]; rfl
  | binary op l r ihl ihr =>
    rw [isWritable, Bool.and_eq_true] at h
    rw [node, Node.isExpressible, ihl h.1, ihr h.2, Op.ofLexeme?_symbol]
    rfl

open Grammar in
/-- The text of an expression is read as one statement, which is the expression up to positions. -/
theorem parse_text {e : Arithmetic} (h : e.isWritable = true) :
    ∃ depth, ∀ (limits : Limits) (file : String), depth ≤ limits.reading →
      ∃ tree, Parse.program limits ⟨file, e.text⟩ = .ok tree ∧ tree.bare = .list [e.node] .forgotten := by
  have hscans := scans_print (isExpressible_node h)
  have hended : Ended (bareTokens (e.node.lexemes ++ [.eof])) := by
    refine .of_lexemes hscans.ne_eof ?_
    rw [bareTokens, List.map_map]
    exact List.map_id _
  have hlast : (Cursor.shown (bareTokens (e.node.lexemes ++ [.eof])) e.node.lexemes.length).lexeme = .eof :=
    hended.shown_last (by simp [bareTokens])
  obtain ⟨depth, hread⟩ := statement_accepted hended (span_bareTokens (by simp)) (isExpressible_node h)
    (covers_all e.node.lexemes) hlast
  rw [bare_node] at hread
  refine ⟨depth, fun limits file hdepth => ?_⟩
  have hprogram := reads_program.2 ⟨_, hread limits.reading hdepth, hlast, rfl⟩
  rw [← Cursor.start_eq_on] at hprogram
  have hscans : Scan.Scans (Source.mk file e.text).text.toList e.node.lexemes := hscans
  exact (parse_bare_iff hscans).2 hprogram.1

end Arithmetic

/-- The value of a program of one statement is the list of its value. -/
theorem eval_singleton (limits : Limits) (d : Nat) (n : Node) (span : Span) (c : Context) (w : World) :
    (eval limits (d + 1) (.list [n] span) c).run w = match (eval limits d n c).run w with
      | (.ok v, u) => (.ok (.placed (.list u.lists.size) span c), { u with lists := u.lists.push #[v.datum] })
      | (.error stop, u) => (.error stop, u) := by
  have hall : Eval.evalAll (eval limits d) c [n] = eval limits d n c >>= fun v => pure [v] := rfl
  rw [eval_list, hall, Effect.run_bind]
  obtain ⟨x, u⟩ := (eval limits d n c).run w
  cases x <;> rfl

/-- **Integer arithmetic is exact.**  An expression written down and run in any session, with enough depth for it, gives the
list of its value, if it does not divide by zero; else the run ends with the error that says so.  A quotient is rounded down,
and the remainder makes up for the rest and has the sign of the divisor. -/
theorem run_arithmetic (e : Arithmetic) (hwritable : e.isWritable = true) (hdefined : e.remaindersDefined = true) :
    (∃ depth, ∀ (s : Session) (name file : String), depth ≤ s.limits.reading → depth ≤ s.limits.evaluation →
      (e.dividesByZero = false → ∃ z v cell, e.value = some z ∧ (s.run name ⟨file, e.text⟩).1 = .value v ∧
        v.datum = .list cell ∧ (s.run name ⟨file, e.text⟩).2.world.lists[cell]? = some #[.number (.int z)]) ∧
      (e.dividesByZero = true → ∃ error, (s.run name ⟨file, e.text⟩).1 = .error error ∧
        error.reason.info = "Division by zero")) ∧
    ∀ a b : Int, b ≠ 0 → ∃ q r, Arithmetic.Op.floorDiv.result? a b = some q ∧ Arithmetic.Op.mod.result? a b = some r ∧
      q = ((a : Rat) / (b : Rat)).floor ∧ a = q * b + r ∧ (0 < b → 0 ≤ r ∧ r < b) ∧ (b < 0 → b < r ∧ r ≤ 0) := by
  refine ⟨?_, fun a b hb => ?_⟩
  · obtain ⟨depth, hparse⟩ := e.parse_text hwritable
    refine ⟨max depth (e.depth + 1), fun s name file hreading hevaluation => ?_⟩
    obtain ⟨tree, htree, hbare⟩ := hparse s.limits file (by omega)
    obtain ⟨n, span, rfl, hn⟩ := Node.bare_eq_singleton hbare
    obtain ⟨d, hd⟩ : ∃ d, s.limits.evaluation = d + 1 := ⟨s.limits.evaluation - 1, by omega⟩
    have hcomes := e.eval_comes s.limits (Session.rootContext name) s.world hdefined hn (show e.depth ≤ d by omega)
    have hrun : s.run name ⟨file, e.text⟩ =
        s.perform (eval s.limits (d + 1) (.list [n] span) (Session.rootContext name)) := by
      rw [Session.run, htree, ← hd]
      rfl
    rw [hrun, Session.perform, eval_singleton]
    refine ⟨fun hzero => ?_, fun hzero => ?_⟩
    · cases hvalue : e.value with
      | none => simp [(e.value_eq_none_iff hdefined).1 hvalue] at hzero
      | some z =>
        rw [hvalue] at hcomes
        obtain ⟨site, hsite⟩ := hcomes
        rw [hsite]
        exact ⟨z, _, s.world.lists.size, rfl, rfl, rfl, Array.getElem?_push_size⟩
    · rw [(e.value_eq_none_iff hdefined).2 hzero] at hcomes
      obtain ⟨error, herror, hreason⟩ := hcomes
      rw [herror]
      exact ⟨error, rfl, by rw [hreason]; rfl⟩
  · have hbounds := Arithmetic.remainder_bounds a b
    refine ⟨_, _, if_neg hb, if_neg hb, rfl, ?_, hbounds.1, hbounds.2⟩
    rw [Int.add_comm, Int.sub_add_cancel]

open Arithmetic in
/-- Operands on which rounding to zero would show: the quotient is `-4` and the remainder `-1`. -/
theorem run_arithmetic_signs : ∃ depth, ∀ (s : Session) (name file : String),
    depth ≤ s.limits.reading → depth ≤ s.limits.evaluation → ∃ v cell,
      (s.run name ⟨file, "( ( - ( 7 ) ) // ( 2 ) ) + ( ( 7 ) % ( - ( 2 ) ) ) "⟩).1 = .value v ∧ v.datum = .list cell ∧
      (s.run name ⟨file, "( ( - ( 7 ) ) // ( 2 ) ) + ( ( 7 ) % ( - ( 2 ) ) ) "⟩).2.world.lists[cell]? =
        some #[.number (.int (-5))] := by
  let e := binary .add (binary .floorDiv (opposite (literal 7)) (literal 2)) (binary .mod (literal 7) (opposite (literal 2)))
  have htext : e.text = "( ( - ( 7 ) ) // ( 2 ) ) + ( ( 7 ) % ( - ( 2 ) ) ) " := by decide +kernel
  have hvalue : e.value = some (-5) := by decide +kernel
  obtain ⟨⟨depth, hrun⟩, -⟩ := run_arithmetic e (by decide +kernel) (by decide +kernel)
  refine ⟨depth, fun s name file hreading hevaluation => ?_⟩
  obtain ⟨z, v, cell, hz, hv⟩ := (hrun s name file hreading hevaluation).1 (by decide +kernel)
  obtain rfl : -5 = z := Option.some.inj (hvalue.symm.trans hz)
  rw [htext] at hv
  exact ⟨v, cell, hv⟩

end Scriptlet
