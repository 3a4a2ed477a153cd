import Scriptlet.Proofs.Display.Excerpts
import Scriptlet.Proofs.Grammar.Endings
import Scriptlet.Proofs.Scan.Order
/-!
# Where nodes stand

The ends of a node are those of tokens, but which ones depends on its form: an assignment has those of its name, a choice ends
with its last test if there is no `else`, a call with its last argument, and a list or a block with the token after it.  What
all forms have in common is `Node.Within`: a node that a production reads begins with one of its tokens, and ends with the same,
with a later one or with the token after it.  Reading goes forward through the tokens (`Lands`), so this is kept from the parts
of a node to the node (`Kept`), for each production (`body_lands`) and to any depth of nesting (`readAt_lands`).

With the tokens in order (`Scan.tokens_ordered`) every node has a span that is not empty and lies in that of its production,
though positions do not always tell the true line (`Parse.program_spans`).
-/
namespace Scriptlet

open Grammar (Cursor)

/-! ## What is shown is in order -/

theorem Span.Proper.notAfter {s : Span} (h : s.Proper) : s.start.NotAfter s.stop := ⟨Int.le_of_lt h.index, h.line⟩

namespace Scan.Ordered

variable {p : Position} {tokens : List Token} (h : Ordered p tokens) (hne : tokens ≠ [])

include h hne

omit h in
theorem getElem?_min (a : Nat) : tokens[min a (tokens.length - 1)]? = some (Cursor.shown tokens a) := by
  have hpos := List.length_pos_iff.2 hne
  rcases Nat.lt_or_ge a tokens.length with ha | ha
  · rw [Nat.min_eq_left (by omega)]
    exact Cursor.getElem?_eq_shown ha
  · rw [Nat.min_eq_right (by omega), Cursor.shown_eq_last (by omega), List.getLastD_eq_getLast?, List.getLast?_eq_getElem?,
      List.getElem?_eq_getElem (by omega)]
    rfl

/-- A token that is shown later is the same or begins after the end of the earlier. -/
theorem shown_order {a b : Nat} (hab : a ≤ b) : Cursor.shown tokens a = Cursor.shown tokens b ∨
    (Cursor.shown tokens a).span.stop.NotAfter (Cursor.shown tokens b).span.start := by
  have ha := getElem?_min hne a
  have hb := getElem?_min hne b
  rcases Nat.lt_or_eq_of_le (show min a (tokens.length - 1) ≤ min b (tokens.length - 1) by omega) with hlt | heq
  · obtain ⟨ha', hshown⟩ := List.getElem?_eq_some_iff.1 ha
    obtain ⟨hb', hshown'⟩ := List.getElem?_eq_some_iff.1 hb
    have hapart := List.pairwise_iff_getElem.1 h.apart _ _ ha' hb' hlt
    rw [hshown, hshown'] at hapart
    exact .inr hapart
  · rw [heq, hb] at ha
    exact .inl (Option.some.inj ha).symm

omit h in
theorem shown_mem (a : Nat) : Cursor.shown tokens a ∈ tokens := List.mem_of_getElem? (getElem?_min hne a)

theorem shown_proper (a : Nat) : (Cursor.shown tokens a).span.Proper := h.proper _ (shown_mem hne a)

theorem start_mono {a b : Nat} (hab : a ≤ b) :
    (Cursor.shown tokens a).span.start.NotAfter (Cursor.shown tokens b).span.start := by
  rcases h.shown_order hne hab with heq | hapart
  · rw [heq]
    exact .refl _
  · exact (h.shown_proper hne a).notAfter.trans hapart

theorem stop_mono {a b : Nat} (hab : a ≤ b) :
    (Cursor.shown tokens a).span.stop.NotAfter (Cursor.shown tokens b).span.stop := by
  rcases h.shown_order hne hab with heq | hapart
  · rw [heq]
    exact .refl _
  · exact hapart.trans (h.shown_proper hne b).notAfter

theorem start_stop {a b : Nat} (hab : a ≤ b) :
    (Span.mk (Cursor.shown tokens a).span.start (Cursor.shown tokens b).span.stop).Proper := by
  have hstart := h.start_mono hne hab
  have hproper := h.shown_proper hne b
  exact ⟨Int.lt_of_le_of_lt hstart.index hproper.index, Int.le_trans hstart.line hproper.line⟩

end Scan.Ordered

/-! ## Ends of nodes -/

/-- The first node and the operands to the left of it. -/
def Node.spine : Node → List Node
  | .binary left op right => .binary left op right :: left.spine
  | n => [n]

theorem Node.spine_subset_nodes (n : Node) : n.spine ⊆ n.nodes := by
  fun_induction Node.spine n with
  | case1 left op right ih =>
    intro m hm
    rcases List.mem_cons.1 hm with rfl | hm
    · exact List.mem_cons_self
    · exact List.mem_cons_of_mem _ (List.mem_append_left right.nodes (ih hm))
  | case2 n _ =>
    intro m hm
    cases List.mem_singleton.1 hm
    exact List.mem_cons_self

/-- The node begins with one of the tokens from `i` to `j` and ends with the same or a later one. -/
def Node.Within (tokens : List Token) (i j : Nat) (n : Node) : Prop :=
  ∃ a b, i ≤ a ∧ a ≤ b ∧ b ≤ j ∧ n.start = (Cursor.shown tokens a).span.start ∧ n.stop = (Cursor.shown tokens b).span.stop

namespace Node.Within

variable {tokens : List Token} {i j k l : Nat} {m m' n : Node}

theorem widen (h : n.Within tokens i j) (hi : k ≤ i) (hj : j ≤ l) : n.Within tokens k l := by
  obtain ⟨a, b, ha, hab, hb, hends⟩ := h
  exact ⟨a, b, by omega, hab, by omega, hends⟩

/-- From the beginning of a node to the end of a later one. -/
theorem through (h : m.Within tokens i j) (h' : m'.Within tokens k l) (hjk : j ≤ k) (hstart : n.start = m.start)
    (hstop : n.stop = m'.stop) : n.Within tokens i l := by
  obtain ⟨a, b, ha, hab, hb, hm, -⟩ := h
  obtain ⟨a', b', ha', hab', hb', -, hm'⟩ := h'
  exact ⟨a, b', ha, by omega, hb', hstart.trans hm, hstop.trans hm'⟩

theorem same (h : m.Within tokens i j) (hstart : n.start = m.start) (hstop : n.stop = m.stop) : n.Within tokens i j := by
  obtain ⟨a, b, ha, hab, hb, hm, hm'⟩ := h
  exact ⟨a, b, ha, hab, hb, hstart.trans hm, hstop.trans hm'⟩

/-- From the beginning of a token to the end of a later node. -/
theorem from_token (h : m.Within tokens i j) {a : Nat} (hk : k ≤ a) (hai : a ≤ i)
    (hstart : n.start = (Cursor.shown tokens a).span.start) (hstop : n.stop = m.stop) : n.Within tokens k j := by
  obtain ⟨a', b, ha, hab, hb, -, hm⟩ := h
  exact ⟨a, b, hk, by omega, hb, hstart, hstop.trans hm⟩

end Node.Within

theorem Node.lastStop?_mem {ns : List Node} {p : Position} (h : Node.lastStop? ns = some p) :
    ∃ n ∈ Node.allNodes ns, p = n.stop := by
  induction ns with
  | nil => cases h
  | cons n ns ih =>
    cases hlast : Node.lastStop? ns with
    | none =>
      rw [Node.lastStop?, hlast] at h
      cases h
      exact ⟨n, List.mem_cons_self, rfl⟩
    | some q =>
      rw [Node.lastStop?, hlast] at h
      cases h
      obtain ⟨m, hm, hstop⟩ := ih hlast
      exact ⟨m, List.mem_cons_of_mem n (List.mem_append_right n.inner hm), hstop⟩

theorem Node.lastCaseStop?_mem {cs : List Case} {p : Position} (h : Node.lastCaseStop? cs = some p) :
    ∃ n ∈ Case.allNodes cs, p = n.stop := by
  induction cs with
  | nil => cases h
  | cons c cs ih =>
    cases hlast : Node.lastCaseStop? cs with
    | none =>
      rw [Node.lastCaseStop?, hlast] at h
      cases h
      obtain ⟨test, body⟩ := c
      exact ⟨test, List.mem_cons_self, rfl⟩
    | some q =>
      rw [Node.lastCaseStop?, hlast] at h
      cases h
      obtain ⟨m, hm, hstop⟩ := ih hlast
      exact ⟨m, List.mem_append_right c.nodes hm, hstop⟩

theorem Body.node_mem_nodes (b : Body) : b.node ∈ b.nodes := by
  cases b <;> exact List.mem_cons_self

theorem Node.bodyStop_eq (b : Body) : Node.bodyStop b = b.node.stop := by cases b <;> rfl
theorem Node.bodyStart_eq (b : Body) : Node.bodyStart b = b.node.start := by cases b <;> rfl

/-- A choice ends with its first test or with something that follows. -/
theorem Node.choice_stop (first : Case) (more : List Case) (otherwise : Option Body) :
    (Node.choice first more otherwise).stop = first.test.stop ∨
    ∃ n ∈ Case.allNodes more ++ Body.optionNodes otherwise, (Node.choice first more otherwise).stop = n.stop := by
  cases otherwise with
  | some body => exact .inr ⟨body.node, List.mem_append_right _ body.node_mem_nodes, Node.bodyStop_eq body⟩
  | none =>
    rw [Node.stop]
    cases hlast : Node.lastCaseStop? more with
    | none =>
      obtain ⟨test, body⟩ := first
      exact .inl rfl
    | some p =>
      obtain ⟨n, hn, hstop⟩ := Node.lastCaseStop?_mem hlast
      exact .inr ⟨n, List.mem_append_left _ hn, hstop⟩

namespace Grammar

open Production Reading

/-! ## Which production makes a node -/

namespace Production

/-- The operators that a production joins its operands with. -/
def joins : Production → Lexeme → Bool
  | expression => joinsConditions
  | comparison => joinsComparands
  | sum => joinsTerms
  | product => joinsFactors
  | power => (·.isSymbol .power)
  | _ => fun _ => false

/-- The production puts together nodes like this one. -/
def builds (p : Production) : Node → Bool
  | .number _ _ | .string _ _ | .access _ => p = atom
  | .list _ _ => p = statements ∨ p = list
  | .assign _ _ => p = expression
  | .binary _ op _ => p.joins op
  | .unary op _ => (p = comparison && op.lexeme.isKeyword .not) || (p = factor && op.lexeme.isSymbol .minus)
  | .choice _ _ _ => p = choice
  | .count _ _ _ _ _ => p = count
  | .loop _ _ => p = loop
  | .function _ _ _ => p = function
  | .call _ _ => p = call
  | .lone _ => false

/-- The nodes of a result. -/
def nodes : (p : Production) → p.Result → List Node
  | statements, block => block.node.nodes
  | elifChoice, c => c.node.inner
  | otherwise, body => Body.optionNodes body
  | choiceTail, tail => Case.allNodes tail.cases ++ Body.optionNodes tail.otherwise
  | expression, n | comparison, n | sum, n | product, n | factor, n | power, n | call, n | atom, n | list, n | choice, n
  | count, n | loop, n | function, n => Node.nodes n

/-- The nodes of a result that the production may have put together itself. -/
def heads : (p : Production) → p.Result → List Node
  | statements, block => [block.node]
  | elifChoice, _ | otherwise, _ | choiceTail, _ => []
  | expression, n | comparison, n | sum, n | product, n | factor, n | power, n | call, n | atom, n | list, n | choice, n
  | count, n | loop, n | function, n => Node.spine n

theorem heads_subset_nodes (p : Production) (r : p.Result) : p.heads r ⊆ p.nodes r := by
  cases p with
  | statements =>
    intro n hn
    cases List.mem_singleton.1 hn
    exact List.mem_cons_self
  | elifChoice | otherwise | choiceTail => exact List.nil_subset _
  | _ => exact Node.spine_subset_nodes r

/-- The production has put the node together for its result. -/
def Makes (p : Production) (r : p.Result) (n : Node) : Prop := n ∈ p.heads r ∧ p.builds n = true

end Production

/-! ## The rules -/

/-- From the token of number `i` the reading comes to a later one or stays there, such that `Q` holds of its result and of the
number of that token. -/
def Lands {α : Type} (tokens : List Token) (i : Nat) (r : Reading α) (Q : α → Nat → Prop) : Prop :=
  ∀ ⦃a : α⦄ ⦃c' : Cursor⦄, Reads r (.on tokens i) a c' → ∃ j, c' = .on tokens j ∧ i ≤ j ∧ Q a j

namespace Lands

variable {α β σ : Type} {tokens : List Token} {i : Nat} {Q : α → Nat → Prop}

theorem pure {a : α} (h : Q a i) : Lands tokens i (Pure.pure a : Reading α) Q := by
  intro b c' hb
  obtain ⟨rfl, rfl⟩ := reads_pure.1 hb
  exact ⟨i, rfl, Nat.le_refl i, h⟩

theorem bind {r : Reading β} {f : β → Reading α} {P : β → Nat → Prop} (hr : Lands tokens i r P)
    (hf : ∀ b j, i ≤ j → P b j → Lands tokens j (f b) Q) : Lands tokens i (r >>= f) Q := by
  intro a c' ha
  obtain ⟨b, c₁, hb, ha⟩ := reads_bind.1 ha
  obtain ⟨j, rfl, hij, hP⟩ := hr hb
  obtain ⟨k, rfl, hjk, hQ⟩ := hf b j hij hP ha
  exact ⟨k, rfl, Nat.le_trans hij hjk, hQ⟩

theorem imp {r : Reading α} {P : α → Nat → Prop} (hr : Lands tokens i r P) (h : ∀ a j, i ≤ j → P a j → Q a j) :
    Lands tokens i r Q := by
  intro a c' ha
  obtain ⟨j, hc, hij, hP⟩ := hr ha
  exact ⟨j, hc, hij, h a j hij hP⟩

theorem lexeme_bind {f : Lexeme → Reading α} (h : Lands tokens i (f (Cursor.shown tokens i).lexeme) Q) :
    Lands tokens i (lexeme >>= f) Q :=
  fun _ _ ha => h (reads_lexeme_bind.1 ha)

theorem current_bind {f : Token → Reading α} (h : Lands tokens i (f (Cursor.shown tokens i)) Q) :
    Lands tokens i (current >>= f) Q :=
  fun _ _ ha => h (reads_current_bind.1 ha)

theorem ite {p : Prop} [Decidable p] {r s : Reading α} (hr : p → Lands tokens i r Q) (hs : ¬ p → Lands tokens i s Q) :
    Lands tokens i (if p then r else s) Q := by
  split
  · next hp => exact hr hp
  · next hp => exact hs hp

theorem fail (e : Expected) : Lands tokens i (Reading.fail e : Reading α) Q :=
  fun _ _ ha => (reads_fail.1 ha).elim

theorem relabel {e : Expected} {r : Reading α} (hr : Lands tokens i r Q) : Lands tokens i (r.relabel e) Q :=
  fun _ _ ha => hr (reads_relabel.1 ha)

theorem take_bind {f : Unit → Reading α} (h : Lands tokens (i + 1) (f ()) Q) : Lands tokens i (take >>= f) Q := by
  intro a c' ha
  rw [reads_take_bind, Cursor.next_on] at ha
  obtain ⟨j, hc, hij, hQ⟩ := h ha
  exact ⟨j, hc, by omega, hQ⟩

theorem expectKeyword_bind {k : Keyword} {f : Unit → Reading α} (h : Lands tokens (i + 1) (f ()) Q) :
    Lands tokens i (expectKeyword k >>= f) Q := by
  intro a c' ha
  rw [reads_expectKeyword_bind] at ha
  exact take_bind h (reads_take_bind.2 ha.2)

theorem expectSymbol_bind {s : Symbol} {e : Expected} {f : Unit → Reading α} (h : Lands tokens (i + 1) (f ()) Q) :
    Lands tokens i (expectSymbol s e >>= f) Q := by
  intro a c' ha
  rw [reads_expectSymbol_bind] at ha
  exact take_bind h (reads_take_bind.2 ha.2)

theorem expectName (e : Expected) : Lands tokens i (Reading.expectName e) fun name j =>
    name.span = (Cursor.shown tokens i).span ∧ j = i + 1 := by
  intro name c' h
  obtain ⟨-, hspan, rfl⟩ := reads_expectName.1 h
  exact ⟨i + 1, Cursor.next_on tokens i, Nat.le_succ i, hspan, rfl⟩

/-- What is tried is read, or nothing is taken. -/
theorem attempt {r : Reading α} {φ : Position → Position} {g : α → β} {r' : Reading β} (hsteady : Follows False φ g r r')
    (ht : tokens ≠ []) (hr : Lands tokens i r Q) : Lands tokens i r.attempt fun t j => ∀ a, t = .read a → Q a j := by
  intro t c' h
  rcases (reads_attempt hsteady ht).1 h with ⟨a, rfl, ha⟩ | ⟨e, span, rfl, _, rfl⟩
  · obtain ⟨j, hc, hij, hQ⟩ := hr ha
    refine ⟨j, hc, hij, fun b hb => ?_⟩
    cases hb
    exact hQ
  · refine ⟨i, rfl, Nat.le_refl i, fun a ha => ?_⟩
    cases ha

/-- What holds of the state in a round and after it holds at the end. -/
theorem repeating {step : σ → Reading (Option σ)} {I : σ → Nat → Prop}
    (hstep : ∀ i s, I s i → Lands tokens i (step s) fun o j => I (o.getD s) j) {s : σ} (hs : I s i) :
    Lands tokens i (Reading.repeating step s) I := by
  suffices hrounds : ∀ fuel i s, I s i → Lands tokens i (rounds step fuel s) I from fun _ _ ha => hrounds _ i s hs ha
  intro fuel
  induction fuel with
  | zero => exact fun i s hs => .pure hs
  | succ fuel ih =>
    refine fun i s hs => .bind (hstep i s hs) fun o j _ ho => ?_
    cases o with
    | none => exact .pure ho
    | some t => exact ih j t ho

theorem newlines : Lands tokens i Reading.newlines fun _ _ => True := by
  refine .repeating (fun _ _ _ => .lexeme_bind (.ite (fun _ => ?_) fun _ => .pure trivial)) trivial
  exact .take_bind (.pure trivial)

/-- Each item of a row divided by commas is somewhere between its ends. -/
theorem commaSeparated {item : Reading α} {P : Nat → Nat → α → Prop}
    (hmono : ∀ {i j k l a}, P i j a → k ≤ i → j ≤ l → P k l a) (hitem : ∀ i, Lands tokens i item fun a j => P i j a) :
    Lands tokens i (Reading.commaSeparated item) fun as j => ∀ a ∈ as, P i j a := by
  refine (hitem i).bind fun a j hij ha => ?_
  refine .bind (P := fun items k => i ≤ k ∧ ∀ a ∈ items, P i k a) (.repeating (fun k items hk => ?_) ⟨hij, ?_⟩)
    fun items k _ h => .pure fun a ha => h.2 a (List.mem_reverse.1 ha)
  · refine .lexeme_bind (.ite (fun _ => .take_bind ?_) fun _ => .pure hk)
    refine (hitem (k + 1)).bind fun b l hkl hb => .pure ⟨by omega, List.forall_mem_cons.2 ⟨?_, fun a ha => ?_⟩⟩
    · exact hmono hb (by omega) (Nat.le_refl l)
    · exact hmono (hk.2 a ha) (Nat.le_refl i) (by omega)
  · rw [List.forall_mem_singleton]
    exact ha

end Lands

/-- Each of the nodes is somewhere from the token `i` to the token `j`, and is made. -/
def Kept (tokens : List Token) (made : Node → Prop) (i j : Nat) (ns : List Node) : Prop :=
  ∀ n ∈ ns, n.Within tokens i j ∧ made n

namespace Kept

variable {tokens : List Token} {made made' : Node → Prop} {i j k l : Nat} {n : Node} {ms ns : List Node}

theorem nil : Kept tokens made i j [] := by simp [Kept]

theorem widen (h : Kept tokens made i j ns) (hi : k ≤ i) (hj : j ≤ l) : Kept tokens made k l ns :=
  fun n hn => ⟨(h n hn).1.widen hi hj, (h n hn).2⟩

theorem imp (h : Kept tokens made i j ns) (hmade : ∀ n, made n → made' n) : Kept tokens made' i j ns :=
  fun n hn => ⟨(h n hn).1, hmade n (h n hn).2⟩

theorem append (h : Kept tokens made i j ms) (h' : Kept tokens made i j ns) : Kept tokens made i j (ms ++ ns) :=
  List.forall_mem_append.2 ⟨h, h'⟩

theorem all (h : ∀ n ∈ ns, Kept tokens made i j n.nodes) : Kept tokens made i j (Node.allNodes ns) := by
  induction ns with
  | nil => exact nil
  | cons n ns ih =>
    obtain ⟨hn, hns⟩ := List.forall_mem_cons.1 h
    exact hn.append (ih hns)

/-- A node that is put together of parts that are kept. -/
theorem node (h : Kept tokens made i j n.inner) (hn : n.Within tokens i j) {p : Production} {r : p.Result}
    (hmakes : p.Makes r n) : Kept tokens (fun m => made m ∨ p.Makes r m) i j n.nodes :=
  List.forall_mem_cons.2 ⟨⟨hn, .inr hmakes⟩, h.imp fun _ => .inl⟩

/-- An operator before its operand. -/
theorem unary {operand : Node} {p : Production} (h : Kept tokens made (i + 1) j operand.nodes)
    (hbuilds : p.builds (.unary (Cursor.shown tokens i) operand) = true) :
    Kept tokens (fun m => made m ∨ m ∈ (Node.unary (Cursor.shown tokens i) operand).spine ∧ p.builds m = true) i j
      (Node.unary (Cursor.shown tokens i) operand).nodes := by
  have hnode : (Node.unary (Cursor.shown tokens i) operand).Within tokens i j :=
    (h operand List.mem_cons_self).1.from_token (Nat.le_refl i) (Nat.le_succ i) rfl rfl
  have hinner := (h.widen (Nat.le_succ i) (Nat.le_refl j)).imp fun m hm =>
    Or.inl (b := m ∈ (Node.unary (Cursor.shown tokens i) operand).spine ∧ p.builds m = true) hm
  exact List.forall_mem_cons.2 ⟨⟨hnode, .inr ⟨List.mem_singleton.2 rfl, hbuilds⟩⟩, hinner⟩

/-- An operand more on the right. -/
theorem binary {left right : Node} {op : Lexeme} {p : Production}
    (hleft : Kept tokens (fun m => made m ∨ m ∈ left.spine ∧ p.builds m = true) i j left.nodes)
    (hright : Kept tokens made k l right.nodes) (hij : i ≤ j) (hjk : j ≤ k) (hkl : k ≤ l) (hop : p.joins op = true) :
    Kept tokens (fun m => made m ∨ m ∈ (Node.binary left op right).spine ∧ p.builds m = true) i l
      (Node.binary left op right).nodes := by
  have hnode : (Node.binary left op right).Within tokens i l :=
    (hleft left List.mem_cons_self).1.through (hright right List.mem_cons_self).1 hjk rfl rfl
  have hleft : Kept tokens (fun m => made m ∨ m ∈ (Node.binary left op right).spine ∧ p.builds m = true) i l left.nodes := by
    -- what was at the top before is an operand to the left of the new top
    refine (hleft.widen (Nat.le_refl i) (by omega)).imp fun m hm => hm.imp_right fun h => ?_
    exact ⟨List.mem_cons_of_mem _ h.1, h.2⟩
  have hright := (hright.widen (show i ≤ k by omega) (Nat.le_refl l)).imp
    fun m hm => Or.inl (b := m ∈ (Node.binary left op right).spine ∧ p.builds m = true) hm
  exact List.forall_mem_cons.2 ⟨⟨hnode, .inr ⟨List.mem_cons_self, hop⟩⟩, hleft.append hright⟩

end Kept

/-- The nodes of the result are between its ends, and each is made, or put together for this result. -/
def Production.Placed (p : Production) (tokens : List Token) (made : Node → Prop) (i : Nat) (r : p.Result) (j : Nat) : Prop :=
  Kept tokens (fun m => made m ∨ p.Makes r m) i j (p.nodes r)

/-! ## The forms -/

section Forms

variable {tokens : List Token} {made : Node → Prop} {read : (p : Production) → Reading p.Result}
  (hread : ∀ p i, Lands tokens i (read p) fun r j => Kept tokens made i j (p.nodes r))

include hread

omit hread in
/-- Operands and the operators between them. -/
theorem nodeChain_lands (p : Production) {operand further : Reading Node} {i : Nat}
    (ho : Lands tokens i operand fun n j => Kept tokens made i j n.nodes)
    (hf : ∀ i, Lands tokens i further fun n j => Kept tokens made i j n.nodes) :
    Lands tokens i (chain operand further p.joins) fun n j =>
      Kept tokens (fun m => made m ∨ m ∈ n.spine ∧ p.builds m = true) i j n.nodes := by
  refine ho.bind fun first j hij hfirst => ?_
  refine (Lands.repeating (I := fun n j => i ≤ j ∧
    Kept tokens (fun m => made m ∨ m ∈ n.spine ∧ p.builds m = true) i j n.nodes) (fun k left hk => ?_)
    ⟨hij, hfirst.imp fun _ => .inl⟩).imp fun _ _ _ h => h.2
  refine .lexeme_bind (.ite (fun hjoins => .take_bind ?_) fun _ => .pure hk)
  obtain ⟨hik, hleft⟩ := hk
  refine (hf (k + 1)).bind fun right l hkl hright => .pure ⟨by omega, ?_⟩
  exact hleft.binary hright hik (Nat.le_succ k) hkl hjoins

theorem itemRow_lands (i : Nat) : Lands tokens i (commaSeparated (read .expression)) fun ns j =>
    Kept tokens made i j (Node.allNodes ns) := by
  refine (Lands.commaSeparated (P := fun i j (n : Node) => Kept tokens made i j n.nodes) (fun h hi hj => h.widen hi hj)
    (hread .expression)).imp fun ns j _ h => .all h

theorem statementsForm_lands (ht : tokens ≠ []) {φ : Position → Position} {g : Node → Node} {r' : Reading Node}
    (hback : Follows False φ g (read .expression) r') (i : Nat) :
    Lands tokens i (statementsForm read) (statements.Placed tokens made i) := by
  refine .current_bind (.bind .newlines fun _ j hij _ => (hread .expression j).bind fun first k hjk hfirst => ?_)
  refine .bind (P := fun s l => i ≤ l ∧ ∀ n ∈ s.items, Kept tokens made i l n.nodes) (.repeating (fun l s hs => ?_) ?_)
    fun row l _ hrow => .current_bind (.pure ?_)
  · refine .bind .newlines fun _ l' hl _ => ?_
    have hitems : ∀ m, l' ≤ m → ∀ n ∈ s.items, Kept tokens made i m n.nodes :=
      fun m hm n hn => (hs.2 n hn).widen (Nat.le_refl i) (by omega)
    refine .ite (fun _ => .pure ⟨by omega, hitems l' (Nat.le_refl l')⟩) fun _ => ?_
    refine .bind (.attempt hback ht (hread .expression l')) fun t m hm h => ?_
    cases t with
    | read n => exact .pure ⟨by omega, List.forall_mem_cons.2 ⟨(h n rfl).widen (by omega) (Nat.le_refl m), hitems m hm⟩⟩
    | handedBack taken => exact .pure ⟨by omega, hitems m hm⟩
  · exact ⟨by omega, List.forall_mem_singleton.2 (hfirst.widen hij (Nat.le_refl k))⟩
  · refine Kept.node (.all fun n hn => hrow.2 n (List.mem_reverse.1 hn)) ?_ ⟨List.mem_singleton.2 rfl, rfl⟩
    exact ⟨i, l, Nat.le_refl i, hrow.1, Nat.le_refl l, rfl, rfl⟩

theorem expressionForm_lands (i : Nat) : Lands tokens i (expressionForm read) (expression.Placed tokens made i) := by
  refine .lexeme_bind (.ite (fun _ => .take_bind (.bind (.expectName _) fun name j hij hname => .expectSymbol_bind ?_))
    fun _ => .relabel (nodeChain_lands .expression (hread .comparison i) (hread .comparison)))
  obtain ⟨hspan, rfl⟩ := hname
  refine (hread .expression _).bind fun value k hk hvalue => .pure ?_
  refine Kept.node (hvalue.widen (by omega) (Nat.le_refl k)) ?_ ⟨List.mem_singleton.2 rfl, rfl⟩
  exact ⟨i + 1, i + 1, by omega, Nat.le_refl _, by omega, congrArg Span.start hspan, congrArg Span.stop hspan⟩

theorem comparisonForm_lands (i : Nat) : Lands tokens i (comparisonForm read) (comparison.Placed tokens made i) := by
  refine .current_bind (.ite (fun hnot => .take_bind ?_)
    fun _ => .relabel (nodeChain_lands .comparison (hread .sum i) (hread .sum)))
  refine (hread .comparison _).bind fun operand k hk hoperand => .pure (hoperand.unary ?_)
  simp [builds, hnot]

theorem factorForm_lands (i : Nat) : Lands tokens i (factorForm read) (factor.Placed tokens made i) := by
  refine .current_bind (.ite (fun hminus => .take_bind ?_) fun _ => (hread .power i).imp fun n j _ h => h.imp fun _ => .inl)
  refine (hread .factor _).bind fun operand k hk hoperand => .pure (hoperand.unary ?_)
  simp [builds, hminus]

theorem argumentsForm_lands (i : Nat) : Lands tokens i (argumentsForm read) fun ns j =>
    Kept tokens made i j (Node.allNodes ns) := by
  refine .lexeme_bind (.ite (fun _ => .take_bind (.pure .nil)) fun _ => ?_)
  refine (itemRow_lands hread i).bind fun ns j _ h => .expectSymbol_bind (.pure ?_)
  exact h.widen (Nat.le_refl i) (Nat.le_succ j)

theorem callForm_lands (i : Nat) : Lands tokens i (callForm read) (call.Placed tokens made i) := by
  refine (hread .atom i).bind fun callee j hij hcallee => .lexeme_bind (.ite (fun _ => .take_bind ?_) fun _ => .pure ?_)
  · refine (argumentsForm_lands hread (j + 1)).bind fun ns k hk hns => .pure ?_
    have hcallee' := hcallee.widen (Nat.le_refl i) (show j ≤ k by omega)
    refine Kept.node (hcallee'.append (hns.widen (by omega) (Nat.le_refl k))) ?_ ⟨List.mem_singleton.2 rfl, rfl⟩
    cases hlast : Node.lastStop? ns with
    | none =>
      refine (hcallee' callee List.mem_cons_self).1.same rfl ?_
      rw [Node.stop, hlast]
    | some p =>
      obtain ⟨n, hn, hstop⟩ := Node.lastStop?_mem hlast
      refine (hcallee callee List.mem_cons_self).1.through (hns n hn).1 (Nat.le_succ j) rfl ?_
      rw [Node.stop, hlast]
      exact hstop
  · exact hcallee.imp fun _ => .inl

theorem atomForm_lands (i : Nat) : Lands tokens i (atomForm read) (atom.Placed tokens made i) := by
  -- the node of a single token
  have hleaf : ∀ {n : Node}, n.inner = [] → n.start = (Cursor.shown tokens i).span.start →
      n.stop = (Cursor.shown tokens i).span.stop → atom.Makes n n → atom.Placed tokens made i n (i + 1) := by
    intro n hinner hstart hstop hmakes
    refine Kept.node ?_ ⟨i, i, Nat.le_refl i, Nat.le_refl i, Nat.le_succ i, hstart, hstop⟩ hmakes
    rw [hinner]
    exact .nil
  have hpass : ∀ {n : Node} {j : Nat}, Kept tokens made i j n.nodes → atom.Placed tokens made i n j :=
    fun h => h.imp fun _ => .inl
  refine .current_bind ?_
  generalize (Cursor.shown tokens i).lexeme = l
  split
  · exact .take_bind (.pure (hleaf rfl rfl rfl ⟨List.mem_singleton.2 rfl, rfl⟩))
  · exact .take_bind (.pure (hleaf rfl rfl rfl ⟨List.mem_singleton.2 rfl, rfl⟩))
  · exact .take_bind (.pure (hleaf rfl rfl rfl ⟨List.mem_singleton.2 rfl, rfl⟩))
  · refine .take_bind ((hread .expression _).bind fun n j hj h => .expectSymbol_bind (.pure (hpass ?_)))
    exact h.widen (by omega) (Nat.le_succ j)
  · exact (hread .list i).imp fun _ _ _ => hpass
  · exact (hread .choice i).imp fun _ _ _ => hpass
  · exact (hread .count i).imp fun _ _ _ => hpass
  · exact (hread .loop i).imp fun _ _ _ => hpass
  · exact (hread .function i).imp fun _ _ _ => hpass
  · exact .fail _

theorem listForm_lands (i : Nat) : Lands tokens i (listForm read) (list.Placed tokens made i) := by
  -- the list reaches to the token after it
  have hlist : ∀ {items : List Node} {j : Nat}, i ≤ j → Kept tokens made i j (Node.allNodes items) →
      Lands tokens j (do return .list items ⟨(Cursor.shown tokens i).span.start, (← current).span.stop⟩)
        (list.Placed tokens made i) := by
    intro items j hij h
    refine .current_bind (.pure (Kept.node (n := .list items _) h ?_ ⟨List.mem_singleton.2 rfl, rfl⟩))
    exact ⟨i, j, Nat.le_refl i, hij, Nat.le_refl j, rfl, rfl⟩
  refine .current_bind (.expectSymbol_bind (.lexeme_bind (.ite (fun _ => .take_bind ?_) fun _ => ?_)))
  · refine .bind (P := fun items j => items = []) (.pure rfl) ?_
    rintro _ j hj rfl
    exact hlist (by omega) .nil
  · refine (itemRow_lands hread _).bind fun items j hj h => .expectSymbol_bind ?_
    refine .bind (P := fun items' j' => items' = items ∧ j' = j + 1) (.pure ⟨rfl, rfl⟩) ?_
    rintro _ _ _ ⟨rfl, rfl⟩
    exact hlist (by omega) (h.widen (by omega) (Nat.le_succ j))

theorem closedBlock_lands (i : Nat) : Lands tokens i (closedBlock read) fun body j => Kept tokens made i j body.nodes := by
  refine .take_bind ((hread .statements _).bind fun block j hj h => .expectKeyword_bind (.pure ?_))
  exact h.widen (Nat.le_succ i) (Nat.le_succ j)

theorem bodyForm_lands (i : Nat) : Lands tokens i (bodyForm read) fun body j => Kept tokens made i j body.nodes :=
  .lexeme_bind (.ite (fun _ => closedBlock_lands hread i) fun _ => (hread .expression i).bind fun _ _ _ h => .pure h)

omit hread in
/-- A choice goes from its first test to its last, or to the end of the body after `else`. -/
theorem Kept.choice {test : Node} {body : Body} {tail : ChoiceTail} {i j k l m : Nat} (htest : Kept tokens made i j test.nodes)
    (hbody : Kept tokens made k l body.nodes) (htail : Kept tokens made l m (choiceTail.nodes tail)) (hij : i ≤ j) (hjk : j ≤ k)
    (hkl : k ≤ l) (hlm : l ≤ m) : Kept tokens made i m (Choice.node ⟨.mk test body, tail⟩).inner ∧
      (Choice.node ⟨.mk test body, tail⟩).Within tokens i m := by
  have htest' := htest.widen (Nat.le_refl i) (show j ≤ m by omega)
  have hcase := htest'.append (hbody.widen (show i ≤ k by omega) hlm)
  refine ⟨hcase.append (htail.widen (by omega) (Nat.le_refl m)), ?_⟩
  rcases Node.choice_stop (.mk test body) tail.cases tail.otherwise with hstop | ⟨n, hn, hstop⟩
  · exact (htest' test List.mem_cons_self).1.same rfl hstop
  · exact (htest test List.mem_cons_self).1.through (htail n hn).1 (by omega) rfl hstop

theorem choiceFrom_lands (k : Keyword) (i : Nat) : Lands tokens i (choiceFrom read k) fun c j =>
    Kept tokens made i j c.node.inner ∧ c.node.Within tokens i j := by
  refine .expectKeyword_bind ((hread .expression _).bind fun test j hj htest => .expectKeyword_bind ?_)
  have htest := htest.widen (Nat.le_succ i) (Nat.le_refl j)
  have hij : i ≤ j := by omega
  refine .lexeme_bind (.ite (fun _ => .take_bind ?_) fun _ => ?_)
  · refine (hread .statements _).bind fun block l hl hblock => ?_
    have hbody : Kept tokens made (j + 1 + 1) l (Body.block block.node).nodes := hblock
    refine .lexeme_bind (.ite (fun _ => .take_bind (.pure ?_)) fun _ => ?_)
    · exact htest.choice (hbody.widen (Nat.le_refl _) (Nat.le_succ l)) .nil hij (by omega) (by omega) (Nat.le_refl _)
    · refine (hread .choiceTail l).bind fun tail m hm htail => .pure ?_
      exact htest.choice hbody htail hij (by omega) hl hm
  · refine (hread .expression _).bind fun value l hl hvalue => (hread .choiceTail l).bind fun tail m hm htail => .pure ?_
    have hbody : Kept tokens made (j + 1) l (Body.inline value).nodes := hvalue
    exact htest.choice hbody htail hij (Nat.le_succ j) hl hm

theorem otherwiseForm_lands (i : Nat) : Lands tokens i (otherwiseForm read) (otherwise.Placed tokens made i) := by
  refine .lexeme_bind (.ite (fun _ => .take_bind ?_) fun _ => .pure .nil)
  refine (bodyForm_lands hread _).bind fun body j hj h => .pure ?_
  exact (h.widen (Nat.le_succ i) (Nat.le_refl j)).imp fun _ => .inl

theorem choiceTailForm_lands (i : Nat) : Lands tokens i (choiceTailForm read) (choiceTail.Placed tokens made i) := by
  refine .lexeme_bind (.ite (fun _ => ?_) fun _ => ?_)
  · refine (hread .elifChoice i).bind fun c j hj h => .pure ?_
    show Kept tokens _ i j ((c.first.nodes ++ Case.allNodes c.tail.cases) ++ Body.optionNodes c.tail.otherwise)
    rw [List.append_assoc]
    exact h.imp fun _ => .inl
  · exact (hread .otherwise i).bind fun body j hj h => .pure (h.imp fun _ => .inl)

theorem countForm_lands (i : Nat) : Lands tokens i (countForm read) (count.Placed tokens made i) := by
  refine .expectKeyword_bind (.bind (.expectName _) fun name j hij hname => .expectSymbol_bind ?_)
  obtain ⟨hspan, rfl⟩ := hname
  refine (hread .expression _).bind fun first j hj hfirst => .expectKeyword_bind ?_
  refine (hread .expression _).bind fun last k hk hlast => .lexeme_bind ?_
  -- what follows the step is the same whether there is one or not
  have hrest : ∀ {l : Nat} (step : Option Node), k ≤ l → Kept tokens made i l (Node.optionNodes step) → Lands tokens l (do
      expectKeyword .do_
      return .count name first last step (← bodyForm read)) (count.Placed tokens made i) := by
    intro l step hkl hstep
    refine .expectKeyword_bind ((bodyForm_lands hread _).bind fun body m hm hbody => .pure ?_)
    have hinner := (hfirst.widen (show i ≤ i + 1 + 1 + 1 by omega) (show j ≤ m by omega)).append
      ((hlast.widen (show i ≤ j + 1 by omega) (show k ≤ m by omega)).append
        ((hstep.widen (Nat.le_refl i) (show l ≤ m by omega)).append (hbody.widen (show i ≤ l + 1 by omega) (Nat.le_refl m))))
    refine Kept.node (n := .count name first last step body) hinner ?_ ⟨List.mem_singleton.2 rfl, rfl⟩
    have hwithin := (hbody _ body.node_mem_nodes).1
    exact hwithin.from_token (Nat.le_succ i) (by omega) (congrArg Span.start hspan) (Node.bodyStop_eq body)
  refine .ite (fun _ => .take_bind ?_) fun _ => .bind (P := fun step _ => step = none) (.pure rfl) ?_
  · refine (hread .expression _).bind fun step l hl hstep => ?_
    refine .bind (P := fun s m => s = some step ∧ m = l) (.pure ⟨rfl, rfl⟩) ?_
    rintro _ _ _ ⟨rfl, rfl⟩
    exact hrest (some step) (by omega) (hstep.widen (by omega) (Nat.le_refl _))
  · rintro _ l hl rfl
    exact hrest none hl .nil

omit hread in
theorem parametersForm_lands (i : Nat) : Lands tokens i parametersForm fun parameters j =>
    ∀ name ∈ parameters, ∃ a, i ≤ a ∧ a ≤ j ∧ name.span = (Cursor.shown tokens a).span := by
  refine .lexeme_bind ?_
  split
  · refine .bind (.commaSeparated (P := fun i j (name : Name) => ∃ a, i ≤ a ∧ a ≤ j ∧ name.span = (Cursor.shown tokens a).span)
      ?_ fun i => ?_) fun parameters j hj h => .expectSymbol_bind (.pure ?_)
    · rintro i j k l name ⟨a, ha, ha', hspan⟩ hi hj
      exact ⟨a, by omega, by omega, hspan⟩
    · refine (Lands.expectName _).imp fun name j hj h => ⟨i, Nat.le_refl i, hj, h.1⟩
    · intro name hname
      obtain ⟨a, ha, ha', hspan⟩ := h name hname
      exact ⟨a, ha, by omega, hspan⟩
  · refine .expectSymbol_bind (.pure fun name hname => ?_)
    cases hname

/-- A function begins with its name, with its first parameter or with its body. -/
theorem functionRest_lands {name : Option Name} {i j : Nat} (hij : i ≤ j)
    (hname : ∀ x, name = some x → ∃ a, i ≤ a ∧ a ≤ j ∧ x.span = (Cursor.shown tokens a).span) :
    Lands tokens j (functionRest read name) (function.Placed tokens made i) := by
  refine (parametersForm_lands j).bind fun parameters k hk hparameters => ?_
  have hfunction : ∀ {body : Body} {l : Nat}, k ≤ l → Kept tokens made k l body.nodes →
      function.Placed tokens made i (.function name parameters body) l := by
    intro body l hkl hbody
    have hinner := hbody.widen (show i ≤ k by omega) (Nat.le_refl l)
    refine Kept.node (n := .function name parameters body) hinner ?_ ⟨List.mem_singleton.2 rfl, rfl⟩
    have hwithin := (hbody _ body.node_mem_nodes).1
    have hstop := Node.bodyStop_eq body
    cases name with
    | some x =>
      obtain ⟨a, ha, ha', hspan⟩ := hname x rfl
      exact hwithin.from_token ha (by omega) (congrArg Span.start hspan) hstop
    | none =>
      cases parameters with
      | cons x parameters =>
        obtain ⟨a, ha, ha', hspan⟩ := hparameters x List.mem_cons_self
        exact hwithin.from_token (by omega) (by omega) (congrArg Span.start hspan) hstop
      | nil => exact (hwithin.widen (by omega) (Nat.le_refl l)).same (Node.bodyStart_eq body) hstop
  refine .lexeme_bind (.ite (fun _ => .take_bind ?_) fun _ => .lexeme_bind (.ite (fun _ => ?_) fun _ => .fail _))
  · exact (hread .expression _).bind fun value l hl h => .pure (hfunction (by omega) (h.widen (Nat.le_succ k) (Nat.le_refl l)))
  · exact (closedBlock_lands hread k).bind fun body l hl h => .pure (hfunction hl h)

theorem functionForm_lands (i : Nat) : Lands tokens i (functionForm read) (function.Placed tokens made i) := by
  refine .expectKeyword_bind (.lexeme_bind ?_)
  split
  · refine .bind (.expectName _) fun x j hj hx => .expectSymbol_bind (.bind (P := fun name _ => name = some x) (.pure rfl) ?_)
    rintro _ k hk rfl
    refine functionRest_lands hread (by omega) ?_
    rintro _ ⟨⟩
    exact ⟨i + 1, Nat.le_succ i, by omega, hx.1⟩
  · refine .expectSymbol_bind (.bind (P := fun name _ => name = none) (.pure rfl) ?_)
    rintro _ k hk rfl
    refine functionRest_lands hread (by omega) ?_
    rintro _ ⟨⟩

theorem body_lands (ht : tokens ≠ []) {named : Prop} (hrefuses : Refuses named (read .expression)) {φ : Position → Position}
    {g : Node → Node} {r' : Reading Node} (hback : Follows False φ g (read .expression) r') (i : Nat) :
    ∀ p : Production, Lands tokens i (body read p) (p.Placed tokens made i)
  | .statements => statementsForm_lands hread ht hback i
  | .expression => expressionForm_lands hread i
  | .comparison => comparisonForm_lands hread i
  | .sum => nodeChain_lands .sum (hread .product i) (hread .product)
  | .product => nodeChain_lands .product (hread .factor i) (hread .factor)
  | .factor => factorForm_lands hread i
  | .power => nodeChain_lands .power (hread .call i) (hread .factor)
  | .call => callForm_lands hread i
  | .atom => atomForm_lands hread i
  | .list => listForm_lands hread i
  | .choice => (choiceFrom_lands hread .if_ i).bind fun _ _ _ h => .pure (h.1.node h.2 ⟨List.mem_singleton.2 rfl, rfl⟩)
  | .elifChoice => (choiceFrom_lands hread .elif i).imp fun _ _ _ h => h.1.imp fun _ => .inl
  | .otherwise => otherwiseForm_lands hread i
  | .choiceTail => choiceTailForm_lands hread i
  | .count => countForm_lands hread i
  | .loop => fun n c' h => absurd h (not_reads_loopForm hrefuses _ c' n)
  | .function => functionForm_lands hread i

end Forms

/-- The node is put together by a production that is read somewhere in the tokens. -/
def Made (tokens : List Token) (n : Node) : Prop :=
  ∃ (d : Nat) (p : Production) (i j : Nat) (r : p.Result), Reads (readAt d p) (.on tokens i) r (.on tokens j) ∧ p.Makes r n

/-- **The nodes of what a production reads are among the tokens it takes and the next**, and each is put together by a
production that was read on the way. -/
theorem readAt_lands {tokens : List Token} (ht : tokens ≠ []) : ∀ (d : Nat) (p : Production) (i : Nat),
    Lands tokens i (readAt d p) fun r j => Kept tokens (Made tokens) i j (p.nodes r)
  | 0, _, _ => fun _ _ h => (reads_tooDeep.1 h).elim
  | d + 1, p, i => by
    intro r c' h
    obtain ⟨j, rfl, hij, hplaced⟩ := body_lands (readAt_lands ht d) ht (readAt_refuses d .expression rfl)
      (readAt_follows_self d .expression) i p h
    refine ⟨j, rfl, hij, Kept.imp hplaced fun n hn => ?_⟩
    exact hn.elim id fun hmakes => ⟨d + 1, p, i, j, r, h, hmakes⟩

end Grammar

/-! ## Whole programs -/

/-- A node within some tokens is not outside what they span, and has a span of its own. -/
theorem Node.Within.between {p : Position} {tokens : List Token} {i j : Nat} {n : Node} (hordered : Scan.Ordered p tokens)
    (hne : tokens ≠ []) (h : n.Within tokens i j) : (Cursor.shown tokens i).span.start.NotAfter n.start ∧
      n.stop.NotAfter (Cursor.shown tokens j).span.stop ∧ (Span.mk n.start n.stop).Proper := by
  obtain ⟨a, b, ha, hab, hb, hstart, hstop⟩ := h
  rw [hstart, hstop]
  exact ⟨hordered.start_mono hne ha, hordered.stop_mono hne hb, hordered.start_stop hne hab⟩

/-- The span of a node is a stretch of the text, which may reach one character past its end, and an excerpt of it has at least
one line; so has an excerpt from the beginning of a left operand to the end of the right one. -/
structure Node.WellPlaced (source : Source) (n : Node) : Prop where
  nonneg : 0 ≤ n.start.index
  nonempty : n.start.index < n.stop.index
  inside : n.stop.index ≤ source.text.length + 1
  lines : n.start.line ≤ n.stop.line
  shown : '\n' ∈ Excerpt.render source.text.toList n.start n.stop
  operands : ∀ left op right, n = .binary left op right →
    '\n' ∈ Excerpt.render source.text.toList left.start right.stop

theorem Node.Within.wellPlaced {source : Source} {tokens : List Token} (htokens : Scan.tokens source = .ok tokens) {i j : Nat}
    {n : Node} (h : n.Within tokens i j) : n.WellPlaced source := by
  obtain ⟨hordered, hstops⟩ := Scan.tokens_ordered htokens
  have hne : tokens ≠ [] := (Grammar.Ended.of_tokens htokens).ne_nil
  obtain ⟨-, -, hproper⟩ := h.between hordered hne
  have hshown : '\n' ∈ Excerpt.render source.text.toList n.start n.stop := Excerpt.newline_mem_render.2 hproper.line
  obtain ⟨a, b, -, -, -, hstart, hstop⟩ := h
  refine ⟨?_, hproper.index, ?_, hproper.line, hshown, ?_⟩
  · rw [hstart]
    exact (hordered.onward _ (Scan.Ordered.shown_mem hne a)).index
  · rw [hstop]
    exact hstops _ (Scan.Ordered.shown_mem hne b)
  · rintro left op right rfl
    exact hshown

open Grammar Reading in
/-- **Where the nodes of a program stand.**  Each is well placed and was put together by a production that was read; and
whatever production is read, what it puts together is among the nodes of its result, and these begin with its first token or
later and end with the token after it or earlier. -/
theorem Parse.program_spans {limits : Limits} {source : Source} {tokens : List Token} {tree : Node}
    (htokens : Scan.tokens source = .ok tokens) (h : Parse.program limits source = .ok tree) :
    (∀ n ∈ tree.nodes, n.WellPlaced source ∧ Made tokens n) ∧
    ∀ (d : Nat) (p : Production) (i j : Nat) (r : p.Result), Reads (readAt d p) (.on tokens i) r (.on tokens j) →
      (∀ n, p.Makes r n → n ∈ p.nodes r) ∧ ∀ n ∈ p.nodes r,
        (Cursor.shown tokens i).span.start.NotAfter n.start ∧ n.stop.NotAfter (Cursor.shown tokens j).span.stop := by
  have hne : tokens ≠ [] := (Ended.of_tokens htokens).ne_nil
  refine ⟨fun n hn => ?_, fun d p i j r hreads => ⟨fun n hn => p.heads_subset_nodes r hn.1, fun n hn => ?_⟩⟩
  · obtain ⟨tokens', htokens', hprogram⟩ := Parse.program_eq_ok.1 h
    cases htokens.symm.trans htokens'
    rw [Cursor.start_eq_on] at hprogram
    obtain ⟨block, hblock, -, rfl⟩ := reads_program.1 ⟨hprogram, rfl⟩
    obtain ⟨j, -, -, hkept⟩ := readAt_lands hne limits.reading .statements 0 hblock
    exact ⟨(hkept n hn).1.wellPlaced htokens, (hkept n hn).2⟩
  · obtain ⟨j', hj, -, hkept⟩ := readAt_lands hne d p i hreads
    obtain rfl : j = j' := Int.ofNat.inj (congrArg Cursor.index hj)
    obtain ⟨hstart, hstop, -⟩ := (hkept n hn).1.between (Scan.tokens_ordered htokens).1 hne
    exact ⟨hstart, hstop⟩

/-- A loop over a function that has no name, with a list at the end of its body, and a choice after it. -/
def spreadSource : Source := ⟨"", "for i = 1 to 2 do\nvar f = fn (a) -> [-a, i]\nend\nif f(1) == 2 then 3 elif not 4 then 5"⟩

/-- How many nodes the tree of a text has, and where it ends. -/
def Parse.extent (limits : Limits) (source : Source) : Option (Nat × Int) :=
  match Scan.tokens source, Parse.program limits source with
  | .ok _, .ok tree => some (tree.nodes.length, tree.stop.index)
  | _, _ => none

theorem Parse.extent_eq_some {limits : Limits} {source : Source} {m : Nat} {k : Int} :
    Parse.extent limits source = some (m, k) ↔ ∃ tokens tree, Scan.tokens source = .ok tokens ∧
      Parse.program limits source = .ok tree ∧ tree.nodes.length = m ∧ tree.stop.index = k := by
  unfold Parse.extent
  cases Scan.tokens source <;> cases Parse.program limits source <;> simp

theorem Parse.program_spans_spread : ∃ tokens tree, Scan.tokens spreadSource = .ok tokens ∧
    Parse.program .standard spreadSource = .ok tree ∧ tree.nodes.length = 21 ∧ tree.stop.index = 86 ∧
    ∀ n ∈ tree.nodes, n.WellPlaced spreadSource ∧ Grammar.Made tokens n := by
  obtain ⟨tokens, tree, htokens, htree, hlength, hstop⟩ :=
    Parse.extent_eq_some.1 (show Parse.extent .standard spreadSource = some (21, 86) by decide +kernel)
  exact ⟨tokens, tree, htokens, htree, hlength, hstop, (Parse.program_spans htokens htree).1⟩

end Scriptlet
