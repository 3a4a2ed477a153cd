import Scriptlet.Proofs.Grammar.Soundness
import Scriptlet.Proofs.Scan.Partition
/-!
# How many blocks are closed

Loops, functions and choices may end in a block, and a block may be closed by `end`.  A loop and a function whose body is a
block, and a choice whose `else` has one, are read only with the `end`.  A choice whose last case has a block is read without
it too.  So the `end` tokens of a text are as many as the nodes that end in a block, less the choices of the last kind that are
not closed (`program_closings`).

The tree tells which these are: the stretch of a block reaches to the token after its statements, and that is an `end` if and
only if the block is closed.  `TalliesAt` says what the number of `end` tokens before a reading, and its result, have to do with
that number after it; there is a rule for each way to build a reading.
-/
namespace Scriptlet

/-! ## The nodes of a tree -/

mutual

/-- All nodes inside a node. -/
def Node.inner : Node → List Node
  | .number _ _ | .string _ _ | .access _ | .lone _ => []
  | .list items _ => Node.allNodes items
  | .assign _ value => value :: value.inner
  | .binary left _ right => left :: (left.inner ++ (right :: right.inner))
  | .unary _ operand => operand :: operand.inner
  | .choice first more otherwise => first.nodes ++ (Case.allNodes more ++ Body.optionNodes otherwise)
  | .count _ first last step body =>
    first :: (first.inner ++ (last :: (last.inner ++ (Node.optionNodes step ++ body.nodes))))
  | .loop test body => test :: (test.inner ++ body.nodes)
  | .function _ _ body => body.nodes
  | .call callee arguments => callee :: (callee.inner ++ Node.allNodes arguments)

def Body.nodes : Body → List Node
  | .inline n | .block n => n :: n.inner

def Case.nodes : Case → List Node
  | .mk test body => test :: (test.inner ++ body.nodes)

def Node.allNodes : List Node → List Node
  | [] => []
  | n :: rest => n :: (n.inner ++ Node.allNodes rest)

def Case.allNodes : List Case → List Node
  | [] => []
  | c :: rest => c.nodes ++ Case.allNodes rest

def Node.optionNodes : Option Node → List Node
  | none => []
  | some n => n :: n.inner

def Body.optionNodes : Option Body → List Node
  | none => []
  | some b => b.nodes

end

/-- The nodes of a tree. -/
def Node.nodes (n : Node) : List Node := n :: n.inner

theorem Node.allNodes_append (ms ns : List Node) : Node.allNodes (ms ++ ns) = Node.allNodes ms ++ Node.allNodes ns := by
  induction ms with
  | nil => rfl
  | cons m ms ih =>
    show m :: (m.inner ++ Node.allNodes (ms ++ ns)) = m :: (m.inner ++ Node.allNodes ms) ++ Node.allNodes ns
    rw [ih, List.cons_append, List.append_assoc]

theorem Node.allNodes_singleton (n : Node) : Node.allNodes [n] = n.nodes :=
  congrArg (n :: ·) (List.append_nil n.inner)

/-- The last branch of a choice after its first case, if there is one. -/
def lastBranch? (more : List Case) (otherwise : Option Body) : Option Body := otherwise.or (more.getLast?.map Case.body)

theorem lastBranch?_cons (c : Case) (more : List Case) (otherwise : Option Body) :
    lastBranch? (c :: more) otherwise = some ((lastBranch? more otherwise).getD c.body) := by
  cases otherwise with
  | some body => rfl
  | none =>
    show (c :: more).getLast?.map Case.body = some ((more.getLast?.map Case.body).getD c.body)
    rw [List.getLast?_cons]
    cases more.getLast? <;> rfl

namespace Node

/-- The body that a loop over numbers, a function or a choice ends with. -/
def lastBody? : Node → Option Body
  | .choice first more otherwise => some ((lastBranch? more otherwise).getD first.body)
  | .count _ _ _ _ body | .function _ _ body => some body
  | _ => none

/-- The node ends in a block. -/
def endsInBlock (n : Node) : Bool := n.lastBody?.any Body.isBlock

end Node

/-- The body is a block, and it stops at one of the positions. -/
def Body.stopsAt (ends : List Position) (b : Body) : Bool := b.isBlock && decide (b.node.stop ∈ ends)

/-- The node ends in a block, and that stops at one of the positions. -/
def Node.isClosed (ends : List Position) (n : Node) : Bool := n.lastBody?.any (·.stopsAt ends)

theorem Node.endsInBlock_of_isClosed {ends : List Position} {n : Node} (h : n.isClosed ends = true) : n.endsInBlock = true := by
  unfold Node.isClosed at h
  unfold Node.endsInBlock
  cases hb : n.lastBody? with
  | none =>
    rw [hb] at h
    cases h
  | some b =>
    rw [hb] at h
    exact (Bool.and_eq_true_iff.1 h).1

/-- Where the `end` tokens stop. -/
def Scan.endStops (tokens : List Token) : List Position :=
  (tokens.filter (·.lexeme.isKeyword .end_)).map (·.span.stop)

/-! ## Counting -/

/-- So many of the nodes are closed, and all that end in a block are, but for choices without `else`. -/
structure Counted (ends : List Position) (m : Nat) (ns : List Node) : Prop where
  count : m = ns.countP (·.isClosed ends)
  closed : ∀ n ∈ ns, n.endsInBlock = true → n.isClosed ends = true ∨ ∃ first more, n = .choice first more none

namespace Counted

variable {ends : List Position} {m k : Nat} {ns ms : List Node} {n : Node}

theorem nil : Counted ends 0 [] := ⟨rfl, by simp⟩

theorem append (h : Counted ends m ns) (h' : Counted ends k ms) : Counted ends (m + k) (ns ++ ms) where
  count := by rw [List.countP_append, ← h.count, ← h'.count]
  closed x hx := (List.mem_append.1 hx).elim (h.closed x) (h'.closed x)

/-- A node that has no bodies counts for nothing. -/
theorem cons (hn : n.lastBody? = none) (h : Counted ends m ns) : Counted ends m (n :: ns) where
  count := by
    have hopen : n.isClosed ends = false := by rw [Node.isClosed, hn]; rfl
    rw [List.countP_cons, hopen, ← h.count]
    rfl
  closed := by
    refine List.forall_mem_cons.2 ⟨fun hb => ?_, h.closed⟩
    rw [Node.endsInBlock, hn] at hb
    cases hb

/-- A node with bodies counts if it is closed. -/
theorem cons_body {b : Body} (hn : n.lastBody? = some b)
    (hclosed : b.isBlock = true → b.stopsAt ends = true ∨ ∃ first more, n = .choice first more none)
    (h : Counted ends m ns) : Counted ends (m + (b.stopsAt ends).toNat) (n :: ns) where
  count := by
    have hb : n.isClosed ends = b.stopsAt ends := by rw [Node.isClosed, hn]; rfl
    rw [List.countP_cons, hb, ← h.count]
    cases b.stopsAt ends <;> rfl
  closed := by
    refine List.forall_mem_cons.2 ⟨fun hb => ?_, h.closed⟩
    rw [Node.endsInBlock, hn] at hb
    rw [Node.isClosed, hn]
    exact hclosed hb

theorem uncons {b : Body} (hn : n.lastBody? = some b) (h : Counted ends m (n :: ns)) :
    ∃ k, m = k + (b.stopsAt ends).toNat ∧ Counted ends k ns := by
  refine ⟨ns.countP (·.isClosed ends), ?_, rfl, fun x hx => h.closed x (List.mem_cons_of_mem n hx)⟩
  have hb : n.isClosed ends = b.stopsAt ends := by rw [Node.isClosed, hn]; rfl
  rw [h.count, List.countP_cons, hb]
  cases b.stopsAt ends <;> rfl

theorem leaf (hn : n.lastBody? = none) (hinner : n.inner = []) : Counted ends 0 n.nodes := by
  rw [Node.nodes, hinner]
  exact nil.cons hn

theorem binary {left right : Node} (hl : Counted ends m left.nodes) (op : Lexeme) (hr : Counted ends k right.nodes) :
    Counted ends (m + k) (Node.binary left op right).nodes := (hl.append hr).cons rfl

theorem list {items : List Node} (h : Counted ends m (Node.allNodes items)) (span : Span) :
    Counted ends m (Node.list items span).nodes := h.cons rfl

theorem concat {items : List Node} (h : Counted ends m (Node.allNodes items)) (hn : Counted ends k n.nodes) :
    Counted ends (m + k) (Node.allNodes (items ++ [n])) := by
  rw [Node.allNodes_append, Node.allNodes_singleton]
  exact h.append hn

end Counted

namespace Grammar

open Production Reading

/-! ## The rules -/

/-- The number of `end` tokens from one number up to another. -/
def endsBetween (tokens : List Token) (i j : Nat) : Nat := (between tokens i j).countP (·.isKeyword .end_)

theorem endsBetween_self (tokens : List Token) (i : Nat) : endsBetween tokens i i = 0 := by
  rw [endsBetween, between_self]
  rfl

theorem endsBetween_append (tokens : List Token) {i j k : Nat} (hij : i ≤ j) (hjk : j ≤ k) :
    endsBetween tokens i k = endsBetween tokens i j + endsBetween tokens j k := by
  rw [endsBetween, between_append tokens hij hjk, List.countP_append]
  rfl

theorem endsBetween_succ {tokens : List Token} (ht : Ended tokens) (i : Nat) :
    endsBetween tokens i (i + 1) = ((Cursor.shown tokens i).lexeme.isKeyword .end_).toNat := by
  by_cases hi : i < tokens.length
  · rw [endsBetween, between_cons hi (Nat.lt_succ_self i), between_self, List.countP_singleton]
    cases (Cursor.shown tokens i).lexeme.isKeyword .end_ <;> rfl
  · rw [ht.shown_last (by omega), endsBetween, between, List.drop_eq_nil_of_le (by omega), List.take_nil]
    rfl

/-- From the token of number `i`, with `n` tokens `end` before it, the reading gives a result and comes to a token such that
`W` holds of these and of the number of `end` tokens up to there. -/
def TalliesAt {α : Type} (tokens : List Token) (i n : Nat) (r : Reading α) (W : Nat → α → Nat → Prop) : Prop :=
  ∀ ⦃a : α⦄ ⦃c' : Cursor⦄, Reads r (.on tokens i) a c' →
    ∃ j, c' = .on tokens j ∧ i ≤ j ∧ W (n + endsBetween tokens i j) a j

namespace TalliesAt

variable {α β σ : Type} {tokens : List Token} {i n : Nat} {W : Nat → α → Nat → Prop}

theorem pure {a : α} (h : W n a i) : TalliesAt tokens i n (Pure.pure a : Reading α) W := by
  intro b c' hb
  obtain ⟨rfl, rfl⟩ := reads_pure.1 hb
  refine ⟨i, rfl, Nat.le_refl i, ?_⟩
  rwa [endsBetween_self]

theorem bind {r : Reading β} {f : β → Reading α} {V : Nat → β → Nat → Prop} (hr : TalliesAt tokens i n r V)
    (hf : ∀ m b j, V m b j → TalliesAt tokens j m (f b) W) : TalliesAt tokens i n (r >>= f) W := by
  intro a c' ha
  obtain ⟨b, c₁, hb, ha⟩ := reads_bind.1 ha
  obtain ⟨j, rfl, hij, hV⟩ := hr hb
  obtain ⟨k, rfl, hjk, hW⟩ := hf _ _ _ hV ha
  refine ⟨k, rfl, Nat.le_trans hij hjk, ?_⟩
  rwa [endsBetween_append tokens hij hjk, ← Nat.add_assoc]

theorem imp {r : Reading α} {V : Nat → α → Nat → Prop} (hr : TalliesAt tokens i n r V)
    (h : ∀ m a j, V m a j → W m a j) : TalliesAt tokens i n r W := by
  intro a c' ha
  obtain ⟨j, hc, hij, hV⟩ := hr ha
  exact ⟨j, hc, hij, h _ _ _ hV⟩

/-- What was counted before is added. -/
theorem shift {r : Reading α} (hr : TalliesAt tokens i 0 r W) :
    TalliesAt tokens i n r fun m a j => ∃ k, m = n + k ∧ W k a j := by
  intro a c' ha
  obtain ⟨j, hc, hij, hW⟩ := hr ha
  rw [Nat.zero_add] at hW
  exact ⟨j, hc, hij, _, rfl, hW⟩

/-- After a reading that was counted for itself. -/
theorem after {r : Reading β} {f : β → Reading α} {V : Nat → β → Nat → Prop} (hr : TalliesAt tokens i 0 r V)
    (hf : ∀ k b j, V k b j → TalliesAt tokens j (n + k) (f b) W) : TalliesAt tokens i n (r >>= f) W := by
  refine hr.shift.bind fun m b j h => ?_
  obtain ⟨k, rfl, hV⟩ := h
  exact hf k b j hV

theorem lexeme_bind {f : Lexeme → Reading α} (h : TalliesAt tokens i n (f (Cursor.shown tokens i).lexeme) W) :
    TalliesAt tokens i n (lexeme >>= f) W :=
  fun _ _ ha => h (reads_lexeme_bind.1 ha)

theorem current_bind {f : Token → Reading α} (h : TalliesAt tokens i n (f (Cursor.shown tokens i)) W) :
    TalliesAt tokens i n (current >>= f) W :=
  fun _ _ ha => h (reads_current_bind.1 ha)

theorem ite {p : Prop} [Decidable p] {r s : Reading α} (hr : p → TalliesAt tokens i n r W)
    (hs : ¬ p → TalliesAt tokens i n s W) : TalliesAt tokens i n (if p then r else s) W := by
  split
  · next hp => exact hr hp
  · next hp => exact hs hp

theorem fail (e : Expected) : TalliesAt tokens i n (Reading.fail e : Reading α) W :=
  fun _ _ ha => (reads_fail.1 ha).elim

theorem relabel {e : Expected} {r : Reading α} (hr : TalliesAt tokens i n r W) : TalliesAt tokens i n (r.relabel e) W :=
  fun _ _ ha => hr (reads_relabel.1 ha)

/-- What is tried is read, or nothing is taken. -/
theorem attempt {r : Reading α} {φ : Position → Position} {g : α → β} {r' : Reading β} (hsteady : Follows False φ g r r')
    (ht : tokens ≠ []) (hr : TalliesAt tokens i n r W) : TalliesAt tokens i n r.attempt fun m t j =>
      (∀ a, t = .read a → W m a j) ∧ (∀ k, t = .handedBack k → m = n) := by
  intro t c' h
  rcases (reads_attempt hsteady ht).1 h with ⟨a, rfl, ha⟩ | ⟨e, span, rfl, _, rfl⟩
  · obtain ⟨j, hc, hij, hW⟩ := hr ha
    refine ⟨j, hc, hij, fun b hb => ?_, fun k hk => by cases hk⟩
    cases hb
    exact hW
  · refine ⟨i, rfl, Nat.le_refl i, ?_, fun _ _ => ?_⟩
    · intro a ha
      cases ha
    · rw [endsBetween_self, Nat.add_zero]

theorem repeating {step : σ → Reading (Option σ)} {I : Nat → σ → Prop}
    (hstep : ∀ i m s, I m s → TalliesAt tokens i m (step s) fun k o _ => I k (o.getD s)) {s : σ} (hs : I n s) :
    TalliesAt tokens i n (Reading.repeating step s) fun m t _ => I m t := by
  suffices hrounds : ∀ fuel i n s, I n s → TalliesAt tokens i n (rounds step fuel s) fun m t _ => I m t from
    fun _ _ ha => hrounds _ i n s hs ha
  intro fuel
  induction fuel with
  | zero => exact fun i n s hs => .pure hs
  | succ fuel ih =>
    refine fun i n s hs => .bind (hstep i n s hs) fun m o j ho => ?_
    cases o with
    | none => exact .pure ho
    | some t => exact ih j m t ho

section Ended

variable (ht : Ended tokens)

include ht

theorem take_bind {f : Unit → Reading α}
    (h : TalliesAt tokens (i + 1) (n + ((Cursor.shown tokens i).lexeme.isKeyword .end_).toNat) (f ()) W) :
    TalliesAt tokens i n (take >>= f) W := by
  intro a c' ha
  rw [reads_take_bind, Cursor.next_on] at ha
  obtain ⟨j, hc, hij, hW⟩ := h ha
  refine ⟨j, hc, by omega, ?_⟩
  rwa [endsBetween_append tokens (Nat.le_succ i) hij, endsBetween_succ ht, ← Nat.add_assoc]

/-- A token that is not `end` is taken. -/
theorem skip {f : Unit → Reading α} {l : Lexeme} (hl : (Cursor.shown tokens i).lexeme = l)
    (hne : l.isKeyword .end_ = false) (h : TalliesAt tokens (i + 1) n (f ()) W) : TalliesAt tokens i n (take >>= f) W := by
  refine take_bind ht ?_
  rw [hl, hne]
  exact h

theorem expectKeyword_bind {k : Keyword} (hk : (Lexeme.keyword k).isKeyword .end_ = false) {f : Unit → Reading α}
    (h : TalliesAt tokens (i + 1) n (f ()) W) : TalliesAt tokens i n (expectKeyword k >>= f) W := by
  intro a c' ha
  rw [reads_expectKeyword_bind] at ha
  exact skip ht ha.1 hk h (reads_take_bind.2 ha.2)

theorem expectEnd_bind {f : Unit → Reading α}
    (h : (Cursor.shown tokens i).lexeme = .keyword .end_ → TalliesAt tokens (i + 1) (n + 1) (f ()) W) :
    TalliesAt tokens i n (expectKeyword .end_ >>= f) W := by
  intro a c' ha
  rw [reads_expectKeyword_bind] at ha
  have hend : (Cursor.shown tokens i).lexeme = .keyword .end_ := ha.1
  refine take_bind ht ?_ (reads_take_bind.2 ha.2)
  rw [hend]
  exact h hend

theorem expectSymbol_bind {s : Symbol} {e : Expected} {f : Unit → Reading α} (h : TalliesAt tokens (i + 1) n (f ()) W) :
    TalliesAt tokens i n (expectSymbol s e >>= f) W := by
  intro a c' ha
  rw [reads_expectSymbol_bind] at ha
  exact skip ht ha.1 rfl h (reads_take_bind.2 ha.2)

theorem expectName (e : Expected) : TalliesAt tokens i n (Reading.expectName e) fun m _ _ => m = n := by
  intro name c' h
  obtain ⟨hname, -, rfl⟩ := reads_expectName.1 h
  refine ⟨i + 1, Cursor.next_on tokens i, Nat.le_succ i, ?_⟩
  have hname : (Cursor.shown tokens i).lexeme = .name name.text := hname
  rw [endsBetween_succ ht, hname]
  rfl

theorem newlines : TalliesAt tokens i n Reading.newlines fun m _ _ => m = n := by
  refine .repeating (I := fun m _ => m = n) (fun i m s hm => .lexeme_bind (.ite (fun hl => ?_) fun _ => .pure hm)) rfl
  exact skip ht (Lexeme.isNewline_iff.1 hl) rfl (.pure hm)

/-- A row divided by commas, if its items are counted alike. -/
theorem commaSeparated {item : Reading α} {V : Nat → α → Prop} (hitem : ∀ i, TalliesAt tokens i 0 item fun m a _ => V m a)
    {R : Nat → List α → Prop} (hone : ∀ m a, V m a → R m [a])
    (hmore : ∀ m as k a, R m as → V k a → R (m + k) (as ++ [a])) :
    TalliesAt tokens i 0 (Reading.commaSeparated item) fun m as _ => R m as := by
  refine (hitem i).bind fun m a j ha => ?_
  refine .bind (.repeating (I := fun m items => R m items.reverse) (fun i m items hm => .lexeme_bind (.ite (fun hl => ?_)
    fun _ => .pure hm)) (hone m a ha)) fun m items j h => .pure h
  refine skip ht (Lexeme.isSymbol_iff.1 hl) rfl ((hitem _).after fun k b j hb => .pure ?_)
  rw [Option.getD_some, List.reverse_cons]
  exact hmore m _ k b hm hb

/-- A chain, if its operators are no `end` and its operands are counted alike. -/
theorem chain {operand further : Reading Node} {joins : Lexeme → Bool} (hjoins : joins (.keyword .end_) = false)
    {V : Nat → Node → Prop} (ho : TalliesAt tokens i 0 operand fun m a _ => V m a)
    (hf : ∀ i, TalliesAt tokens i 0 further fun m a _ => V m a)
    (hjoin : ∀ m left op k right, V m left → V k right → V (m + k) (.binary left op right)) :
    TalliesAt tokens i 0 (Reading.chain operand further joins) fun m a _ => V m a := by
  refine ho.bind fun m first j hfirst => .repeating (I := V) (fun i m left hleft => .lexeme_bind (.ite (fun hl => ?_)
    fun _ => .pure hleft)) hfirst
  refine skip ht rfl (Bool.not_eq_true _ ▸ fun hend => ?_)
    ((hf _).after fun k right j hright => .pure (hjoin m left _ k right hleft hright))
  rw [Lexeme.isKeyword_iff.1 hend, hjoins] at hl
  cases hl

end Ended

end TalliesAt

/-! ## What is read -/

/-- A body is counted with the block that it is, and a block is closed. -/
structure CountedBody (ends : List Position) (m : Nat) (body : Body) : Prop where
  counted : ∃ k, m = k + (body.stopsAt ends).toNat ∧ Counted ends k body.nodes
  closed : body.isBlock = true → body.stopsAt ends = true

/-- What follows the first case of a choice is counted with the block that it ends in, and if that belongs to `else` it is
closed. -/
structure CountedTail (ends : List Position) (m : Nat) (tail : ChoiceTail) : Prop where
  counted : ∃ k, m = k + ((lastBranch? tail.cases tail.otherwise).any (·.stopsAt ends)).toNat ∧
    Counted ends k (Case.allNodes tail.cases ++ Body.optionNodes tail.otherwise)
  closed : ∀ body, tail.otherwise = some body → body.isBlock = true → body.stopsAt ends = true

/-- The result of a production is counted; statements reach to the token after them. -/
def Production.Tallied (tokens : List Token) (ends : List Position) : (p : Production) → Nat → p.Result → Nat → Prop
  | .statements, m, block, j =>
    Counted ends m (Node.allNodes block.items) ∧ block.span.stop = (Cursor.shown tokens j).span.stop
  | .elifChoice, m, c, _ => Counted ends m c.node.nodes
  | .otherwise, m, body, _ => CountedTail ends m ⟨[], body⟩
  | .choiceTail, m, tail, _ => CountedTail ends m tail
  | .loop, _, _, _ => False
  | .expression, m, n, _ => Counted ends m n.nodes
  | .comparison, m, n, _ => Counted ends m n.nodes
  | .sum, m, n, _ => Counted ends m n.nodes
  | .product, m, n, _ => Counted ends m n.nodes
  | .factor, m, n, _ => Counted ends m n.nodes
  | .power, m, n, _ => Counted ends m n.nodes
  | .call, m, n, _ => Counted ends m n.nodes
  | .atom, m, n, _ => Counted ends m n.nodes
  | .list, m, n, _ => Counted ends m n.nodes
  | .choice, m, n, _ => Counted ends m n.nodes
  | .count, m, n, _ => Counted ends m n.nodes
  | .function, m, n, _ => Counted ends m n.nodes

section Trees

variable {ends : List Position} {m k : Nat}

theorem CountedBody.inline {n : Node} (h : Counted ends m n.nodes) : CountedBody ends m (.inline n) :=
  ⟨⟨m, rfl, h⟩, fun hb => by cases hb⟩

theorem CountedBody.function {body : Body} (h : CountedBody ends m body) {name : Option Name} {parameters : List Name} :
    Counted ends m (Node.function name parameters body).nodes := by
  obtain ⟨⟨k, rfl, hcounted⟩, hclosed⟩ := h
  exact hcounted.cons_body rfl fun hb => .inl (hclosed hb)

/-- A choice is counted from its first case, if that is not a closed block, and what follows it. -/
theorem Choice.counted {first : Case} {tail : ChoiceTail} (hfirst : Counted ends m first.nodes)
    (hopen : first.body.stopsAt ends = false) (htail : CountedTail ends k tail) :
    Counted ends (m + k) (Choice.node ⟨first, tail⟩).nodes := by
  obtain ⟨⟨j, rfl, hcounted⟩, hclosed⟩ := htail
  have hlast : (((lastBranch? tail.cases tail.otherwise).getD first.body).stopsAt ends) =
      (lastBranch? tail.cases tail.otherwise).any (·.stopsAt ends) := by
    cases lastBranch? tail.cases tail.otherwise with
    | none => exact hopen
    | some body => rfl
  rw [← hlast, ← Nat.add_assoc]
  refine Counted.cons_body rfl (fun hblock => ?_) (hfirst.append hcounted)
  obtain ⟨cases, otherwise⟩ := tail
  cases otherwise with
  | none => exact .inr ⟨first, cases, rfl⟩
  | some body => exact .inl (hclosed body rfl hblock)

/-- What follows may be another choice. -/
theorem CountedTail.elif {c : Choice} (h : Counted ends m c.node.nodes) :
    CountedTail ends m ⟨c.first :: c.tail.cases, c.tail.otherwise⟩ := by
  obtain ⟨first, cases, otherwise⟩ := c
  obtain ⟨k, rfl, hinner⟩ := h.uncons rfl
  refine ⟨⟨k, ?_, ?_⟩, ?_⟩
  · rw [lastBranch?_cons]
    rfl
  · show Counted ends k ((first.nodes ++ Case.allNodes cases) ++ Body.optionNodes otherwise)
    rw [List.append_assoc]
    exact hinner
  · rintro body rfl hblock
    rcases h.closed _ List.mem_cons_self hblock with hclosed | ⟨_, _, hnone⟩
    · exact hclosed
    · cases hnone

end Trees

section Forms

variable {tokens : List Token} (ht : Ended tokens) {ends : List Position}
  (hends : ∀ j, (Cursor.shown tokens j).span.stop ∈ ends ↔ (Cursor.shown tokens j).lexeme = .keyword .end_)
  {read : (p : Production) → Reading p.Result} (hread : ∀ p i, TalliesAt tokens i 0 (read p) (p.Tallied tokens ends))

include ht hread

omit hread in
theorem nodeChain_tallies {operand further : Reading Node} {joins : Lexeme → Bool}
    (hjoins : joins (.keyword .end_) = false) {i : Nat}
    (ho : TalliesAt tokens i 0 operand fun m n _ => Counted ends m n.nodes)
    (hf : ∀ i, TalliesAt tokens i 0 further fun m n _ => Counted ends m n.nodes) :
    TalliesAt tokens i 0 (chain operand further joins) fun m n _ => Counted ends m n.nodes :=
  .chain ht hjoins ho hf fun _ _ op _ _ hl hr => hl.binary op hr

theorem itemRow_tallies (i : Nat) : TalliesAt tokens i 0 (commaSeparated (read .expression)) fun m ns _ =>
    Counted ends m (Node.allNodes ns) := by
  refine .commaSeparated ht (hread .expression) (fun m n hn => ?_) fun m ns k n hns hn => hns.concat hn
  rw [Node.allNodes_singleton]
  exact hn

theorem statementsForm_tallies {φ : Position → Position} {g : Node → Node} {r' : Reading Node}
    (hback : Follows False φ g (read .expression) r') (i : Nat) :
    TalliesAt tokens i 0 (statementsForm read) (Tallied tokens ends .statements) := by
  refine .current_bind (.bind (.newlines ht) fun m _ j hm => ?_)
  subst hm
  refine (hread .expression j).bind fun m first j hfirst => ?_
  refine .bind (.repeating (I := fun m s => Counted ends m (Node.allNodes s.items.reverse)) (fun i m s hs => ?_) ?_)
    fun m row j hrow => .current_bind (.pure ⟨hrow, rfl⟩)
  · refine .bind (.newlines ht) fun k _ j hk => .ite (fun _ => .pure (hk ▸ hs)) fun _ => ?_
    subst hk
    refine .bind (.attempt hback ht.ne_nil (hread .expression j).shift) fun k t j h => ?_
    cases t with
    | read node =>
      obtain ⟨k', rfl, hnode⟩ := h.1 node rfl
      refine .pure ?_
      show Counted ends _ (Node.allNodes (node :: s.items).reverse)
      rw [List.reverse_cons]
      exact hs.concat hnode
    | handedBack taken =>
      obtain rfl := h.2 taken rfl
      exact .pure hs
  · show Counted ends m (Node.allNodes [first])
    rw [Node.allNodes_singleton]
    exact hfirst

theorem expressionForm_tallies (i : Nat) : TalliesAt tokens i 0 (expressionForm read) (Tallied tokens ends .expression) := by
  refine .lexeme_bind (.ite (fun hvar => ?_) fun _ => .relabel (nodeChain_tallies ht rfl (hread .comparison i) (hread .comparison)))
  refine .skip ht (Lexeme.isKeyword_iff.1 hvar) rfl (.bind (.expectName ht _) fun m _ j hm => .expectSymbol_bind ht ?_)
  subst hm
  exact (hread .expression _).bind fun m value j hvalue => .pure (hvalue.cons rfl)

theorem comparisonForm_tallies (i : Nat) : TalliesAt tokens i 0 (comparisonForm read) (Tallied tokens ends .comparison) := by
  refine .current_bind (.ite (fun hnot => ?_) fun _ => .relabel (nodeChain_tallies ht rfl (hread .sum i) (hread .sum)))
  exact .skip ht (Lexeme.isKeyword_iff.1 hnot) rfl ((hread .comparison _).bind fun m operand j h => .pure (h.cons rfl))

theorem factorForm_tallies (i : Nat) : TalliesAt tokens i 0 (factorForm read) (Tallied tokens ends .factor) := by
  refine .current_bind (.ite (fun hminus => ?_) fun _ => hread .power i)
  exact .skip ht (Lexeme.isSymbol_iff.1 hminus) rfl ((hread .factor _).bind fun m operand j h => .pure (h.cons rfl))

theorem callForm_tallies (i : Nat) : TalliesAt tokens i 0 (callForm read) (Tallied tokens ends .call) := by
  refine (hread .atom i).bind fun m callee j hcallee => .lexeme_bind (.ite (fun hopen => ?_) fun _ => .pure hcallee)
  refine .skip ht (Lexeme.isSymbol_iff.1 hopen) rfl (.bind (V := fun k ns _ => Counted ends k (callee.nodes ++ Node.allNodes ns))
    (.lexeme_bind (.ite (fun hclose => ?_) fun _ => ?_)) fun k ns j h => .pure (h.cons rfl))
  · refine .skip ht (Lexeme.isSymbol_iff.1 hclose) rfl (.pure ?_)
    exact (hcallee.append .nil)
  · refine (itemRow_tallies ht hread _).after fun k ns j hns => .expectSymbol_bind ht (.pure ?_)
    exact hcallee.append hns

theorem atomForm_tallies (i : Nat) : TalliesAt tokens i 0 (atomForm read) (Tallied tokens ends .atom) := by
  refine .current_bind ?_
  -- The lexeme where the atom begins decides its form.
  generalize hl : (Cursor.shown tokens i).lexeme = l
  split
  · exact .skip ht hl rfl (.pure (.leaf rfl rfl))
  · exact .skip ht hl rfl (.pure (.leaf rfl rfl))
  · exact .skip ht hl rfl (.pure (.leaf rfl rfl))
  · exact .skip ht hl rfl ((hread .expression _).bind fun m n j h => .expectSymbol_bind ht (.pure h))
  · exact hread .list i
  · exact hread .choice i
  · exact hread .count i
  · exact (hread .loop i).imp fun _ _ _ h => h.elim
  · exact hread .function i
  · exact .fail _

theorem listForm_tallies (i : Nat) : TalliesAt tokens i 0 (listForm read) (Tallied tokens ends .list) := by
  refine .current_bind (.expectSymbol_bind ht (.lexeme_bind (.ite (fun hclose => ?_) fun _ => ?_)))
  · exact .skip ht (Lexeme.isSymbol_iff.1 hclose) rfl (.bind (V := fun m items _ => Counted ends m (Node.allNodes items))
      (.pure .nil) fun m items j h => .current_bind (.pure (h.list _)))
  · refine (itemRow_tallies ht hread _).bind fun m items j h => .expectSymbol_bind ht ?_
    exact .bind (V := fun m items _ => Counted ends m (Node.allNodes items)) (.pure h)
      fun m items j h => .current_bind (.pure (h.list _))

section Blocks

include hends

/-- A block that is not to be left open reaches to its `end`. -/
theorem closedBlock_tallies {i : Nat} (hline : (Cursor.shown tokens i).lexeme = .newline) :
    TalliesAt tokens i 0 (closedBlock read) fun m body _ => CountedBody ends m body := by
  refine .skip ht hline rfl ((hread .statements _).bind fun m block j hblock => .expectEnd_bind ht fun hend => .pure ?_)
  obtain ⟨hcounted, hstop⟩ := hblock
  have hclosed : (Body.block block.node).stopsAt ends = true := by
    rw [Body.stopsAt, Body.isBlock, Bool.true_and, decide_eq_true_iff]
    show block.span.stop ∈ ends
    rw [hstop]
    exact (hends j).2 hend
  refine ⟨⟨m, ?_, hcounted.list _⟩, fun _ => hclosed⟩
  rw [hclosed]
  rfl

theorem bodyForm_tallies (i : Nat) : TalliesAt tokens i 0 (bodyForm read) fun m body _ => CountedBody ends m body := by
  refine .lexeme_bind (.ite (fun hline => ?_) fun _ => ?_)
  · exact closedBlock_tallies ht hends hread (Lexeme.isNewline_iff.1 hline)
  · exact (hread .expression i).bind fun m n j h => .pure (.inline h)

theorem choiceFrom_tallies {k : Keyword} (hk : (Lexeme.keyword k).isKeyword .end_ = false) (i : Nat) :
    TalliesAt tokens i 0 (choiceFrom read k) fun m c _ => Counted ends m c.node.nodes := by
  refine .expectKeyword_bind ht hk ((hread .expression _).bind fun m test j htest => ?_)
  refine .expectKeyword_bind ht rfl (.lexeme_bind (.ite (fun hline => ?_) fun _ => ?_))
  · refine .skip ht (Lexeme.isNewline_iff.1 hline) rfl ((hread .statements _).after fun mb block j hblock => ?_)
    obtain ⟨hcounted, hstop⟩ := hblock
    have hfirst : Counted ends (m + mb) (Case.mk test (.block block.node)).nodes := htest.append (hcounted.list _)
    have hstops : (Body.block block.node).stopsAt ends = (Cursor.shown tokens j).lexeme.isKeyword .end_ := by
      rw [Body.stopsAt, Body.isBlock, Bool.true_and, Bool.eq_iff_iff, decide_eq_true_iff, Lexeme.isKeyword_iff, ← hends j, ← hstop]
      rfl
    refine .lexeme_bind (.ite (fun hend => .take_bind ht (.pure ?_)) fun hopen => ?_)
    · -- The choice is the one case, and the `end` is its own.
      rw [← hstops]
      have hinner := hfirst.append .nil
      exact hinner.cons_body rfl fun _ => .inr ⟨_, [], rfl⟩
    · refine (hread .choiceTail j).after fun k tail j htail => .pure (Choice.counted hfirst ?_ htail)
      exact hstops.trans (Bool.not_eq_true _ ▸ hopen)
  · refine (hread .expression _).after fun mv value j hvalue => (hread .choiceTail j).after fun k tail j htail => .pure ?_
    exact Choice.counted (htest.append hvalue) rfl htail

theorem otherwiseForm_tallies (i : Nat) : TalliesAt tokens i 0 (otherwiseForm read) (Tallied tokens ends .otherwise) := by
  refine .lexeme_bind (.ite (fun helse => ?_) fun _ => .pure ⟨⟨0, rfl, .nil⟩, fun _ h => by cases h⟩)
  refine .skip ht (Lexeme.isKeyword_iff.1 helse) rfl ((bodyForm_tallies ht hends hread _).bind fun m body j h => .pure ?_)
  refine ⟨h.counted, ?_⟩
  rintro _ ⟨⟩
  exact h.closed

theorem countForm_tallies (i : Nat) : TalliesAt tokens i 0 (countForm read) (Tallied tokens ends .count) := by
  refine .expectKeyword_bind ht rfl (.bind (.expectName ht _) fun m name j hm => .expectSymbol_bind ht ?_)
  subst hm
  refine (hread .expression _).bind fun mf first j hfirst => .expectKeyword_bind ht rfl ?_
  refine (hread .expression _).after fun ml last j hlast => .lexeme_bind ?_
  -- What follows the step is the same whether there is one or not.
  have hrest : ∀ {j k : Nat} (step : Option Node), Counted ends k (Node.optionNodes step) →
      TalliesAt tokens j (mf + ml + k) (do
        expectKeyword .do_
        return .count name first last step (← bodyForm read)) (Tallied tokens ends .count) := by
    intro j k step hstep
    refine .expectKeyword_bind ht rfl ((bodyForm_tallies ht hends hread _).after fun mb body j hbody => .pure ?_)
    obtain ⟨⟨k', rfl, hcounted⟩, hclosed⟩ := hbody
    have hinner := hfirst.append (hlast.append (hstep.append hcounted))
    have hnode := hinner.cons_body (n := .count name first last step body) rfl fun hb => .inl (hclosed hb)
    rwa [show mf + (ml + (k + k')) + (body.stopsAt ends).toNat = mf + ml + k + (k' + (body.stopsAt ends).toNat) by omega] at hnode
  refine .ite (fun hstep => ?_) fun _ => .bind (V := fun m step _ => m = mf + ml ∧ step = none) (.pure ⟨rfl, rfl⟩) ?_
  · refine .skip ht (Lexeme.isKeyword_iff.1 hstep) rfl ((hread .expression _).after fun k step j hstep => ?_)
    refine .bind (V := fun m s _ => m = mf + ml + k ∧ s = some step) (.pure ⟨rfl, rfl⟩) ?_
    rintro _ _ j ⟨rfl, rfl⟩
    exact hrest (some step) hstep
  · rintro _ _ j ⟨rfl, rfl⟩
    exact hrest none .nil

theorem functionRest_tallies (name : Option Name) (i : Nat) :
    TalliesAt tokens i 0 (functionRest read name) (Tallied tokens ends .function) := by
  refine .bind (V := fun m _ _ => m = 0) (.lexeme_bind ?_) fun m parameters j hm => ?_
  · split
    · refine .bind (.commaSeparated ht (V := fun m _ => m = 0) (R := fun m _ => m = 0) (fun _ => .expectName ht _) (fun _ _ h => h)
        fun _ _ _ _ h h' => by rw [h, h']) fun m _ j hm => .expectSymbol_bind ht (.pure hm)
    · exact .expectSymbol_bind ht (.pure rfl)
  · subst hm
    refine .lexeme_bind (.ite (fun harrow => ?_) fun _ => .lexeme_bind (.ite (fun hline => ?_) fun _ => .fail _))
    · exact .skip ht (Lexeme.isSymbol_iff.1 harrow) rfl ((hread .expression _).bind fun m n j h => .pure
        (CountedBody.inline h).function)
    · exact (closedBlock_tallies ht hends hread (Lexeme.isNewline_iff.1 hline)).bind fun m body j h => .pure h.function

theorem functionForm_tallies (i : Nat) : TalliesAt tokens i 0 (functionForm read) (Tallied tokens ends .function) := by
  refine .expectKeyword_bind ht rfl (.lexeme_bind ?_)
  split
  · refine .bind (.expectName ht _) fun m name j hm => .expectSymbol_bind ht ?_
    subst hm
    refine .bind (V := fun m _ _ => m = 0) (.pure rfl) ?_
    rintro _ name j rfl
    exact functionRest_tallies ht hends hread name j
  · refine .expectSymbol_bind ht (.bind (V := fun m _ _ => m = 0) (.pure rfl) ?_)
    rintro _ name j rfl
    exact functionRest_tallies ht hends hread name j

end Blocks

end Forms

theorem body_tallies {tokens : List Token} (ht : Ended tokens) {ends : List Position}
    (hends : ∀ j, (Cursor.shown tokens j).span.stop ∈ ends ↔ (Cursor.shown tokens j).lexeme = .keyword .end_)
    {read : (p : Production) → Reading p.Result} (hread : ∀ p i, TalliesAt tokens i 0 (read p) (p.Tallied tokens ends))
    {named : Prop} (hrefuses : Refuses named (read .expression)) {φ : Position → Position} {g : Node → Node}
    {r' : Reading Node} (hback : Follows False φ g (read .expression) r') (i : Nat) :
    ∀ p : Production, TalliesAt tokens i 0 (body read p) (p.Tallied tokens ends)
  | .statements => statementsForm_tallies ht hread hback i
  | .expression => expressionForm_tallies ht hread i
  | .comparison => comparisonForm_tallies ht hread i
  | .sum => nodeChain_tallies ht rfl (hread .product i) (hread .product)
  | .product => nodeChain_tallies ht rfl (hread .factor i) (hread .factor)
  | .factor => factorForm_tallies ht hread i
  | .power => nodeChain_tallies ht rfl (hread .call i) (hread .factor)
  | .call => callForm_tallies ht hread i
  | .atom => atomForm_tallies ht hread i
  | .list => listForm_tallies ht hread i
  | .choice => (choiceFrom_tallies ht hends hread rfl i).bind fun _ _ _ h => .pure h
  | .elifChoice => choiceFrom_tallies ht hends hread rfl i
  | .otherwise => otherwiseForm_tallies ht hends hread i
  | .choiceTail => by
    refine .lexeme_bind (.ite (fun _ => ?_) fun _ => ?_)
    · exact (hread .elifChoice i).bind fun m c j h => .pure (.elif h)
    · exact (hread .otherwise i).bind fun m body j h => .pure h
  | .count => countForm_tallies ht hends hread i
  | .loop => fun n c' h => absurd h (not_reads_loopForm hrefuses _ c' n)
  | .function => functionForm_tallies ht hends hread i

/-- **The `end` tokens that a production reads are counted by its result.** -/
theorem readAt_tallies {tokens : List Token} (ht : Ended tokens) {ends : List Position}
    (hends : ∀ j, (Cursor.shown tokens j).span.stop ∈ ends ↔ (Cursor.shown tokens j).lexeme = .keyword .end_) :
    ∀ (d : Nat) (p : Production) (i : Nat), TalliesAt tokens i 0 (readAt d p) (p.Tallied tokens ends)
  | 0, _, _ => fun _ _ h => (reads_tooDeep.1 h).elim
  | d + 1, p, i => body_tallies ht hends (readAt_tallies ht hends d) (readAt_refuses d .expression rfl)
      (readAt_follows_self d .expression) i p

/-! ## Whole programs -/

theorem endsBetween_all (tokens : List Token) :
    endsBetween tokens 0 tokens.length = tokens.countP (·.lexeme.isKeyword .end_) := by
  rw [endsBetween, between, List.drop_zero, Nat.sub_zero, List.take_length, List.countP_map]
  rfl

/-- What is shown stops where an `end` does if it is that `end`. -/
theorem stop_mem_endStops {source : Source} {tokens : List Token} (htokens : Scan.tokens source = .ok tokens) (j : Nat) :
    (Cursor.shown tokens j).span.stop ∈ Scan.endStops tokens ↔ (Cursor.shown tokens j).lexeme = .keyword .end_ := by
  obtain ⟨i, hi⟩ : ∃ i, tokens[i]? = some (Cursor.shown tokens j) := by
    have hpos := (Ended.of_tokens htokens).length_pos
    by_cases hj : j < tokens.length
    · exact ⟨j, Cursor.getElem?_eq_shown hj⟩
    · refine ⟨tokens.length - 1, ?_⟩
      rw [Cursor.shown_eq_last (by omega), List.getLastD_eq_getLast?, List.getLast?_eq_getElem?,
        List.getElem?_eq_getElem (by omega)]
      rfl
  simp only [Scan.endStops, List.mem_map, List.mem_filter, Lexeme.isKeyword_iff]
  constructor
  · rintro ⟨t, ⟨hmem, hend⟩, hstop⟩
    obtain ⟨k, hk⟩ := List.getElem?_of_mem hmem
    cases Scan.tokens_stop_inj htokens hk hi hstop
    cases hk.symm.trans hi
    exact hend
  · intro hend
    exact ⟨_, ⟨List.mem_of_getElem? hi, hend⟩, rfl⟩

end Grammar

theorem countP_split {α : Type} {p q : α → Bool} (hqp : ∀ a, q a = true → p a = true) (as : List α) :
    as.countP q + as.countP (fun a => p a && !q a) = as.countP p := by
  induction as with
  | nil => rfl
  | cons a as ih =>
    have ha := hqp a
    rw [List.countP_cons, List.countP_cons, List.countP_cons, ← ih]
    cases hq : q a <;> cases hp : p a <;> simp_all <;> omega

open Grammar in
/-- **How many blocks are closed.**  The `end` tokens of a program and the nodes of its tree that end in a block and are not
closed are together as many as all nodes that end in a block; and those that are not closed are choices without `else`. -/
theorem Parse.program_closings {limits : Limits} {source : Source} {tokens : List Token} {tree : Node}
    (htokens : Scan.tokens source = .ok tokens) (h : Parse.program limits source = .ok tree) :
    tokens.countP (·.lexeme.isKeyword .end_) +
        tree.nodes.countP (fun n => n.endsInBlock && !n.isClosed (Scan.endStops tokens)) =
      tree.nodes.countP Node.endsInBlock ∧
    ∀ n ∈ tree.nodes, n.endsInBlock = true → n.isClosed (Scan.endStops tokens) = false →
      ∃ first more, n = .choice first more none := by
  have ht := Ended.of_tokens htokens
  obtain ⟨tokens', htokens', hprogram⟩ := Parse.program_eq_ok.1 h
  cases htokens.symm.trans htokens'
  rw [Cursor.start_eq_on] at hprogram
  obtain ⟨block, hblock, heof, rfl⟩ := reads_program.1 ⟨hprogram, rfl⟩
  obtain ⟨j, hc, -, hcounted, -⟩ := readAt_tallies ht (stop_mem_endStops htokens) limits.reading .statements 0 hblock
  obtain ⟨j', -, hc', ⟨-, hj, -⟩, -⟩ := readAt_sound ht limits.reading .statements ht.length_pos hblock
  obtain rfl : j = j' := Int.ofNat.inj (congrArg Cursor.index (hc.symm.trans hc'))
  rw [hc] at heof
  have hlast := ht.eq_last hj heof
  have hnodes : Counted (Scan.endStops tokens) (tokens.countP (·.lexeme.isKeyword .end_)) block.node.nodes := by
    have heof : (Cursor.shown tokens j).lexeme = .eof := heof
    rw [← endsBetween_all, ← hlast, endsBetween_append tokens (Nat.zero_le j) (Nat.le_succ j), endsBetween_succ ht, heof]
    rw [Nat.zero_add] at hcounted
    exact hcounted.list _
  refine ⟨?_, fun n hn hends hopen => ?_⟩
  · rw [hnodes.count]
    exact countP_split (fun n => Node.endsInBlock_of_isClosed) _
  · refine (hnodes.closed n hn hends).resolve_left ?_
    rw [hopen]
    simp

/-- The number of `end` tokens of a text, and of the nodes of its tree that end in a block. -/
def Parse.endings (limits : Limits) (source : Source) : Option (Nat × Nat) :=
  match Scan.tokens source, Parse.program limits source with
  | .ok tokens, .ok tree => some (tokens.countP (·.lexeme.isKeyword .end_), tree.nodes.countP Node.endsInBlock)
  | _, _ => none

theorem Parse.endings_eq_some {limits : Limits} {source : Source} {m k : Nat} :
    Parse.endings limits source = some (m, k) ↔ ∃ tokens tree, Scan.tokens source = .ok tokens ∧
      Parse.program limits source = .ok tree ∧ tokens.countP (·.lexeme.isKeyword .end_) = m ∧
      tree.nodes.countP Node.endsInBlock = k := by
  unfold Parse.endings
  cases Scan.tokens source <;> cases Parse.program limits source <;> simp

/-- A loop with a choice in it, both closed, and a choice in parentheses that is not. -/
def openSource : Source := ⟨"", "for i = 1 to 2 do\nif i then\ni\nend\nend\n(if 1 then\n2)"⟩

theorem Parse.program_closings_open : ∃ tokens tree, Scan.tokens openSource = .ok tokens ∧
    Parse.program .standard openSource = .ok tree ∧ tokens.countP (·.lexeme.isKeyword .end_) = 2 ∧
    tree.nodes.countP Node.endsInBlock = 3 ∧
    tree.nodes.countP (fun n => n.endsInBlock && !n.isClosed (Scan.endStops tokens)) = 1 := by
  obtain ⟨tokens, tree, htokens, htree, hends, hblocks⟩ :=
    Parse.endings_eq_some.1 (show Parse.endings .standard openSource = some (2, 3) by decide +kernel)
  have hcount := (Parse.program_closings htokens htree).1
  exact ⟨tokens, tree, htokens, htree, hends, hblocks, by omega⟩

/-- **A block that is not finished is read**: the choice ends in a block, and there is no `end`. -/
theorem unfinished_block_read : ∃ tokens tree, Scan.tokens ⟨"<stdin>", "if 1 then\n2"⟩ = .ok tokens ∧
    Parse.program .standard ⟨"<stdin>", "if 1 then\n2"⟩ = .ok tree ∧ tokens.countP (·.lexeme.isKeyword .end_) = 0 ∧
    tree.nodes.countP Node.endsInBlock = 1 :=
  Parse.endings_eq_some.1 (by decide +kernel)

end Scriptlet
