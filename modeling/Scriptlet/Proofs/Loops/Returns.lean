import Scriptlet.Proofs.Loops.Counting
import Scriptlet.Proofs.Sharing.Contents
/-!
# What nodes return

`e.Returns w d w'` says that an effect ends with a value of the datum `d` and leads from the world `w` to the world `w'`;
where the value comes from is left out.  There is a rule for each kind of node but choices and functions.  `e.Breaks w`
says that it ends with a fault, and is handed on by whatever the effect is part of.

A loop that counts keeps what each of its rounds keeps, or breaks with the first round that does (`eval_count_keeps`).  A
loop over a condition is followed through a row of worlds `u 0`, `u 1`, … that its rounds lead through, each round
returning a datum `d k`.  If the rounds are as many as the loop makes, it ends in the last of these worlds and returns what
its form makes of the data (`returns_loop`).
-/
namespace Scriptlet

/-- The effect ends with a value of the datum and leads from one world to another. -/
def Effect.Returns (e : Effect Value) (w : World) (d : Datum) (w' : World) : Prop :=
  ∃ v, e.run w = (.ok v, w') ∧ v.datum = d

/-- The effect ends with a fault. -/
def Effect.Breaks {α : Type} (e : Effect α) (w : World) : Prop := ∃ f w', e.run w = (.error (.fault f), w')

theorem Effect.Breaks.bind {α β : Type} {e : Effect α} {w : World} (h : e.Breaks w) (f : α → Effect β) :
    (e >>= f).Breaks w := by
  obtain ⟨fault, w', he⟩ := h
  exact ⟨fault, w', by rw [run_bind, he]⟩

theorem Effect.Breaks.of_run {α β : Type} {e : Effect α} {w u : World} {a : α} (he : e.run w = (.ok a, u)) {f : α → Effect β}
    (h : (f a).Breaks u) : (e >>= f).Breaks w := by
  obtain ⟨fault, w', hf⟩ := h
  exact ⟨fault, w', by rw [run_bind, he]; exact hf⟩

/-! ## Names -/

namespace World

variable {w : World} {c : Context}

/-- What a name is bound to, seen from a context. -/
def value? (w : World) (c : Context) (name : String) : Option Datum := w.scopes.get? c.scope name

/-- With a name bound in the scope of a context. -/
def bound (w : World) (c : Context) (name : String) (d : Datum) : World :=
  { w with scopes := w.scopes.set c.scope name (some d) }

theorem counting_eq_bound (w : World) (c : Context) (name : String) (i : Int) :
    w.counting c name i = w.bound c name (.number (.int i)) := rfl

theorem size_bound (w : World) (c : Context) (name : String) (d : Datum) :
    (w.bound c name d).scopes.size = w.scopes.size := Scopes.size_set _ _ _

end World

theorem Scopes.find?_set_of_ne {α : Type} {s : Scopes α} {scope : Nat} (hscope : scope < s.size) {x name : String}
    (hne : name ≠ x) (v : Option α) (fuel t : Nat) : (s.set scope x v).find? name fuel t = s.find? name fuel t := by
  induction fuel generalizing t with
  | zero => rfl
  | succ fuel ih =>
    cases hparent : s.parents[t]? with
    | none =>
      have hsize : s.all.size ≤ t := by
        rw [List.getElem?_eq_none_iff, Scopes.length_parents] at hparent
        exact hparent
      have hset : (s.set scope x v).all[t]? = none := by
        rw [Array.getElem?_eq_none_iff]
        exact Nat.le_trans (Nat.le_of_eq (Scopes.size_set scope x v)) hsize
      rw [Scopes.find?, Scopes.find?, hset, Array.getElem?_eq_none hsize]
    | some parent =>
      have hown : (s.set scope x v).ownAt? t name = s.ownAt? t name := by
        rw [Scopes.ownAt?_set hscope, if_neg fun h => hne h.2]
      rw [Scopes.find?_succ hparent, Scopes.find?_succ ((Scopes.parents_set scope x v).symm ▸ hparent), hown]
      cases parent with
      | none => rfl
      | some p => rw [Option.bind_some, Option.bind_some, ih]

/-- What a name is bound to after one has been bound. -/
theorem World.value?_bound {w : World} {c : Context} (hscope : c.scope < w.scopes.size) (x : String) (d : Datum)
    (name : String) : (w.bound c x d).value? c name = if name = x then some d else w.value? c name := by
  by_cases hname : name = x
  · subst hname
    rw [if_pos rfl]
    exact Eval.get?_set_self hscope name d
  · rw [if_neg hname]
    exact Scopes.find?_set_of_ne hscope hname _ _ _

theorem World.run_elements {w : World} {cell : Nat} {items : Array Datum} (hcell : w.lists[cell]? = some items) :
    (Effect.elements cell).run w = (.ok items, w) := by
  show (Except.ok (w.lists[cell]?.getD #[]), w) = _
  rw [hcell]
  rfl

/-! ## Operators -/

namespace Value

variable {l r : Value} {w : World}

theorem derived_returns (v : Value) (d : Datum) (w : World) : (v.derived d).Returns w d w := by
  obtain ⟨datum, site⟩ := v
  cases datum <;> exact ⟨_, rfl, rfl⟩

theorem binary_ints {op : BinaryOp} (hop : op.divides = false) {a b : Int} (hl : l.datum = .number (.int a))
    (hr : r.datum = .number (.int b)) {x : Scalar} (h : op.onScalars (.int a) (.int b) = .ok x) :
    (l.binary op r).Returns w (.number x) w := by
  have hbinary : l.binary op r = l.derived (.number x) := by
    rw [binary, hl]
    simp only [binaryNumber, hr, Datum.scalar?, hop, Bool.false_and, h]
    rfl
  rw [hbinary]
  exact derived_returns l _ w

theorem binary_strings {s t : String} (hl : l.datum = .string s) (hr : r.datum = .string t) :
    (l.binary .add r).Returns w (.string (s ++ t)) w := by
  have hbinary : l.binary .add r = l.derived (.string (s ++ t)) := by
    rw [binary, hl]
    simp only [binaryString, hr]
  rw [hbinary]
  exact derived_returns l _ w

theorem binary_same_strings {s t : String} (hl : l.datum = .string s) (hr : r.datum = .string t) :
    (l.binary .eq r).Returns w (.number (.ofBool (s == t))) w := by
  have hbinary : l.binary .eq r = l.derived (.number (.ofBool (s == t))) := by
    rw [binary, hl]
    simp only [binaryString, hr]
  rw [hbinary]
  exact derived_returns l _ w

section Repetition

variable {k : Int} (hr : r.datum = .number (.int k))

include hr

theorem binary_mul_string {s : String} (hl : l.datum = .string s) :
    l.binary .mul r = Effect.lift (Scalar.repeatText s (.int k)) >>= fun t => l.derived (.string t) := by
  rw [binary, hl]
  simp only [binaryString, hr, Datum.scalar?]

theorem binary_mul_list {cell : Nat} (hl : l.datum = .list cell) :
    l.binary .mul r = Effect.elements cell >>= fun items =>
      Effect.lift (repeatItems items (.int k)) >>= fun copies => Effect.newList copies >>= l.derived := by
  rw [binary, hl]
  simp only [binaryList, hr, Datum.scalar?]

/-- A string is repeated, or the copies are too many. -/
theorem binary_mul_string_cases {s : String} (hl : l.datum = .string s) :
    (∀ t, Scalar.repeatText s (.int k) = .ok t → (l.binary .mul r).Returns w (.string t) w) ∧
    ∀ f, Scalar.repeatText s (.int k) = .error f → (l.binary .mul r).Breaks w := by
  rw [binary_mul_string hr hl]
  constructor
  · intro t ht
    obtain ⟨v, hv, hd⟩ := derived_returns l (.string t) w
    refine ⟨v, ?_, hd⟩
    rw [Effect.run_bind, ht]
    exact hv
  · intro f hf
    rw [hf]
    exact ⟨f, w, rfl⟩

/-- A list is repeated as a new one, or the copies are too many. -/
theorem binary_mul_list_cases {cell : Nat} (hl : l.datum = .list cell) {items : Array Datum}
    (hcell : w.lists[cell]? = some items) :
    (∀ copies, repeatItems items (.int k) = .ok copies →
      (l.binary .mul r).Returns w (.list w.lists.size) (w.widened copies)) ∧
    ∀ f, repeatItems items (.int k) = .error f → (l.binary .mul r).Breaks w := by
  have helements := World.run_elements hcell
  rw [binary_mul_list hr hl]
  constructor
  · intro copies hcopies
    obtain ⟨v, hv, hd⟩ := derived_returns l (.list w.lists.size) (w.widened copies)
    refine ⟨v, ?_, hd⟩
    rw [Effect.run_bind, helements]
    simp only [hcopies]
    exact hv
  · intro f hf
    apply Effect.Breaks.of_run helements
    rw [hf]
    exact ⟨f, w, rfl⟩

end Repetition

theorem negation_string {v : Value} {s : String} (hv : v.datum = .string s) (w : World) :
    v.negation.Returns w (.number (.ofBool s.isEmpty)) w := by
  have hnegation : v.negation = v.derived (.number (.ofBool (!!s.isEmpty))) := by
    simp only [negation, isTrue, hv]
    rfl
  rw [hnegation, Bool.not_not]
  exact derived_returns v _ w

theorem negation_list {v : Value} {cell : Nat} (hv : v.datum = .list cell) (w : World) :
    v.negation.Returns w (.number (.ofBool (w.lists[cell]?.getD #[]).isEmpty)) w := by
  have hnegation : v.negation.run w = (v.derived (.number (.ofBool (!!(w.lists[cell]?.getD #[]).isEmpty)))).run w := by
    simp only [negation, isTrue, hv]
    rfl
  obtain ⟨x, hx, hd⟩ := derived_returns v (.number (.ofBool (w.lists[cell]?.getD #[]).isEmpty)) w
  refine ⟨x, ?_, hd⟩
  rw [hnegation, Bool.not_not]
  exact hx

end Value

theorem Effect.resite_returns {v : Value} (hv : v.datum ≠ .null) (f : Site → Site) (w : World) :
    (Effect.resite v f).Returns w v.datum w := by
  obtain ⟨d, site⟩ := v
  cases d with
  | null => exact absurd rfl hv
  | _ => exact ⟨_, rfl, rfl⟩

namespace Eval

open Effect

/-! ## Nodes -/

section Nodes

variable {limits : Limits} {depth : Nat} {c : Context} {w u w' : World} {d e : Datum}

theorem returns_number (x : Numeral) (span : Span) :
    (eval limits (depth + 1) (.number x span) c).Returns w (.number x.toScalar) w := ⟨_, rfl, rfl⟩

theorem returns_string (s : String) (span : Span) :
    (eval limits (depth + 1) (.string s span) c).Returns w (.string s) w := ⟨_, rfl, rfl⟩

theorem returns_access {name : Name} (h : w.value? c name.text = some d) (hcopy : d.copy = .ok e) :
    (eval limits (depth + 1) (.access name) c).Returns w e w := by
  have hlookup : (lookup c name.text).run w = (.ok (some d), w) := congrArg (fun o => (Except.ok o, w)) h
  refine ⟨.placed e name.span c, ?_, rfl⟩
  simp only [eval, step, run_bind, hlookup, hcopy]
  rfl

theorem returns_assign (name : Name) {value : Node} (h : (eval limits depth value c).Returns w d w') :
    (eval limits (depth + 1) (.assign name value) c).Returns w d (w'.bound c name.text d) := by
  obtain ⟨v, hv, rfl⟩ := h
  refine ⟨v, ?_, rfl⟩
  simp only [eval, step, run_bind, hv]
  rfl

theorem returns_binary {l r : Node} {lexeme : Lexeme} {op : BinaryOp} (hop : BinaryOp.ofLexeme? lexeme = some op)
    {w₁ w₂ : World} {f : Datum} (hl : (eval limits depth l c).Returns w d w₁) (hr : (eval limits depth r c).Returns w₁ e w₂)
    (h : ∀ v v' : Value, v.datum = d → v'.datum = e → (v.binary op v').Returns w₂ f w') (hf : f ≠ .null) :
    (eval limits (depth + 1) (.binary l lexeme r) c).Returns w f w' := by
  obtain ⟨v, hv, hd⟩ := hl
  obtain ⟨v', hv', he⟩ := hr
  obtain ⟨x, hx, rfl⟩ := h v v' hd he
  obtain ⟨y, hy, hdatum⟩ := resite_returns hf ({ · with span := some (Node.binary l lexeme r).span }) w'
  refine ⟨y, ?_, hdatum⟩
  simp only [eval, step, run_bind, hv, hv', hop, hx, hy]

theorem returns_opposite {op : Token} (hop : op.lexeme = .symbol .minus) {n : Node} {a : Int}
    (h : (eval limits depth n c).Returns w (.number (.int a)) w') :
    (eval limits (depth + 1) (.unary op n) c).Returns w (.number (.int (-a))) w' := by
  have hmul : BinaryOp.mul.onScalars (.int a) (.int (-1)) = .ok (.int (-a)) := by
    rw [← Int.mul_neg_one a]
    rfl
  obtain ⟨v, hv, hd⟩ := h
  obtain ⟨x, hx, hxd⟩ : (v.opposite).Returns w' (.number (.int (-a))) w' := Value.binary_ints rfl hd rfl hmul
  obtain ⟨y, hy, hyd⟩ := resite_returns (by rw [hxd]; simp) ({ · with span := some (Node.unary op n).span }) w'
  refine ⟨y, ?_, hyd.trans hxd⟩
  simp only [eval, step, run_bind, hv, hop, hx, hy]

theorem returns_negation {op : Token} (hop : op.lexeme = .keyword .not) {n : Node} {x : Scalar}
    (h : (eval limits depth n c).Returns w d w') (hx : ∀ v : Value, v.datum = d → v.negation.Returns w' (.number x) w') :
    (eval limits (depth + 1) (.unary op n) c).Returns w (.number x) w' := by
  obtain ⟨v, hv, hd⟩ := h
  obtain ⟨y, hy, hyd⟩ := hx v hd
  obtain ⟨z, hz, hzd⟩ := resite_returns (by rw [hyd]; simp) ({ · with span := some (Node.unary op n).span }) w'
  refine ⟨z, ?_, hzd.trans hyd⟩
  simp only [eval, step, run_bind, hv, hop, hy, hz]

theorem breaks_assign (name : Name) {value : Node} (h : (eval limits depth value c).Breaks w) :
    (eval limits (depth + 1) (.assign name value) c).Breaks w := h.bind _

theorem breaks_binary {l r : Node} {lexeme : Lexeme} {op : BinaryOp} (hop : BinaryOp.ofLexeme? lexeme = some op)
    {w₁ w₂ : World} (hl : (eval limits depth l c).Returns w d w₁) (hr : (eval limits depth r c).Returns w₁ e w₂)
    (h : ∀ v v' : Value, v.datum = d → v'.datum = e → (v.binary op v').Breaks w₂) :
    (eval limits (depth + 1) (.binary l lexeme r) c).Breaks w := by
  obtain ⟨v, hv, hd⟩ := hl
  obtain ⟨v', hv', he⟩ := hr
  apply Effect.Breaks.of_run hv
  apply Effect.Breaks.of_run hv'
  simp only [hop]
  exact (h v v' hd he).bind _

/-- A list applied to an index. -/
theorem returns_index {callee argument : Node} {cell : Nat} {i : Int} {w₁ : World} {items : Array Datum}
    (hc : (eval limits depth callee c).Returns w (.list cell) w₁)
    (ha : (eval limits depth argument c).Returns w₁ (.number (.int i)) w') (hcell : w'.lists[cell]? = some items)
    (hd : element? items (.int i) = some d) (hcopy : d.copy = .ok e) :
    (eval limits (depth + 1) (.call callee [argument]) c).Returns w e w' := by
  obtain ⟨⟨_, site⟩, hv, rfl⟩ := hc
  obtain ⟨a, ha, had⟩ := ha
  have helements := World.run_elements hcell
  have hsite (u : World) (site : Site) : (siteOf ⟨.list cell, site⟩).run u = (.ok site, u) := rfl
  have hindex (site : Site) : (apply limits (eval limits depth) ⟨.list cell, site⟩ [a]).run w' = (.ok ⟨d, .none⟩, w') := by
    rw [apply, run_bind, hsite]
    simp only [index, run_bind, hsite, had, Datum.scalar?, helements, hd]
    rfl
  have hall : (evalAll (eval limits depth) c [argument]).run w₁ = (.ok [a], w') := by
    simp only [evalAll, run_bind, ha]
    rfl
  have hlift {x y : Datum} (h : x.copy = .ok y) (u : World) : (lift x.copy).run u = (.ok y, u) := by
    rw [h]
    rfl
  refine ⟨.placed e (Node.call callee [argument]).span c, ?_, rfl⟩
  simp only [eval, step, run_bind, hv, hsite, hlift (x := .list cell) rfl, hall, hindex, hlift hcopy]
  rfl

end Nodes

/-! ## Rows of nodes -/

/-- Nodes evaluated one after the other return the data. -/
inductive ReturnsAll (sub : Evaluator) (c : Context) : List Node → World → List Datum → World → Prop
  | nil {w : World} : ReturnsAll sub c [] w [] w
  | cons {n : Node} {ns : List Node} {w u w' : World} {d : Datum} {ds : List Datum} : (sub n c).Returns w d u →
      ReturnsAll sub c ns u ds w' → ReturnsAll sub c (n :: ns) w (d :: ds) w'

section Rows

variable {sub : Evaluator} {c : Context} {ns : List Node} {w w' : World} {ds : List Datum}

theorem ReturnsAll.evalAll (h : ReturnsAll sub c ns w ds w') :
    ∃ vs, (evalAll sub c ns).run w = (.ok vs, w') ∧ vs.map Value.datum = ds := by
  induction h with
  | nil => exact ⟨[], rfl, rfl⟩
  | cons hn _ ih =>
    obtain ⟨v, hv, rfl⟩ := hn
    obtain ⟨vs, hvs, rfl⟩ := ih
    refine ⟨v :: vs, ?_, rfl⟩
    simp only [Eval.evalAll, run_bind, hv, hvs]
    rfl

theorem ReturnsAll.runStatements (h : ReturnsAll sub c ns w ds w') : (runStatements sub c ns).run w = (.ok (), w') := by
  induction h with
  | nil => rfl
  | cons hn _ ih =>
    obtain ⟨v, hv, -⟩ := hn
    simp only [Eval.runStatements, run_bind, hv, ih]

theorem returns_list {limits : Limits} {depth : Nat} (span : Span) (h : ReturnsAll (eval limits depth) c ns w ds w') :
    (eval limits (depth + 1) (.list ns span) c).Returns w (.list w'.lists.size) (w'.widened ds.toArray) := by
  obtain ⟨vs, hvs, rfl⟩ := h.evalAll
  refine ⟨.placed (.list w'.lists.size) span c, ?_, rfl⟩
  rw [eval_list, hvs]
  rfl

theorem returns_block (span : Span) (h : ReturnsAll sub c ns w ds w') :
    (runBody sub (.block (.list ns span)) c).Returns w .null w' := by
  refine ⟨.null, ?_, rfl⟩
  simp only [runBody, run_bind, h.runStatements]
  rfl

/-- After some nodes have returned, the next one breaks. -/
theorem ReturnsAll.breaks (h : ReturnsAll sub c ns w ds w') {n : Node} (hn : (sub n c).Breaks w') (rest : List Node) :
    (Eval.evalAll sub c (ns ++ n :: rest)).Breaks w := by
  induction h with
  | nil => exact hn.bind _
  | cons hfirst _ ih =>
    obtain ⟨v, hv, -⟩ := hfirst
    exact .of_run hv ((ih hn).bind _)

theorem runStatements_breaks_tail {n : Node} {d : Datum} (hn : (sub n c).Returns w d w')
    (h : (Eval.runStatements sub c ns).Breaks w') : (Eval.runStatements sub c (n :: ns)).Breaks w := by
  obtain ⟨v, hv, -⟩ := hn
  exact .of_run hv h

end Rows

/-! ## Loops -/

/-- What a loop returns whose rounds have returned the data, and the world it leaves. -/
def loopResult (ds : List Datum) (u : World) : Body → Datum × World
  | .block _ => (.null, u)
  | .inline _ => (.list u.lists.size, u.widened ds.toArray)

theorem loopValue_returns (node : Node) (c : Context) (body : Body) (ds : List Datum) (u : World) :
    (loopValue node c body ds.toArray).Returns u (loopResult ds u body).1 (loopResult ds u body).2 := by
  cases body <;> exact ⟨_, rfl, rfl⟩

section Counting

theorem counts_by_one (s e : Int) : counts s e 1 = (e - s).toNat := by
  simp [counts]

/-- The rounds keep what each of them keeps, up to the first that breaks. -/
theorem visits_keep {body : Effect Value} {c : Context} {name : String} {s : Int} {w : World} {I : Nat → World → Prop}
    {P : Nat → Prop} (hstart : I 0 w)
    (hround : ∀ k u, I k u → P k ∧ (∃ d u', body.Returns (u.counting c name (s + k)) d u' ∧ I (k + 1) u') ∨
      ¬ P k ∧ body.Breaks (u.counting c name (s + k))) (m : Nat) :
    ∃ k ≤ m, ∃ vs u, Visits body c name s 1 w k vs u ∧ I k u ∧ (∀ j < k, P j) ∧
      (k = m ∨ ¬ P k ∧ body.Breaks (u.counting c name (s + k))) := by
  induction m with
  | zero => exact ⟨0, Nat.le_refl 0, [], w, .none, hstart, fun _ hj => absurd hj (Nat.not_lt_zero _), .inl rfl⟩
  | succ m ih =>
    obtain ⟨k, hk, vs, u, hvisits, hu, hbefore, rfl | hbreaks⟩ := ih
    · rcases hround k u hu with ⟨hp, d, u', ⟨v, hv, -⟩, hu'⟩ | hbreaks
      · refine ⟨k + 1, Nat.le_refl _, _, u', hvisits.more (by rw [Int.mul_one]; exact hv), hu', fun j hj => ?_, .inl rfl⟩
        rcases Nat.lt_succ_iff_lt_or_eq.1 hj with hj | rfl
        · exact hbefore j hj
        · exact hp
      · exact ⟨k, Nat.le_succ k, vs, u, hvisits, hu, hbefore, .inr hbreaks⟩
    · exact ⟨k, Nat.le_succ_of_le hk, vs, u, hvisits, hu, hbefore, .inr hbreaks⟩

/-- **A loop that counts by one** from `s` makes a round for every number before `e`.  It keeps what its rounds keep, and
breaks if one of them does. -/
theorem eval_count_keeps {limits : Limits} {depth : Nat} {c : Context} {first last : Node} (name : Name) {block : Node}
    {s e : Int} {w w₁ w₂ : World} {I : Nat → World → Prop} {P : Nat → Prop}
    (hfirst : (eval limits depth first c).Returns w (.number (.int s)) w₁)
    (hlast : (eval limits depth last c).Returns w₁ (.number (.int e)) w₂) (hrounds : (e - s).toNat < limits.rounds)
    (hstart : I 0 w₂)
    (hround : ∀ k u, I k u →
      P k ∧ (∃ d u', (runBody (eval limits depth) (.block block) c).Returns (u.counting c name.text (s + k)) d u' ∧
          I (k + 1) u') ∨
      ¬ P k ∧ (runBody (eval limits depth) (.block block) c).Breaks (u.counting c name.text (s + k))) :
    let loop := eval limits (depth + 1) (.count name first last none (.block block)) c
    (∀ k < (e - s).toNat, P k) ∧ (∃ u, loop.Returns w .null u ∧ I (e - s).toNat u) ∨
      ¬ (∀ k < (e - s).toNat, P k) ∧ loop.Breaks w := by
  obtain ⟨v₁, hv₁, hs⟩ := hfirst
  obtain ⟨v₂, hv₂, he⟩ := hlast
  have hbounds : Bounds (eval limits depth) c first last none w s e 1 w₂ :=
    ⟨v₁, v₂, w₁, w₂, hv₁, by rw [hs]; rfl, hv₂, by rw [he]; rfl, rfl, rfl⟩
  have hcounts := counts_by_one s e
  obtain ⟨k, hk, vs, u, hvisits, hu, hbefore, hend⟩ := visits_keep hstart hround (e - s).toNat
  obtain ⟨fuel, hfuel⟩ := Nat.exists_eq_add_of_lt (Nat.lt_of_le_of_lt hk hrounds)
  have hrest := eval_count_visits hbounds Int.one_ne_zero hvisits (Nat.le_trans hk (Nat.le_of_eq hcounts.symm))
    (hfuel.trans (Nat.add_assoc k fuel 1))
  by_cases hlast : k = (e - s).toNat
  · subst hlast
    refine .inl ⟨hbefore, u, ⟨.null, ?_, rfl⟩, hu⟩
    rw [hrest, run_bind, countRounds_done Int.one_ne_zero (Nat.le_of_eq hcounts)]
    rfl
  · obtain ⟨hp, hbreaks⟩ := hend.resolve_left hlast
    have hk : k < (e - s).toNat := Nat.lt_of_le_of_ne hk hlast
    obtain ⟨f, u', hf⟩ := hbreaks
    refine .inr ⟨fun hall => hp (hall k hk), f, u', ?_⟩
    rw [hrest, run_bind, countRounds_visit Int.one_ne_zero (Nat.lt_of_lt_of_eq hk hcounts.symm), run_bind, Int.mul_one, hf]

end Counting

section Testing

variable {sub : Evaluator} {c : Context} {test : Node} {body : Body}

theorem run_test {w w' : World} {b : Bool} (h : (sub test c).Returns w (.number (.ofBool b)) w') :
    (sub test c >>= Value.isTrue).run w = (.ok b, w') := by
  obtain ⟨v, hv, hd⟩ := h
  have htrue : v.isTrue.run w' = (.ok b, w') := by
    rw [Value.isTrue, hd]
    cases b <;> rfl
  rw [run_bind, hv]
  exact htrue

theorem whileRounds_visit {u u' : World} {d : Datum} (htest : (sub test c >>= Value.isTrue).run u = (.ok true, u))
    (hbody : (runBody sub body c).Returns u d u') (fuel : Nat) (items : Array Datum) :
    (whileRounds sub c test body (fuel + 1) items).run u = (whileRounds sub c test body fuel (items.push d)).run u' := by
  obtain ⟨v, hv, rfl⟩ := hbody
  rw [whileRounds, ← bind_assoc, run_bind, htest]
  simp only [if_pos, run_bind, hv]

theorem whileRounds_done {u : World} (htest : (sub test c >>= Value.isTrue).run u = (.ok false, u)) (fuel : Nat)
    (items : Array Datum) : (whileRounds sub c test body (fuel + 1) items).run u = (.ok items, u) := by
  rw [whileRounds, ← bind_assoc, run_bind, htest]
  rfl

/-- A round leads from each world to the next, and the condition holds in all but the last. -/
theorem whileRounds_follow {m : Nat} {u : Nat → World} {d : Nat → Datum}
    (htest : ∀ k ≤ m, (sub test c >>= Value.isTrue).run (u k) = (.ok (decide (k < m)), u k))
    (hbody : ∀ k < m, (runBody sub body c).Returns (u k) (d k) (u (k + 1))) (extra : Nat) (items : Array Datum) :
    (whileRounds sub c test body (m + extra + 1) items).run (u 0) = (.ok (items ++ ((List.range m).map d).toArray), u m) := by
  induction m generalizing u d items with
  | zero =>
    rw [whileRounds_done (htest 0 (Nat.le_refl 0))]
    simp
  | succ m ih =>
    have hfirst : (sub test c >>= Value.isTrue).run (u 0) = (.ok true, u 0) := htest 0 (Nat.zero_le _)
    have hrest : ∀ k ≤ m, (sub test c >>= Value.isTrue).run (u (k + 1)) = (.ok (decide (k < m)), u (k + 1)) := by
      intro k hk
      simpa using htest (k + 1) (Nat.succ_le_succ hk)
    rw [Nat.succ_add, whileRounds_visit hfirst (hbody 0 (Nat.succ_pos m)),
      ih (u := fun k => u (k + 1)) (d := fun k => d (k + 1)) hrest fun k hk => hbody (k + 1) (Nat.succ_lt_succ hk)]
    simp [List.range_succ_eq_map, Function.comp_def]

/-- **A loop over a condition** makes rounds until the condition fails. -/
theorem returns_loop {limits : Limits} {depth m : Nat} {u : Nat → World} {d : Nat → Datum} (hrounds : m < limits.rounds)
    (htest : ∀ k ≤ m, (eval limits depth test c >>= Value.isTrue).run (u k) = (.ok (decide (k < m)), u k))
    (hbody : ∀ k < m, (runBody (eval limits depth) body c).Returns (u k) (d k) (u (k + 1))) :
    let result := loopResult ((List.range m).map d) (u m) body
    (eval limits (depth + 1) (.loop test body) c).Returns (u 0) result.1 result.2 := by
  obtain ⟨extra, hextra⟩ := Nat.exists_eq_add_of_lt hrounds
  obtain ⟨v, hv, hd⟩ := loopValue_returns (.loop test body) c body ((List.range m).map d) (u m)
  refine ⟨v, ?_, hd⟩
  have hfollow := whileRounds_follow htest hbody extra #[]
  rw [Array.empty_append] at hfollow
  simp only [eval, step, run_bind, hextra, hfollow, hv]

end Testing

end Eval

theorem Session.evaluate_of_returns {s : Session} {name : String} {n : Node} {d : Datum} {w : World}
    (h : (eval s.limits s.limits.evaluation n (rootContext name)).Returns s.world d w) :
    ∃ v, s.evaluate name n = (.value v, ⟨w, s.limits⟩) ∧ v.datum = d := by
  obtain ⟨v, hv, hd⟩ := h
  refine ⟨v, ?_, hd⟩
  rw [Session.evaluate, Session.perform, hv]

theorem Session.evaluate_of_breaks {s : Session} {name : String} {n : Node}
    (h : (eval s.limits s.limits.evaluation n (rootContext name)).Breaks s.world) :
    ∃ f t, s.evaluate name n = (.fault f, t) := by
  obtain ⟨f, w, hf⟩ := h
  refine ⟨f, ⟨w, s.limits⟩, ?_⟩
  rw [Session.evaluate, Session.perform, hf]

/-! ## Texts of what is returned -/

theorem Text.ofInt_eq_ok {i : Int} (h : i.natAbs < Nat.pow 10 digitLimit) : ofInt i = .ok (toString i) := if_pos h

theorem Text.ofInt_eq_error {i : Int} (h : Nat.pow 10 digitLimit ≤ i.natAbs) : ofInt i = .error .digitLimit :=
  if_neg (Nat.not_lt.2 h)

theorem mapM_map_eq_ok {α β γ : Type} {f : α → β} {g : β → Except Fault γ} {h : α → γ} {xs : List α}
    (hxs : ∀ x ∈ xs, g (f x) = .ok (h x)) : (xs.map f).mapM g = .ok (xs.map h) := by
  induction xs with
  | nil => rfl
  | cons x xs ih =>
    rw [List.map_cons, List.mapM_cons, hxs x List.mem_cons_self, ih fun y hy => hxs y (List.mem_cons_of_mem x hy)]
    rfl

namespace World

variable {w : World} {depth cell : Nat}

/-- A list is printed as the texts of its elements, divided by commas. -/
theorem text_list {items : Array Datum} {x : Except Fault (List String)} (hcell : w.lists[cell]? = some items)
    (h : items.toList.mapM (w.text depth) = x) :
    w.text (depth + 1) (.list cell) = x.map (String.intercalate ", ") := by
  rw [text, hcell, Option.getD_some, h]
  cases x <;> rfl

theorem display_list (w : World) (depth cell : Nat) :
    (w.display depth (.list cell)).toOption = (w.text depth (.list cell)).toOption.map fun s => "[" ++ s ++ "]" := by
  rw [display]
  cases w.text depth (.list cell) <;> rfl

theorem text_int (w : World) (depth : Nat) (i : Int) : w.text (depth + 1) (.number (.int i)) = Text.ofInt i := rfl

/-- A list of numbers that can all be written. -/
theorem text_numbers {xs : List Int} (hcell : w.lists[cell]? = some (xs.map fun i => .number (.int i)).toArray) (depth : Nat)
    (hxs : ∀ i ∈ xs, i.natAbs < Nat.pow 10 Text.digitLimit) :
    w.text (depth + 2) (.list cell) = .ok (String.intercalate ", " (xs.map toString)) := by
  have htext : ∀ i ∈ xs, w.text (depth + 1) (.number (.int i)) = .ok (toString i) := by
    intro i hi
    rw [text_int, Text.ofInt_eq_ok (hxs i hi)]
  rw [text_list hcell (mapM_map_eq_ok htext)]
  rfl

/-- A list of numbers whose first cannot be written. -/
theorem text_numbers_beyond {x : Int} {xs : List Int}
    (hcell : w.lists[cell]? = some ((x :: xs).map fun i => .number (.int i)).toArray) (depth : Nat)
    (hx : Nat.pow 10 Text.digitLimit ≤ x.natAbs) : w.text (depth + 2) (.list cell) = .error .digitLimit := by
  have hitems : ((x :: xs).map fun i => Datum.number (.int i)).mapM (w.text (depth + 1)) = .error .digitLimit := by
    rw [List.map_cons, List.mapM_cons, text_int, Text.ofInt_eq_error hx]
    rfl
  rw [text_list hcell hitems]
  rfl

end World

end Scriptlet
