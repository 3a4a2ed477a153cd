import Scriptlet.Proofs.History.Agree
/-!
# Evaluations that agree

The same node, evaluated in contexts with the same calls and in worlds that have in common what `Past.Meets` says, gives twins
or stops alike: `eval_agree`.  The value is also of a kind that the node may give, which tells where errors have no place.

The proof follows the evaluator: a lemma for each operator, call and loop, then one for each node in terms of its parts
(`step_agree`), then an induction on the depth.
-/
namespace Scriptlet

variable {Γ : Past} {j k : Nat} {c c' : Context}

theorem Node.ne_null_of_mayGive {n : Node} {d : Datum} (h : n.mayGive d.kind = true) (hn : n.mayGive .null = false) :
    d ≠ .null := by
  rintro rfl
  rw [Datum.kind, hn] at h
  cases h

theorem Datum.kind_ne_null {d : Datum} (h : d ≠ .null) : d.kind ≠ .null := by
  cases d with
  | null => exact absurd rfl h
  | _ => exact Kind.noConfusion

/-! ## Operators -/

theorem Node.isTidy_of_isFair {tidy : Bool} {n : Node} (h : n.isFair tidy = true) (ht : tidy = true) :
    n.isTidy = true := by
  subst ht
  exact h

namespace Value

/-- The value is not null, and comes from some place. -/
def HasPlace (v : Value) : Prop := v.datum ≠ .null ∧ v.site.span.isSome = true

theorem derived_agree {v v' : Value} (hv : Γ.Twin c c' j v v') {d d' : Datum} (hd : d.Linked id (Γ.Cell j) d')
    (hkind : d.kind = .plain) : Agree Γ j k k Γ.Product (v.derived d) (v'.derived d') :=
  .bind (.siteOf hv) fun _ hj _ _ hs => .pure ⟨hd.mono (Past.Cell.mono hj), hkind, hs.1.context⟩

section Binary

variable {l l' r r' : Value} (hl : Γ.Twin c c' j l l') (hr : Γ.Operand j r r')
  (hplaced : Γ.tidy = true → l.datum ≠ .null ∧ r.HasPlace)

include hl hr hplaced

theorem illegal_agree {α β : Type} {R : Nat → α → β → Prop} {m : Nat} :
    Agree Γ j k m R (l.illegal r) (l'.illegal r') := by
  refine .bind (.siteOf hl) fun j₁ hj s s' hs => .bind (.siteOf_span (hr.mono hj)) fun _ _ t t' ht => .fail ?_
  refine ⟨rfl, hs.1.start, congrArg (Option.map Span.stop) ht.1, hs.1.context, ?_⟩
  cases htidy : Γ.tidy with
  | false => exact .inr ⟨rfl, rfl⟩
  | true =>
    obtain ⟨hnull, hplace⟩ := hplaced htidy
    left
    rw [RuntimeError.isPlaced, (hs.2 hnull).1, ht.2 hplace.1, Site.start, Site.stop, Option.isSome_map, Option.isSome_map,
      (hl.site hnull).1, hplace.2]
    rfl

theorem divisionByZero_agree {α β : Type} {R : Nat → α → β → Prop} {m : Nat} : Agree Γ j k m R
    (do let s ← Effect.siteOf l; let t ← Effect.siteOf r; Effect.fail ⟨.divisionByZero, t.start, t.stop, s.context⟩)
    (do let s ← Effect.siteOf l'; let t ← Effect.siteOf r'; Effect.fail ⟨.divisionByZero, t.start, t.stop, s.context⟩) := by
  refine .bind (.siteOf hl) fun j₁ hj s s' hs => .bind (.siteOf_span (hr.mono hj)) fun _ _ t t' ht => .fail ?_
  refine ⟨rfl, congrArg (Option.map Span.start) ht.1, congrArg (Option.map Span.stop) ht.1, hs.1.context, ?_⟩
  cases htidy : Γ.tidy with
  | false => exact .inr ⟨rfl, rfl⟩
  | true =>
    obtain ⟨-, hplace⟩ := hplaced htidy
    left
    rw [RuntimeError.isPlaced, ht.2 hplace.1, Site.start, Site.stop, Option.isSome_map, Option.isSome_map, hplace.2]
    rfl

theorem binaryNumber_agree (op : BinaryOp) (x : Scalar) :
    Agree Γ j k k Γ.Product (binaryNumber op x l r) (binaryNumber op x l' r') := by
  unfold binaryNumber
  rw [hr.datum.scalar?_eq]
  cases r.datum.scalar? with
  | none => exact illegal_agree hl hr hplaced
  | some y =>
    by_cases hzero : (op.divides && y.isZero) = true
    · simp only [if_pos hzero]
      exact divisionByZero_agree hl hr hplaced
    · simp only [if_neg hzero]
      refine .bind (.lift_eq _) fun j₁ hj z z' hz => ?_
      subst hz
      exact derived_agree (hl.mono hj) rfl rfl

theorem binaryString_agree (op : BinaryOp) (s : String) :
    Agree Γ j k k Γ.Product (binaryString op s l r) (binaryString op s l' r') := by
  have hillegal : Agree Γ j k k Γ.Product (l.illegal r) (l'.illegal r') := illegal_agree hl hr hplaced
  have hd := hr.datum
  obtain ⟨d, site⟩ := r
  obtain ⟨d', site'⟩ := r'
  simp only at hd
  cases op with
  | add | eq =>
    cases d with
    | string t =>
      cases hd
      exact derived_agree hl rfl rfl
    | list n =>
      obtain ⟨n', rfl, -⟩ := hd
      exact hillegal
    | _ =>
      cases hd
      exact hillegal
  | mul =>
    simp only [binaryString]
    rw [hd.scalar?_eq]
    cases d.scalar? with
    | none => exact hillegal
    | some y =>
      refine .bind (.lift_eq _) fun j₁ hj z z' hz => ?_
      subst hz
      exact derived_agree (hl.mono hj) rfl rfl
  | _ => exact hillegal

omit hl hr hplaced in
theorem repeatItems_agree {items items' : Array Datum} (h : Rows (Γ.Kept j) items items') (y : Scalar) :
    Agree Γ j k k (fun j => Rows (Γ.Kept j)) (Effect.lift (repeatItems items y)) (Effect.lift (repeatItems items' y)) := by
  cases y with
  | int n =>
    simp only [repeatItems]
    rw [← h.size_eq]
    cases Scalar.copies .outOfMemory items.size n with
    | error f => exact .fault f
    | ok m => exact .pure (h.onto _ _ .empty)
  | _ => exact .fault _

omit hr hplaced in
/-- Copies of a list. -/
theorem repeatList_agree {n n' : Nat} (hn : Γ.Cell j n n') (y : Scalar) : Agree Γ j k k Γ.Product
    (do let items ← Effect.lift (repeatItems (← Effect.elements n) y); l.derived (← Effect.newList items))
    (do let items ← Effect.lift (repeatItems (← Effect.elements n') y); l'.derived (← Effect.newList items)) := by
  refine .bind (.elements hn) fun j₁ hj₁ items items' hitems => ?_
  refine .bind (repeatItems_agree hitems y) fun j₂ hj₂ copies copies' hcopies => ?_
  refine .bind (.newList hcopies) fun j₃ hj₃ d d' hd => ?_
  exact derived_agree (hl.mono (Nat.le_trans hj₁ (Nat.le_trans hj₂ hj₃))) hd.1 hd.2

theorem binaryList_agree (op : BinaryOp) {n n' : Nat} (hlist : l.datum = .list n) (hn : Γ.Cell j n n') :
    Agree Γ j k k Γ.Product (binaryList op n l r) (binaryList op n' l' r') := by
  cases op with
  | add =>
    refine .bind (.append hn (.of_linked hr.datum hr.fits)) fun j₁ hj _ _ _ => .pure ?_
    have hl := hl.mono hj
    refine ⟨hl.datum, by rw [hlist]; rfl, (hl.site ?_).2.context⟩
    rw [hlist]
    exact Datum.noConfusion
  | mul =>
    simp only [binaryList]
    rw [hr.datum.scalar?_eq]
    cases r.datum.scalar? with
    | none => exact illegal_agree hl hr hplaced
    | some y => exact repeatList_agree hl hn y
  | _ => exact illegal_agree hl hr hplaced

theorem binary_agree (op : BinaryOp) : Agree Γ j k k Γ.Product (l.binary op r) (l'.binary op r') := by
  have hd := hl.datum
  obtain ⟨d, site⟩ := l
  obtain ⟨d', site'⟩ := l'
  simp only at hd
  cases d with
  | null =>
    cases hd
    exact binaryNumber_agree hl hr hplaced op (.int 0)
  | number x =>
    cases hd
    exact binaryNumber_agree hl hr hplaced op x
  | string s =>
    cases hd
    exact binaryString_agree hl hr hplaced op s
  | list n =>
    obtain ⟨n', rfl, hn⟩ := hd
    exact binaryList_agree hl hr hplaced op rfl hn
  | _ =>
    cases hd
    exact illegal_agree hl hr hplaced

end Binary

section Unary

variable {v v' : Value} (hv : Γ.Twin c c' j v v')

include hv

theorem isTrue_agree : Agree Γ j k k (fun _ b b' => b' = b) v.isTrue v'.isTrue := by
  have hd := hv.datum
  obtain ⟨d, site⟩ := v
  obtain ⟨d', site'⟩ := v'
  simp only at hd
  cases d with
  | list n =>
    obtain ⟨n', rfl, hn⟩ := hd
    refine .bind (.elements hn) fun j₁ hj items items' hitems => .pure ?_
    rw [Array.isEmpty, Array.isEmpty, hitems.size_eq]
  | _ =>
    cases hd
    exact .pure rfl

theorem negation_agree : Agree Γ j k k Γ.Product v.negation v'.negation := by
  have hderived : Agree Γ j k k Γ.Product (do v.derived (.number (.ofBool (!(← v.isTrue)))))
      (do v'.derived (.number (.ofBool (!(← v'.isTrue))))) := by
    refine .bind (isTrue_agree hv) fun j₁ hj b b' hb => ?_
    subst hb
    exact derived_agree (hv.mono hj) rfl rfl
  have hillegal : v.datum ≠ .null → Agree Γ j k k Γ.Product (v.illegal v) (v'.illegal v') :=
    fun hnull => illegal_agree hv hv.operand fun _ => ⟨hnull, hnull, (hv.site hnull).1⟩
  have hd := hv.datum
  obtain ⟨d, site⟩ := v
  obtain ⟨d', site'⟩ := v'
  simp only at hd
  cases d with
  | list n =>
    obtain ⟨n', rfl, -⟩ := hd
    exact hderived
  | null | number _ | string _ =>
    cases hd
    exact hderived
  | _ =>
    cases hd
    exact hillegal Datum.noConfusion

/-- The minus one of an opposite has no place, so an opposite has to have a rule for its operand. -/
theorem opposite_agree (hkind : Γ.tidy = true → v.datum.kind ≠ .callable) :
    Agree Γ j k k Γ.Product v.opposite v'.opposite := by
  have hone : Γ.Operand j ⟨.number (.int (-1)), .none⟩ ⟨.number (.int (-1)), .none⟩ := ⟨rfl, rfl, fun _ => rfl⟩
  cases htidy : Γ.tidy with
  | false => exact binary_agree hv hone (fun h => by rw [htidy] at h; cases h) .mul
  | true =>
    have hkind := hkind htidy
    have hscaled : ∀ x : Scalar, Agree Γ j k k Γ.Product
        (do v.derived (.number (← Effect.lift (BinaryOp.mul.onScalars x (.int (-1))))))
        (do v'.derived (.number (← Effect.lift (BinaryOp.mul.onScalars x (.int (-1)))))) := by
      intro x
      refine .bind (.lift_eq _) fun j₁ hj z z' hz => ?_
      subst hz
      exact derived_agree (hv.mono hj) rfl rfl
    have hd := hv.datum
    obtain ⟨d, site⟩ := v
    obtain ⟨d', site'⟩ := v'
    simp only at hd hkind
    cases d with
    | null =>
      cases hd
      exact hscaled (.int 0)
    | number x =>
      cases hd
      exact hscaled x
    | string s =>
      cases hd
      refine .bind (.lift_eq (Scalar.repeatText s (.int (-1)))) fun j₁ hj z z' hz => ?_
      subst hz
      exact derived_agree (hv.mono hj) rfl rfl
    | list n =>
      obtain ⟨n', rfl, hn⟩ := hd
      exact repeatList_agree hv hn (.int (-1))
    | _ => exact absurd rfl hkind

end Unary

end Value

/-- What a call may return: whoever called gets a copy of it. -/
def Past.Returned (Γ : Past) (j : Nat) (r r' : Value) : Prop := Γ.Kept j r.datum r'.datum

/-- A copy of what is the same is the same, and is not null. -/
theorem Datum.copy_agree {d d' : Datum} (hd : Γ.Kept j d d') :
    Agree Γ j k k (fun j e e' => e.Linked id (Γ.Cell j) e' ∧ e.fits Γ.tidy = true ∧ e ≠ .null ∧
      (e.isCallable = true → d.isCallable = true)) (Effect.lift d.copy) (Effect.lift d'.copy) := by
  have hsame := hd.same
  have hfits := hd.fits
  have hcallable : d.isCallable = d.zeroed.isCallable := by cases d <;> rfl
  have hnull : d.zeroed ≠ .null := by cases d <;> exact Datum.noConfusion
  rw [← Datum.fits_zeroed] at hfits
  unfold Datum.Same at hsame
  rw [← Datum.copy_zeroed d, ← Datum.copy_zeroed d', hcallable]
  generalize d.zeroed = e, d'.zeroed = e' at hsame hfits hnull
  cases e with
  | null => exact absurd rfl hnull
  | list n =>
    obtain ⟨n', rfl, hn⟩ := hsame
    exact .pure ⟨⟨n', rfl, hn⟩, rfl, hnull, id⟩
  | stub _ | blank =>
    cases hsame
    exact .fault _
  | _ =>
    cases hsame
    exact .pure ⟨rfl, hfits, hnull, id⟩

/-- Functions have no positions of their own to be moved. -/
theorem Datum.linked_function {S : Links} {f : Function} {d : Datum} :
    (Datum.function f).Linked id S d ↔ d = .function f := by
  have hself : (Datum.function f).relocate id = .function f := by
    show Datum.function { f with body := f.body.relocate id } = .function f
    rw [Body.relocate_id]
  show d = (Datum.function f).relocate id ↔ d = .function f
  rw [hself]

namespace Eval

/-! ## Calls -/

theorem enter_agree (name : String) (hc : Γ.Within k c c') {site site' : Site} (hsite : Γ.SameSite site site')
    (hspan : site.span.isSome = true) (hcontext : site.context = some c) (hcontext' : site'.context = some c') :
    Agree Γ j k (k + 1) (fun _ => Γ.Within (k + 1)) (enter name site) (enter name site') := by
  have hstart : site.start.isSome = true := by rw [Site.start, Option.isSome_map, hspan]
  unfold enter
  rw [hcontext, hcontext', hsite.start]
  refine .bind (.newScope hc) fun _ _ n n' hn => .pure ⟨?_, ?_, hn.1, hn.2⟩
  · rw [Context.trace, Context.trace, hc.trace]
  · rw [Context.isPlaced, hstart, hc.placed]
    rfl

theorem bindArguments_agree {i i' : Context} (hi : Γ.Within k i i') (names : List String) {vs vs' : List Value}
    (hvs : List.Forall₂ (Γ.Twin c c' j) vs vs') :
    Agree Γ j k k (fun _ _ _ => True) (bindArguments i names vs) (bindArguments i' names vs') := by
  induction names generalizing j vs vs' with
  | nil => exact .pure trivial
  | cons p names ih =>
    cases hvs with
    | nil => exact .pure trivial
    | cons hv hvs =>
      unfold bindArguments
      refine .bind (.resite_context hv hi) fun j₁ hj₁ u u' hu => .bind (.assign hi p hu) fun j₂ hj₂ _ _ _ => ?_
      exact ih (hvs.imp fun _ _ h => h.mono (Nat.le_trans hj₁ hj₂))

/-- An error about a value that has a place. -/
theorem placedError_agree {α β : Type} {R : Nat → α → β → Prop} {l : Nat} {site site' : Site} (hsite : Γ.SameSite site site')
    (hspan : site.span.isSome = true) (reason : Reason) {o o' : Option Context} (ho : Γ.SameCalls o o') :
    Agree Γ j k l R (Effect.fail ⟨reason, site.start, site.stop, o⟩)
      (Effect.fail ⟨reason, site'.start, site'.stop, o'⟩) := by
  refine .fail ⟨rfl, hsite.start, hsite.stop, ho, .inl ?_⟩
  rw [RuntimeError.isPlaced, Site.start, Site.stop, Option.isSome_map, Option.isSome_map, hspan]
  rfl

theorem receive_agree {site site' : Site} (hsite : Γ.SameSite site site') (hspan : site.span.isSome = true)
    {i i' : Context} (hi : Γ.Within k i i') (names : List String) {vs vs' : List Value}
    (hvs : List.Forall₂ (Γ.Twin c c' j) vs vs') :
    Agree Γ j k k (fun _ _ _ => True) (receive site i names vs) (receive site' i' names vs') := by
  unfold receive
  rw [← hvs.length_eq]
  by_cases hlen : vs.length ≠ names.length
  · rw [if_pos hlen, if_pos hlen]
    exact placedError_agree hsite hspan _ hsite.context
  · rw [if_neg hlen, if_neg hlen]
    exact bindArguments_agree hi names hvs

theorem argument_kept {vs vs' : List Value} (hvs : List.Forall₂ (Γ.Twin c c' j) vs vs') :
    Γ.Kept j (vs.head?.getD .null).datum (vs'.head?.getD .null).datum := by
  cases hvs with
  | nil => exact ⟨rfl, rfl⟩
  | cons hv _ => exact hv.kept

theorem runBuiltin_agree (limits : Limits) {site site' : Site} (hsite : Γ.SameSite site site')
    (hspan : site.span.isSome = true) {i i' : Context} (hi : Γ.Within k i i') (b : Builtin) {vs vs' : List Value}
    (hvs : List.Forall₂ (Γ.Twin c c' j) vs vs') : Agree Γ j k k Γ.Returned
      (runBuiltin limits site i b vs) (runBuiltin limits site' i' b vs') := by
  have hargument := argument_kept hvs
  unfold runBuiltin
  cases b with
  | print =>
    refine .text limits.printing hargument fun s => ?_
    exact .bind (.write _) fun _ _ _ _ _ => .pure ⟨rfl, rfl⟩
  | printRet => exact .text limits.printing hargument fun s => .pure ⟨rfl, rfl⟩
  | input =>
    refine .bind .readLine fun _ _ line line' hline => .pure ?_
    rw [hline]
    exact ⟨rfl, rfl⟩
  | inputInt =>
    refine .bind .readLine fun _ _ line line' hline => ?_
    rw [hline]
    cases Text.toInt line with
    | ok n => exact .pure ⟨rfl, rfl⟩
    | error e => exact placedError_agree hsite hspan _ hi.sameCalls
  | clear => exact .bind (.write _) fun _ _ _ _ _ => .pure ⟨rfl, rfl⟩

theorem element?_rows {R : Datum → Datum → Prop} {items items' : Array Datum} (h : Rows R items items') (i : Scalar) :
    Option.Rel R (element? items i) (element? items' i) := by
  cases i with
  | int n =>
    simp only [element?]
    rw [← h.size_eq]
    generalize (if n < 0 then n + (items.size : Int) else n) = m
    by_cases hm : m < 0
    · rw [if_pos hm, if_pos hm]
      exact .none
    · rw [if_neg hm, if_neg hm]
      exact h.getElem? m.toNat
  | _ => exact .none

theorem index_agree {v v' : Value} (hv : Γ.Twin c c' j v v') {n n' : Nat} (hlist : v.datum = .list n) (hn : Γ.Cell j n n')
    {vs vs' : List Value} (hvs : List.Forall₂ (Γ.Twin c c' j) vs vs') :
    Agree Γ j k k Γ.Returned (index v n vs) (index v' n' vs') := by
  have hnull : v.datum ≠ .null := by
    rw [hlist]
    exact Datum.noConfusion
  unfold index
  refine .bind (.siteOf hv) fun j₁ hj site site' hs => ?_
  obtain ⟨hsite, hown⟩ := hs
  have hspan : site.span.isSome = true := by rw [(hown hnull).1, (hv.site hnull).1]
  cases hvs with
  | nil => exact placedError_agree hsite hspan _ hsite.context
  | cons ha hvs =>
    cases hvs with
    | cons _ _ => exact placedError_agree hsite hspan _ hsite.context
    | nil =>
      simp only
      rw [ha.datum.scalar?_eq]
      rename_i a a'
      cases hscalar : a.datum.scalar? with
      | none =>
        have hargument : a.datum ≠ .null := by
          intro h
          rw [h] at hscalar
          cases hscalar
        exact Value.illegal_agree (hv.mono hj) (ha.mono hj).operand fun _ => ⟨hnull, hargument, (ha.site hargument).1⟩
      | some i =>
        refine .bind (.elements (Past.Cell.mono hj n n' hn)) fun j₂ hj₂ items items' hitems => ?_
        have hd := element?_rows hitems i
        generalize element? items i = d, element? items' i = d' at hd
        cases hd with
        | some hd => exact .pure hd
        | none => exact placedError_agree hsite hspan _ hsite.context

/-! ## Bodies, choices and loops -/

end Eval

/-- Twins of a kind that may be expected. -/
def Past.Outcome (Γ : Past) (gives : Kind → Bool) (c c' : Context) (j : Nat) (v v' : Value) : Prop :=
  Γ.Twin c c' j v v' ∧ gives v.datum.kind = true

namespace Eval

/-- What is known of nodes evaluated in two contexts. -/
def PartsAgree (Γ : Past) (k : Nat) (c c' : Context) (sub : Node → Context → Effect Value) : Prop :=
  ∀ j n, n.every (Node.isFair Γ.tidy) = true →
    Agree Γ j k k (Γ.Outcome (fun kind => n.mayGive kind) c c') (sub n c) (sub n c')

section Parts

variable {sub : Node → Context → Effect Value} (hsub : PartsAgree Γ k c c' sub)

include hsub

theorem runStatements_agree {ns : List Node} (hns : ∀ n ∈ ns, n.every (Node.isFair Γ.tidy) = true) :
    Agree Γ j k k (fun _ _ _ => True) (runStatements sub c ns) (runStatements sub c' ns) := by
  induction ns generalizing j with
  | nil => exact .pure trivial
  | cons n ns ih =>
    refine .bind (hsub j n (hns n List.mem_cons_self)) fun _ _ _ _ _ => ih fun m hm => ?_
    exact hns m (List.mem_cons_of_mem n hm)

theorem runBody_agree {b : Body} (hb : b.node.every (Node.isFair Γ.tidy) = true) :
    Agree Γ j k k (Γ.Outcome (fun kind => b.mayGive kind) c c') (runBody sub b c) (runBody sub b c') := by
  cases b with
  | inline n => exact hsub j n hb
  | block n =>
    cases n with
    | list items span =>
      refine .bind (runStatements_agree hsub (Node.every_iff.1 hb).2) fun _ _ _ _ _ => ?_
      exact .pure ⟨Past.twin_null, rfl⟩
    | _ => exact .bind (hsub j _ hb) fun _ _ _ _ _ => .pure ⟨Past.twin_null, rfl⟩

theorem evalAll_agree {ns : List Node} (hns : ∀ n ∈ ns, n.every (Node.isFair Γ.tidy) = true) :
    Agree Γ j k k (fun j => List.Forall₂ (Γ.Twin c c' j)) (evalAll sub c ns) (evalAll sub c' ns) := by
  induction ns generalizing j with
  | nil => exact .pure .nil
  | cons n ns ih =>
    refine .bind (hsub j n (hns n List.mem_cons_self)) fun _ _ v v' hv => ?_
    refine .bind (ih fun m hm => hns m (List.mem_cons_of_mem n hm)) fun _ hj vs vs' hvs => .pure ?_
    exact .cons (hv.1.mono hj) hvs

theorem chooseCase_agree {cs : List Case} (hcs : ∀ n ∈ cs.flatMap Case.parts, n.every (Node.isFair Γ.tidy) = true) :
    Agree Γ j k k (fun j => Option.Rel (Γ.Outcome (fun kind => Case.anyMayGive kind cs) c c' j)) (chooseCase sub c cs)
      (chooseCase sub c' cs) := by
  induction cs generalizing j with
  | nil => exact .pure .none
  | cons case cs ih =>
    obtain ⟨test, body⟩ := case
    rw [List.flatMap_cons, List.forall_mem_append] at hcs
    obtain ⟨hcase, hcs⟩ := hcs
    have htest := hcase test List.mem_cons_self
    have hbody := hcase body.node (List.mem_cons_of_mem test List.mem_cons_self)
    refine .bind (hsub j test htest) fun _ _ v v' hv => .bind (Value.isTrue_agree hv.1) fun _ _ b b' hb => ?_
    subst hb
    cases b' with
    | true =>
      refine .bind (runBody_agree hsub hbody) fun _ _ u u' hu => .pure (.some ⟨hu.1, ?_⟩)
      exact Bool.or_eq_true_iff.2 (.inl hu.2)
    | false =>
      refine (ih hcs).imp fun _ _ _ _ ho => Option.Rel.imp ho fun u u' hu => ⟨hu.1, ?_⟩
      exact Bool.or_eq_true_iff.2 (.inr hu.2)

theorem countRounds_agree (hc : Γ.Within k c c') (name : String) (goesOn : Scalar → Except Fault Bool) (by_ : Scalar)
    {body : Body} (hbody : body.node.every (Node.isFair Γ.tidy) = true) (fuel : Nat) (i : Scalar)
    {items items' : Array Datum} (h : Rows (Γ.Kept j) items items') :
    Agree Γ j k k (fun j => Rows (Γ.Kept j)) (countRounds sub c name goesOn by_ body fuel i items)
      (countRounds sub c' name goesOn by_ body fuel i items') := by
  induction fuel generalizing j i items items' with
  | zero => exact .fault _
  | succ fuel ih =>
    unfold countRounds
    refine .bind (.lift_eq _) fun j₁ hj₁ b b' hb => ?_
    subst hb
    cases b' with
    | false => exact .pure (h.imp fun _ _ hd => hd.mono hj₁)
    | true =>
      refine .bind (.assign hc name (.number i)) fun j₂ hj₂ _ _ _ => .bind (.lift_eq _) fun j₃ hj₃ next next' hnext => ?_
      subst hnext
      refine .bind (runBody_agree hsub hbody) fun j₄ hj₄ v v' hv => ih next' (Rows.push (h.imp fun _ _ hd => ?_) hv.1.kept)
      exact hd.mono (Nat.le_trans hj₁ (Nat.le_trans hj₂ (Nat.le_trans hj₃ hj₄)))

theorem whileRounds_agree {test : Node} (htest : test.every (Node.isFair Γ.tidy) = true) {body : Body}
    (hbody : body.node.every (Node.isFair Γ.tidy) = true) (fuel : Nat) {items items' : Array Datum}
    (h : Rows (Γ.Kept j) items items') : Agree Γ j k k (fun j => Rows (Γ.Kept j)) (whileRounds sub c test body fuel items)
      (whileRounds sub c' test body fuel items') := by
  induction fuel generalizing j items items' with
  | zero => exact .fault _
  | succ fuel ih =>
    unfold whileRounds
    refine .bind (hsub j test htest) fun j₁ hj₁ v v' hv => .bind (Value.isTrue_agree hv.1) fun j₂ hj₂ b b' hb => ?_
    subst hb
    cases b' with
    | false => exact .pure (h.imp fun _ _ hd => hd.mono (Nat.le_trans hj₁ hj₂))
    | true =>
      refine .bind (runBody_agree hsub hbody) fun j₃ hj₃ v v' hv => ih (Rows.push (h.imp fun _ _ hd => ?_) hv.1.kept)
      exact hd.mono (Nat.le_trans hj₁ (Nat.le_trans hj₂ hj₃))

end Parts

theorem loopValue_agree (hc : Γ.Within k c c') (node : Node) (body : Body) {items items' : Array Datum}
    (h : Rows (Γ.Kept j) items items') :
    Agree Γ j k k (Γ.Outcome (fun kind => kind = if body.isBlock then .null else .plain) c c')
      (loopValue node c body items) (loopValue node c' body items') := by
  cases body with
  | block n => exact .pure ⟨Past.twin_null, rfl⟩
  | inline n =>
    refine .bind (.newList h) fun _ _ d d' hd => .pure ⟨Past.twin_placed hc hd.1 (Datum.fits_of_kind hd.2) _, ?_⟩
    exact decide_eq_true hd.2

/-! ## Applying a value -/

/-- What happens in the context made for a call, which ends with the scope of the call being given up. -/
theorem called_agree {site site' : Site} (hsite : Γ.SameSite site site') (hspan : site.span.isSome = true) {i i' : Context}
    (hi : Γ.Within (k + 1) i i') (names : List String) {vs vs' : List Value} (hvs : List.Forall₂ (Γ.Twin c c' j) vs vs')
    {run run' : Effect Value}
    (hrun : ∀ j', j ≤ j' → Agree Γ j' (k + 1) (k + 1) Γ.Returned run run') :
    Agree Γ j (k + 1) k Γ.Returned
      (do receive site i names vs; let result ← run; Effect.leaveScope; return result)
      (do receive site' i' names vs'; let result ← run'; Effect.leaveScope; return result) := by
  refine .bind (receive_agree hsite hspan hi names hvs) fun j₁ hj₁ _ _ _ => .bind (hrun j₁ hj₁) fun _ _ r r' hr => ?_
  exact .bind .leaveScope fun _ hj _ _ _ => .pure (hr.mono hj)

section Step

variable (limits : Limits) {sub : Node → Context → Effect Value} (hc : Γ.Within k c c')
  (hbody : ∀ i i', Γ.Within (k + 1) i i' → PartsAgree Γ (k + 1) i i' sub)

include hc hbody

theorem apply_agree {v v' : Value} (hv : Γ.Twin c c' j v v') (hnull : v.datum ≠ .null) {vs vs' : List Value}
    (hvs : List.Forall₂ (Γ.Twin c c' j) vs vs') :
    Agree Γ j k k Γ.Returned (apply limits sub v vs) (apply limits sub v' vs') := by
  unfold apply
  refine .bind (.siteOf hv) fun j₁ hj₁ site site' hs => ?_
  obtain ⟨hsite, hown⟩ := hs
  have hown := hown hnull
  have hspan : site.span.isSome = true := by rw [hown.1, (hv.site hnull).1]
  have hv := hv.mono hj₁
  have hvs : List.Forall₂ (Γ.Twin c c' j₁) vs vs' := hvs.imp fun _ _ h => h.mono hj₁
  have hillegal : Agree Γ j₁ k k Γ.Returned (v.illegal v) (v'.illegal v') :=
    Value.illegal_agree hv hv.operand fun _ => ⟨hnull, hnull, (hv.site hnull).1⟩
  have hd := hv.datum
  have hfits := hv.fits
  have howner := hv.owner
  rw [← hown.1, ← hown.2] at howner
  have hindex : ∀ n n', v.datum = .list n → Γ.Cell j₁ n n' →
      Agree Γ j₁ k k Γ.Returned (index v n vs) (index v' n' vs') :=
    fun n n' hlist hn => index_agree hv hlist hn hvs
  obtain ⟨d, own⟩ := v
  obtain ⟨d', own'⟩ := v'
  simp only at hd hfits howner
  cases d with
  | function f =>
    rw [Datum.linked_function] at hd
    subst hd
    obtain ⟨hcontext, hcontext'⟩ := howner rfl
    refine .bind (enter_agree f.name hc hsite hspan hcontext hcontext') fun j₂ hj₂ i i' hi => ?_
    refine called_agree hsite hspan hi f.parameters (hvs.imp fun _ _ h => h.mono hj₂) fun j₃ _ => ?_
    exact (runBody_agree (hbody i i' hi) (Body.every_iff.1 hfits)).imp fun _ _ _ _ hr => hr.1.kept
  | builtin name =>
    cases hd
    obtain ⟨hcontext, hcontext'⟩ := howner rfl
    refine .bind (enter_agree name hc hsite hspan hcontext hcontext') fun j₂ hj₂ i i' hi => ?_
    cases Builtin.ofName? name with
    | none => exact .fault _
    | some b =>
      refine called_agree hsite hspan hi b.parameters (hvs.imp fun _ _ h => h.mono hj₂) fun j₃ hj₃ => ?_
      exact runBuiltin_agree limits hsite hspan hi b (hvs.imp fun _ _ h => h.mono (Nat.le_trans hj₂ hj₃))
  | list n =>
    obtain ⟨n', rfl, hn⟩ := hd
    exact hindex n n' rfl hn
  | null => exact absurd rfl hnull
  | _ =>
    cases hd
    exact hillegal

/-! ## Nodes -/

variable (hsub : PartsAgree Γ k c c' sub)

include hsub

omit hc hbody in
theorem binary_agree {left : Node} {op : Lexeme} {right : Node}
    (hn : (Node.binary left op right).every (Node.isFair Γ.tidy) = true) :
    Agree Γ j k k (Γ.Outcome (fun kind => (Node.binary left op right).mayGive kind) c c')
      (step limits sub (.binary left op right) c) (step limits sub (.binary left op right) c') := by
  obtain ⟨hfair, hparts⟩ := Node.every_iff.1 hn
  simp only [Node.parts, List.forall_mem_cons] at hparts
  refine .bind (hsub j left hparts.1) fun j₁ _ l l' hl => .bind (hsub j₁ right hparts.2.1) fun _ hj r r' hr => ?_
  cases BinaryOp.ofLexeme? op with
  | none => exact .fault _
  | some op =>
    -- In a tidy tree no operand is null, so both have places for an error to point to.
    have hplaced : Γ.tidy = true → l.datum ≠ .null ∧ r.HasPlace := by
      intro htidy
      have htidy := Node.isTidy_of_isFair hfair htidy
      simp only [Node.isTidy, Bool.and_eq_true, Bool.not_eq_true'] at htidy
      have hleft := Node.ne_null_of_mayGive hl.2 htidy.1
      have hright := Node.ne_null_of_mayGive hr.2 htidy.2
      exact ⟨hleft, hright, (hr.1.site hright).1⟩
    refine .bind (Value.binary_agree (hl.1.mono hj) hr.1.operand hplaced op) fun _ _ v v' hv => ?_
    exact (Agree.resite_span hv _).imp fun _ _ _ _ hu => ⟨hu.1, decide_eq_true hu.2⟩

omit hc hbody in
theorem unary_agree {op : Token} {operand : Node}
    (hn : (Node.unary op operand).every (Node.isFair Γ.tidy) = true) :
    Agree Γ j k k (Γ.Outcome (fun kind => (Node.unary op operand).mayGive kind) c c')
      (step limits sub (.unary op operand) c) (step limits sub (.unary op operand) c') := by
  obtain ⟨hfair, hparts⟩ := Node.every_iff.1 hn
  refine .bind (hsub j operand (hparts operand List.mem_cons_self)) fun j₁ _ v v' hv => ?_
  have hresult : ∀ j u u', Γ.Product j u u' → Agree Γ j k k
      (Γ.Outcome (fun kind => (Node.unary op operand).mayGive kind) c c')
      (Effect.resite u ({ · with span := some (Node.unary op operand).span }))
      (Effect.resite u' ({ · with span := some (Node.unary op operand).span })) :=
    fun j u u' hu => (Agree.resite_span hu _).imp fun _ _ _ _ hu => ⟨hu.1, decide_eq_true hu.2⟩
  split
  · next hminus =>
    refine .bind (Value.opposite_agree hv.1 fun htidy hkind => ?_) fun j₂ _ u u' hu => hresult j₂ u u' hu
    have htidy := Node.isTidy_of_isFair hfair htidy
    have hgives : operand.mayGive v.datum.kind = true := hv.2
    rw [hkind] at hgives
    simp [Node.isTidy, hminus, hgives, Lexeme.isKeyword] at htidy
  · exact .bind (Value.negation_agree hv.1) fun j₂ _ u u' hu => hresult j₂ u u' hu
  · next hminus hnot =>
    have hsign := Node.hasKnownSign_of_isFair hfair
    simp only [Node.hasKnownSign, Bool.or_eq_true, Lexeme.isSymbol_iff, Lexeme.isKeyword_iff] at hsign
    rcases hsign with hsign | hsign
    · exact absurd hsign hminus
    · exact absurd hsign hnot

omit hc hbody in
theorem choice_agree {first : Case} {more : List Case} {last : Option Body}
    (hn : (Node.choice first more last).every (Node.isFair Γ.tidy) = true) :
    Agree Γ j k k (Γ.Outcome (fun kind => (Node.choice first more last).mayGive kind) c c')
      (step limits sub (.choice first more last) c) (step limits sub (.choice first more last) c') := by
  have hparts := (Node.every_iff.1 hn).2
  simp only [Node.parts, List.forall_mem_append] at hparts
  refine .bind (chooseCase_agree hsub hparts.1) fun j₁ _ o o' ho => ?_
  cases ho with
  | some hv =>
    refine .pure ⟨hv.1, Node.mayGive_choice.2 (.inl ?_)⟩
    exact Case.anyMayGive_iff.1 hv.2
  | none =>
    cases last with
    | none => exact .pure ⟨Past.twin_null, Node.mayGive_choice.2 (.inr rfl)⟩
    | some body =>
      refine (runBody_agree hsub (hparts.2 body.node (by simp))).imp fun _ _ v v' hv => ⟨hv.1, ?_⟩
      exact Node.mayGive_choice.2 (.inr hv.2)

omit hbody in
theorem countBetween_agree {d d' e e' b b' : Datum} (hd : d.Linked id (Γ.Cell j) d') (he : e.Linked id (Γ.Cell j) e')
    (hb : b.Linked id (Γ.Cell j) b') (name : String) (node : Node) {body : Body}
    (hnode : body.node.every (Node.isFair Γ.tidy) = true) :
    Agree Γ j k k (Γ.Outcome (fun kind => kind = if body.isBlock then .null else .plain) c c')
      (countBetween limits sub node name body c d e b) (countBetween limits sub node name body c' d' e' b') := by
  rw [countBetween, countBetween, hd.payload_eq, he.payload_eq, hb.payload_eq]
  refine .bind (.lift_eq _) fun _ _ start start' hstart => .bind (.lift_eq _) fun _ _ by_ by_' hby => ?_
  subst hstart hby
  refine .bind (.lift_eq _) fun _ _ upward upward' hup => .bind (.lift_eq _) fun _ _ bound bound' hbound => ?_
  subst hup hbound
  refine .bind (countRounds_agree hsub hc name _ by_' hnode limits.rounds start' .empty) fun _ _ items items' h => ?_
  exact loopValue_agree hc node body h

omit hbody in
theorem count_agree (name : Name) {first last : Node} {by_ : Option Node} {body : Body}
    (hn : (Node.count name first last by_ body).every (Node.isFair Γ.tidy) = true) :
    Agree Γ j k k (Γ.Outcome (fun kind => (Node.count name first last by_ body).mayGive kind) c c')
      (step limits sub (.count name first last by_ body) c) (step limits sub (.count name first last by_ body) c') := by
  have hparts := (Node.every_iff.1 hn).2
  simp only [Node.parts, List.forall_mem_cons, List.forall_mem_append] at hparts
  obtain ⟨hfirst, hlast, hby, hnode, -⟩ := hparts
  refine .bind (hsub j first hfirst) fun j₁ _ v v' hv => .bind (hsub j₁ last hlast) fun j₂ hj₂ u u' hu => ?_
  cases by_ with
  | none =>
    have hone : (Datum.number (.int 1)).Linked id (Γ.Cell j₂) (.number (.int 1)) := rfl
    exact countBetween_agree limits hc hsub (hv.1.mono hj₂).datum hu.1.datum hone name.text _ hnode
  | some n =>
    refine .bind (hsub j₂ n (hby n (by simp))) fun j₃ hj₃ d d' hd => ?_
    have hv := hv.1.mono (Nat.le_trans hj₂ hj₃)
    have hu := hu.1.mono hj₃
    exact countBetween_agree limits hc hsub hv.datum hu.datum hd.1.datum name.text _ hnode

omit hbody hsub in
theorem function_agree (name : Option Name) (parameters : List Name) {body : Body}
    (hn : (Node.function name parameters body).every (Node.isFair Γ.tidy) = true) :
    Agree Γ j k k (Γ.Outcome (fun kind => (Node.function name parameters body).mayGive kind) c c')
      (step limits sub (.function name parameters body) c) (step limits sub (.function name parameters body) c') := by
  have hfits : body.every (Node.isFair Γ.tidy) = true :=
    Body.every_iff.2 ((Node.every_iff.1 hn).2 body.node List.mem_cons_self)
  have htwin : ∀ (j : Nat) (f : Function), f.body = body → ∀ span,
      Γ.Twin c c' j (.placed (.function f) span c) (.placed (.function f) span c') := by
    rintro j f rfl span
    exact Past.twin_placed hc (Datum.linked_function.2 rfl) hfits span
  cases name with
  | none => exact .pure ⟨htwin j _ rfl _, rfl⟩
  | some x => exact .bind (.assign hc x.text (htwin j _ rfl x.span).kept) fun j₁ _ _ _ _ => .pure ⟨htwin j₁ _ rfl _, rfl⟩

theorem call_agree {callee : Node} {arguments : List Node}
    (hn : (Node.call callee arguments).every (Node.isFair Γ.tidy) = true) :
    Agree Γ j k k (Γ.Outcome (fun kind => (Node.call callee arguments).mayGive kind) c c')
      (step limits sub (.call callee arguments) c) (step limits sub (.call callee arguments) c') := by
  have hparts := (Node.every_iff.1 hn).2
  simp only [Node.parts, List.forall_mem_cons] at hparts
  obtain ⟨hcallee, harguments⟩ := hparts
  refine .bind (hsub j callee hcallee) fun j₁ _ v v' hv => .bind (.siteOf hv.1) fun j₂ hj₂ site site' hs => ?_
  refine .bind (Datum.copy_agree (hv.1.kept.mono hj₂)) fun j₃ _ d d' hd => ?_
  refine .bind (evalAll_agree hsub harguments) fun j₄ hj₄ vs vs' hvs => ?_
  obtain ⟨hlinked, hfits, hnull, hcallable⟩ := hd
  -- A function keeps the context it was computed in, which is the one it is called from.
  have hcallee : Γ.Twin c c' j₄ ⟨d, some (Node.call callee arguments).span, site.context⟩
      ⟨d', some (Node.call callee arguments).span, site'.context⟩ := by
    refine ⟨hlinked.mono (Past.Cell.mono hj₄), hfits, fun _ => ⟨rfl, rfl, hs.1.context⟩, fun hcall => ?_⟩
    have hcall := hcallable hcall
    have hown := hs.2 fun h => by rw [h] at hcall; cases hcall
    show site.context = some c ∧ site'.context = some c'
    rw [hown.1, hown.2]
    exact hv.1.owner hcall
  refine .bind (apply_agree limits hc hbody hcallee hnull hvs) fun _ _ r r' hr => ?_
  refine .bind (Datum.copy_agree hr) fun _ _ e e' he => .pure ⟨Past.twin_placed hc he.1 he.2.1 _, ?_⟩
  exact decide_eq_true (Datum.kind_ne_null he.2.2.1)

/-- One step of evaluation, if the parts of the node agree and so do bodies within calls. -/
theorem step_agree {n : Node} (hn : n.every (Node.isFair Γ.tidy) = true) :
    Agree Γ j k k (Γ.Outcome (fun kind => n.mayGive kind) c c') (step limits sub n c) (step limits sub n c') := by
  have hparts := (Node.every_iff.1 hn).2
  cases n with
  | number _ _ | string _ _ =>
    exact .pure ⟨⟨rfl, rfl, fun _ => ⟨rfl, rfl, hc.sameCalls⟩, fun _ => ⟨rfl, rfl⟩⟩, rfl⟩
  | list items span =>
    refine .bind (evalAll_agree hsub hparts) fun j₁ _ vs vs' hvs => ?_
    have hdata : Rows (Γ.Kept j₁) (vs.map Value.datum).toArray (vs'.map Value.datum).toArray :=
      List.forall₂_map_left_iff.2 (List.forall₂_map_right_iff.2 (hvs.imp fun _ _ hv => hv.kept))
    refine .bind (.newList hdata) fun _ _ d d' hd => .pure ⟨Past.twin_placed hc hd.1 (Datum.fits_of_kind hd.2) _, ?_⟩
    exact decide_eq_true hd.2
  | access name =>
    refine .bind (.lookup hc name.text) fun _ _ d d' hd => ?_
    cases hd with
    | none => exact .fail ⟨rfl, rfl, rfl, hc.sameCalls, .inl rfl⟩
    | some hd =>
      refine .bind (Datum.copy_agree hd) fun _ _ e e' he => .pure ⟨Past.twin_placed hc he.1 he.2.1 _, ?_⟩
      exact decide_eq_true (Datum.kind_ne_null he.2.2.1)
  | assign name value =>
    refine .bind (hsub j value (hparts value List.mem_cons_self)) fun _ _ v v' hv => ?_
    exact .bind (.assign hc name.text hv.1.kept) fun _ hj _ _ _ => .pure ⟨hv.1.mono hj, hv.2⟩
  | binary left op right => exact binary_agree limits hsub hn
  | unary op operand => exact unary_agree limits hsub hn
  | choice first more last => exact choice_agree limits hsub hn
  | count name first last by_ body => exact count_agree limits hc hsub name hn
  | loop test body =>
    simp only [Node.parts, List.forall_mem_cons] at hparts
    refine .bind (whileRounds_agree hsub hparts.1 hparts.2.1 limits.rounds .empty) fun _ _ items items' h => ?_
    exact loopValue_agree hc (.loop test body) body h
  | function name parameters body => exact function_agree limits hc name parameters hn
  | call callee arguments => exact call_agree limits hc hbody hsub hn
  | lone token => exact .fault _

end Step

end Eval

/-- **The same node gives the same in both worlds**, up to what `Past.Meets` leaves open. -/
theorem eval_agree (limits : Limits) (depth : Nat) (hc : Γ.Within k c c') {n : Node}
    (hn : n.every (Node.isFair Γ.tidy) = true) :
    Agree Γ j k k (Γ.Outcome (fun kind => n.mayGive kind) c c') (eval limits depth n c) (eval limits depth n c') := by
  induction depth generalizing j k c c' n with
  | zero => exact .fault _
  | succ depth ih =>
    exact Eval.step_agree limits hc (fun _ _ hi _ _ hm => ih hi hm) (fun _ _ hm => ih hc hm) hn

end Scriptlet
