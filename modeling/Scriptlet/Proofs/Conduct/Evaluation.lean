import Scriptlet.Proofs.Conduct.Scalars
/-!
# What evaluation ensures

A node evaluated in a context gives a value that belongs to that context if it can be called, and leaves the scopes as many as
they were: `eval_ensures`.  The proof follows the evaluator: a lemma for each operator, call and loop, then one for each node
in terms of its parts (`step_ensures`), then an induction on the depth.

A node evaluates its parts in its own context.  The one exception is a call, which evaluates the body of the function in a
context made for the call.  `PartsAt` says what is known of the parts in one context, and `step_ensures` takes it for these
contexts alone, so it also says that no other context is ever used.
-/
namespace Scriptlet

variable {Γ : Ground} {ps : List (Option Nat)} {k : Nat} {c : Context}

/-! ## Operators -/

namespace Value

theorem derived_ensures (v : Value) {d : Datum} (hd : Γ.Fit k d) (hcall : d.isCallable = false) :
    Ensures Γ ps ps k (Γ.Own c) (v.derived d) (v.derived d) :=
  .bind (.siteOf v) fun _ hk _ _ => .pure (.of_not_callable (hd.mono hk) hcall)

theorem illegal_ensures {α : Type} {R : Nat → α → Prop} (v u : Value) :
    Ensures Γ ps ps k R (v.illegal u) (v.illegal u) :=
  .bind (.siteOf v) fun _ _ _ _ => .bind (.siteOf u) fun _ _ _ _ => .fail _

theorem binaryNumber_ensures (op : BinaryOp) (x : Scalar) (l r : Value) :
    Ensures Γ ps ps k (Γ.Own c) (binaryNumber op x l r) (binaryNumber op x l r) := by
  unfold binaryNumber
  cases r.datum.scalar? with
  | none => exact illegal_ensures l r
  | some y =>
    by_cases hzero : (op.divides && y.isZero) = true
    · simp only [if_pos hzero]
      exact .bind (.siteOf l) fun _ _ _ _ => .bind (.siteOf r) fun _ _ _ _ => .fail _
    · simp only [if_neg hzero]
      refine .bind (.lift_any (op.onScalars_ordinary x y)) fun _ _ z _ => ?_
      exact derived_ensures l (fun _ => trivial) rfl

theorem binaryString_ensures (op : BinaryOp) (s : String) (l r : Value) :
    Ensures Γ ps ps k (Γ.Own c) (binaryString op s l r) (binaryString op s l r) := by
  unfold binaryString
  split
  · exact derived_ensures l (fun _ => trivial) rfl
  · exact derived_ensures l (fun _ => trivial) rfl
  · split
    · next y _ =>
      refine .bind (.lift_any (Scalar.repeatText_ordinary s y)) fun _ _ z _ => ?_
      exact derived_ensures l (fun _ => trivial) rfl
    · exact illegal_ensures l r
  · exact illegal_ensures l r

/-- Copies of some elements are made of the same elements. -/
theorem forall_onto {P : Datum → Prop} (digits n : Nat) {unit done : Array Datum} (hunit : ∀ d ∈ unit.toList, P d)
    (hdone : ∀ d ∈ done.toList, P d) : ∀ d ∈ (Repetition.onto (· ++ ·) digits n unit done).toList, P d := by
  have hsame : ∀ xs : Array Datum, Rows (fun d _ => P d) xs xs ↔ ∀ d ∈ xs.toList, P d := fun _ => List.forall₂_same
  rw [← hsame] at hunit hdone ⊢
  exact hunit.onto digits n hdone

theorem repeatItems_ensures {items : Array Datum} (h : ∀ d ∈ items.toList, Γ.Fit k d) (y : Scalar) :
    Ensures Γ ps ps k (fun k items => ∀ d ∈ items.toList, Γ.Fit k d) (Effect.lift (repeatItems items y))
      (Effect.lift (repeatItems items y)) := by
  refine .lift (fun copies hcopies => ?_) fun _ => repeatItems_ordinary items y
  cases y with
  | int n =>
    simp only [repeatItems] at hcopies
    cases hn : Scalar.copies .outOfMemory items.size n with
    | error f =>
      rw [hn] at hcopies
      cases hcopies
    | ok m =>
      rw [hn] at hcopies
      cases hcopies
      exact forall_onto _ _ h (by simp)
  | _ => cases hcopies

theorem binaryList_ensures (op : BinaryOp) {cell : Nat} {l r : Value} (hl : l.datum = .list cell)
    (hfit : Γ.Fit k l.datum) (hr : Γ.Fit k r.datum) :
    Ensures Γ ps ps k (Γ.Own c) (binaryList op cell l r) (binaryList op cell l r) := by
  unfold binaryList
  split
  · refine .bind (.append cell hr) fun _ hk _ _ => .pure (.of_not_callable (hfit.mono hk) ?_)
    rw [hl]
    rfl
  · split
    · next y _ =>
      refine .bind (.elements cell) fun _ _ items hitems => ?_
      refine .bind (repeatItems_ensures hitems y) fun _ _ copies hcopies => ?_
      exact .bind (.newList hcopies) fun _ _ d hd => derived_ensures l hd.1 hd.2
    · exact illegal_ensures l r
  · exact illegal_ensures l r

/-- An operator gives nothing that can be called, so its result belongs to any context. -/
theorem binary_ensures (op : BinaryOp) {l r : Value} (hl : Γ.Fit k l.datum) (hr : Γ.Fit k r.datum) :
    Ensures Γ ps ps k (Γ.Own c) (l.binary op r) (l.binary op r) := by
  unfold binary
  split
  · exact binaryNumber_ensures op _ l r
  · exact binaryNumber_ensures op _ l r
  · exact binaryString_ensures op _ l r
  · next cell hcell => exact binaryList_ensures op hcell hl hr
  · exact illegal_ensures l r

theorem isTrue_ensures (v : Value) : Ensures Γ ps ps k (fun _ _ => True) v.isTrue v.isTrue := by
  unfold isTrue
  split
  case h_4 => exact .bind (.elements _) fun _ _ _ _ => .pure trivial
  all_goals exact .pure trivial

theorem negation_ensures (v : Value) : Ensures Γ ps ps k (Γ.Own c) v.negation v.negation := by
  have hderived : Ensures Γ ps ps k (Γ.Own c) (do v.derived (.number (.ofBool (!(← v.isTrue)))))
      (do v.derived (.number (.ofBool (!(← v.isTrue))))) :=
    .bind (isTrue_ensures v) fun _ _ _ _ => derived_ensures v (fun _ => trivial) rfl
  unfold negation
  split
  case h_5 => exact illegal_ensures v v
  all_goals exact hderived

theorem opposite_ensures {v : Value} (hv : Γ.Fit k v.datum) : Ensures Γ ps ps k (Γ.Own c) v.opposite v.opposite :=
  binary_ensures .mul hv fun _ => trivial

end Value

theorem Datum.copy_ensures {d : Datum} (hd : Γ.Fit k d) :
    Ensures Γ ps ps k (fun k e => Γ.Fit k e ∧ (e.isCallable = true → e = d)) (Effect.lift d.copy)
      (Effect.lift d.copy) := by
  cases d with
  | null => exact .pure ⟨fun _ => trivial, fun h => by cases h⟩
  | stub _ | blank => exact .fault fun hΓ => (hd hΓ).elim
  | _ => exact .pure ⟨hd, fun _ => rfl⟩

namespace Eval

/-! ## Calls -/

theorem bindArguments_ensures (hc : Γ.base.length ≤ c.scope) (names : List String) {vs : List Value}
    (hvs : ∀ v ∈ vs, Γ.Fit k v.datum) :
    Ensures Γ ps ps k (fun _ _ => True) (bindArguments c names vs) (bindArguments c names vs) := by
  induction names generalizing k vs with
  | nil => exact .pure trivial
  | cons p names ih =>
    cases vs with
    | nil => exact .pure trivial
    | cons v vs =>
      unfold bindArguments
      refine .bind (.resite_fit (hvs v List.mem_cons_self) _) fun k₁ hk u hu => ?_
      refine .bind (.assign hc p hu) fun k₂ hk₂ _ _ => ih fun x hx => ?_
      exact (hvs x (List.mem_cons_of_mem v hx)).mono (Nat.le_trans hk hk₂)

theorem receive_ensures (hc : Γ.base.length ≤ c.scope) (site : Site) (names : List String) {vs : List Value}
    (hvs : ∀ v ∈ vs, Γ.Fit k v.datum) :
    Ensures Γ ps ps k (fun _ _ => True) (receive site c names vs) (receive site c names vs) := by
  unfold receive
  split
  · exact .fail _
  · exact bindArguments_ensures hc names hvs

theorem runBuiltin_ensures (limits : Limits) (site : Site) (c : Context) (b : Builtin) (vs : List Value) :
    Ensures Γ ps ps k (fun k v => Γ.Fit k v.datum) (runBuiltin limits site c b vs) (runBuiltin limits site c b vs) := by
  have htext : ∀ {α : Type} {R : Nat → α → Prop} (d : Datum) {f : String → Effect α},
      (∀ s k, Ensures Γ ps ps k R (f s) (f s)) → Ensures Γ ps ps k R
        (do f (← Effect.lift ((← get).text limits.printing d))) (do f (← Effect.lift ((← get).text limits.printing d))) := by
    intro α R d f hf
    refine .get_bind fun w _ => ?_
    exact .bind (.lift_any (w.text_ordinary _ d)) fun k₁ _ s _ => hf s k₁
  unfold runBuiltin
  cases b with
  | print => exact htext _ fun s k => .bind (.write _) fun _ _ _ _ => .pure fun _ => trivial
  | printRet => exact htext _ fun s k => .pure fun _ => trivial
  | input => exact .bind .readLine fun _ _ _ _ => .pure fun _ => trivial
  | inputInt =>
    refine .bind .readLine fun _ _ line _ => ?_
    cases Text.toInt line with
    | ok n => exact .pure fun _ => trivial
    | error e => exact .fail _
  | clear => exact .bind (.write _) fun _ _ _ _ => .pure fun _ => trivial

theorem mem_of_element? {items : Array Datum} {i : Scalar} {d : Datum} (h : element? items i = some d) :
    d ∈ items.toList := by
  cases i with
  | int n =>
    simp only [element?] at h
    generalize (if n < 0 then n + (items.size : Int) else n) = j at h
    split at h
    · cases h
    · rw [← Array.getElem?_toList] at h
      exact List.mem_of_getElem? h
  | _ => cases h

theorem index_ensures (v : Value) (cell : Nat) (vs : List Value) :
    Ensures Γ ps ps k (fun k v => Γ.Fit k v.datum) (index v cell vs) (index v cell vs) := by
  unfold index
  refine .bind (.siteOf v) fun _ _ site _ => ?_
  split
  · split
    · refine .bind (.elements cell) fun _ _ items hitems => ?_
      split
      · next d hd => exact .pure (hitems d (mem_of_element? hd))
      · exact .fail _
    · exact Value.illegal_ensures _ _
  · exact .fail _

/-! ## Bodies, choices and loops -/

/-- What is known of nodes evaluated in a context. -/
def PartsAt (Γ : Ground) (ps : List (Option Nat)) (c : Context) (sub sub' : Node → Context → Effect Value) : Prop :=
  ∀ k n, (Γ.strict → n.isRunnable = true) → Ensures Γ ps ps k (Γ.Own c) (sub n c) (sub' n c)

section Parts

variable {sub sub' : Node → Context → Effect Value} (hsub : PartsAt Γ ps c sub sub')

include hsub

theorem runStatements_ensures {ns : List Node} (hns : Γ.strict → ∀ n ∈ ns, n.isRunnable = true) :
    Ensures Γ ps ps k (fun _ _ => True) (runStatements sub c ns) (runStatements sub' c ns) := by
  induction ns generalizing k with
  | nil => exact .pure trivial
  | cons n ns ih =>
    refine .bind (hsub k n fun hΓ => hns hΓ n List.mem_cons_self) fun _ _ _ _ => ih fun hΓ m hm => ?_
    exact hns hΓ m (List.mem_cons_of_mem n hm)

theorem runBody_ensures {b : Body} (hb : Γ.strict → b.isRunnable = true) :
    Ensures Γ ps ps k (Γ.Own c) (runBody sub b c) (runBody sub' b c) := by
  cases b with
  | inline n => exact hsub k n hb
  | block n =>
    cases n with
    | list items span =>
      have hitems : Γ.strict → ∀ n ∈ items, n.isRunnable = true := fun hΓ => Node.allRunnable_iff.1 (hb hΓ)
      exact .bind (runStatements_ensures hsub hitems) fun _ _ _ _ => .pure Ground.own_null
    | _ => exact .bind (hsub k _ hb) fun _ _ _ _ => .pure Ground.own_null

theorem evalAll_ensures {ns : List Node} (hns : Γ.strict → ∀ n ∈ ns, n.isRunnable = true) :
    Ensures Γ ps ps k (fun k vs => ∀ v ∈ vs, Γ.Fit k v.datum) (evalAll sub c ns) (evalAll sub' c ns) := by
  induction ns generalizing k with
  | nil => exact .pure fun v hv => by cases hv
  | cons n ns ih =>
    refine .bind (hsub k n fun hΓ => hns hΓ n List.mem_cons_self) fun _ _ v hv => ?_
    refine .bind (ih fun hΓ m hm => hns hΓ m (List.mem_cons_of_mem n hm)) fun _ hk vs hvs => .pure fun u hu => ?_
    rcases List.mem_cons.1 hu with rfl | hu
    · exact hv.fit.mono hk
    · exact hvs u hu

theorem chooseCase_ensures {cs : List Case} (hcs : Γ.strict → ∀ case ∈ cs, case.isRunnable = true) :
    Ensures Γ ps ps k (fun k o => ∀ v, o = some v → Γ.Own c k v) (chooseCase sub c cs) (chooseCase sub' c cs) := by
  induction cs generalizing k with
  | nil => exact .pure fun v hv => by cases hv
  | cons case cs ih =>
    have hcase : Γ.strict → case.isRunnable = true := fun hΓ => hcs hΓ case List.mem_cons_self
    obtain ⟨test, body⟩ := case
    simp only [Case.isRunnable_mk] at hcase
    refine .bind (hsub k test fun hΓ => (hcase hΓ).1) fun _ _ v _ => .bind (Value.isTrue_ensures v) fun _ _ b _ => ?_
    cases b with
    | true =>
      refine .bind (runBody_ensures hsub fun hΓ => (hcase hΓ).2) fun _ _ u hu => .pure fun _ hv => ?_
      cases hv
      exact hu
    | false => exact ih fun hΓ x hx => hcs hΓ x (List.mem_cons_of_mem _ hx)

theorem countRounds_ensures (hc : Γ.base.length ≤ c.scope) (name : String) {goesOn : Scalar → Except Fault Bool}
    (hgoes : ∀ i, Ordinary (goesOn i)) (by_ : Scalar) {body : Body} (hbody : Γ.strict → body.isRunnable = true)
    (fuel : Nat) (i : Scalar) {items : Array Datum} (hitems : ∀ d ∈ items.toList, Γ.Fit k d) :
    Ensures Γ ps ps k (fun k items => ∀ d ∈ items.toList, Γ.Fit k d) (countRounds sub c name goesOn by_ body fuel i items)
      (countRounds sub' c name goesOn by_ body fuel i items) := by
  induction fuel generalizing k i items with
  | zero => exact .fault fun _ => rfl
  | succ fuel ih =>
    unfold countRounds
    refine .bind (.lift_any (hgoes i)) fun k₁ hk₁ b _ => ?_
    cases b with
    | false => exact .pure fun d hd => (hitems d hd).mono hk₁
    | true =>
      refine .bind (.assign hc name fun _ => trivial) fun k₂ hk₂ _ _ => ?_
      refine .bind (.lift_any (i.add_ordinary by_)) fun k₃ hk₃ next _ => ?_
      refine .bind (runBody_ensures hsub hbody) fun k₄ hk₄ v hv => ih next fun d hd => ?_
      rw [Array.toList_push, List.mem_append, List.mem_singleton] at hd
      rcases hd with hd | rfl
      · exact (hitems d hd).mono (Nat.le_trans hk₁ (Nat.le_trans hk₂ (Nat.le_trans hk₃ hk₄)))
      · exact hv.fit

theorem whileRounds_ensures {test : Node} (htest : Γ.strict → test.isRunnable = true) {body : Body}
    (hbody : Γ.strict → body.isRunnable = true) (fuel : Nat) {items : Array Datum}
    (hitems : ∀ d ∈ items.toList, Γ.Fit k d) :
    Ensures Γ ps ps k (fun k items => ∀ d ∈ items.toList, Γ.Fit k d) (whileRounds sub c test body fuel items)
      (whileRounds sub' c test body fuel items) := by
  induction fuel generalizing k items with
  | zero => exact .fault fun _ => rfl
  | succ fuel ih =>
    unfold whileRounds
    refine .bind (hsub k test htest) fun k₁ hk₁ v _ => .bind (Value.isTrue_ensures v) fun k₂ hk₂ b _ => ?_
    cases b with
    | false => exact .pure fun d hd => (hitems d hd).mono (Nat.le_trans hk₁ hk₂)
    | true =>
      refine .bind (runBody_ensures hsub hbody) fun k₃ hk₃ v hv => ih fun d hd => ?_
      rw [Array.toList_push, List.mem_append, List.mem_singleton] at hd
      rcases hd with hd | rfl
      · exact (hitems d hd).mono (Nat.le_trans hk₁ (Nat.le_trans hk₂ hk₃))
      · exact hv.fit

omit hsub in
theorem loopValue_ensures (node : Node) (c : Context) (body : Body) {items : Array Datum}
    (hitems : ∀ d ∈ items.toList, Γ.Fit k d) :
    Ensures Γ ps ps k (Γ.Own c) (loopValue node c body items) (loopValue node c body items) := by
  cases body with
  | block n => exact .pure Ground.own_null
  | inline n => exact .bind (.newList hitems) fun _ _ d hd => .pure (.placed hd.1 _)

end Parts

/-! ## Applying a value -/

theorem enter_ensures (name : String) {site : Site} (hsite : site.context = some c) :
    Ensures Γ ps (ps ++ [some c.scope]) k (fun _ inner => inner = .call name site.start ps.length c)
      (enter name site) (enter name site) := by
  unfold enter
  rw [hsite]
  refine .bind (.newScope c.scope) fun _ _ n hn => .pure ?_
  rw [hn]

/-- What happens in the context made for a call, which ends with the scope of the call being given up. -/
theorem called_ensures {p : Option Nat} {inner : Context} (hinner : Γ.Over (ps ++ [p]) inner) (hshape : Γ.shape <+: ps)
    (hlen : Γ.base.length ≤ ps.length) (site : Site) (names : List String) {vs : List Value}
    (hvs : ∀ v ∈ vs, Γ.Fit k v.datum) {run run' : Effect Value}
    (hrun : ∀ k, Ensures Γ (ps ++ [p]) (ps ++ [p]) k (fun k v => Γ.Fit k v.datum) run run') :
    Ensures Γ (ps ++ [p]) ps k (fun k v => Γ.Fit k v.datum)
      (do receive site inner names vs; let result ← run; Effect.leaveScope; return result)
      (do receive site inner names vs; let result ← run'; Effect.leaveScope; return result) := by
  refine .bind (receive_ensures hinner.base_le site names hvs) fun k₁ _ _ _ => .bind (hrun k₁) fun _ _ v hv => ?_
  exact .bind (.leaveScope hshape hlen) fun _ hk _ _ => .pure (hv.mono hk)

section Step

variable (limits : Limits) {sub sub' : Node → Context → Effect Value} (hc : Γ.Over ps c)

include hc

theorem apply_ensures {v : Value} (hv : Γ.Own c k v) {vs : List Value} (hvs : ∀ v ∈ vs, Γ.Fit k v.datum)
    (hbody : ∀ name, PartsAt Γ (ps ++ [some c.scope]) (.call name v.site.start ps.length c) sub sub') :
    Ensures Γ ps ps k (fun k v => Γ.Fit k v.datum) (apply limits sub v vs) (apply limits sub' v vs) := by
  have hlen : Γ.base.length ≤ ps.length := Nat.le_trans hc.base_le (Nat.le_of_lt hc.scope_lt)
  have henter : ∀ name, Γ.Over (ps ++ [some c.scope]) (.call name v.site.start ps.length c) := fun name => hc.enter _ _
  unfold apply
  refine .bind (.siteOf v) fun k₁ hk₁ site hsite => ?_
  have hvs : ∀ v ∈ vs, Γ.Fit k₁ v.datum := fun u hu => (hvs u hu).mono hk₁
  split
  · next f hf =>
    have hcall : v.datum.isCallable = true := by rw [hf]; rfl
    rw [hsite hcall]
    refine .bind (enter_ensures f.name (hv.context hcall)) fun k₂ hk₂ inner hinner => ?_
    rw [hinner]
    refine called_ensures (henter f.name) hc.shape hlen _ _ (fun u hu => (hvs u hu).mono hk₂) fun k₃ => ?_
    refine (runBody_ensures (hbody f.name) fun hΓ => ?_).imp fun _ _ _ hr => hr.fit
    have hsound := hv.fit hΓ
    rw [hf] at hsound
    exact hsound
  · next name hname =>
    have hcall : v.datum.isCallable = true := by rw [hname]; rfl
    rw [hsite hcall]
    refine .bind (enter_ensures name (hv.context hcall)) fun k₂ hk₂ inner hinner => ?_
    rw [hinner]
    split
    · next hnone =>
      refine .fault fun hΓ => ?_
      have hsound := hv.fit hΓ
      rw [hname, Datum.Sound, hnone] at hsound
      cases hsound
    · next b _ =>
      refine called_ensures (henter name) hc.shape hlen _ _ (fun u hu => (hvs u hu).mono hk₂) fun k₃ => ?_
      exact runBuiltin_ensures limits _ _ b vs
  · exact index_ensures v _ vs
  · exact Value.illegal_ensures v v

/-! ## Nodes -/

variable (hsub : PartsAt Γ ps c sub sub')

include hsub

theorem countBetween_ensures (node : Node) (name : String) {body : Body} (hbody : Γ.strict → body.isRunnable = true)
    (d e b : Datum) :
    Ensures Γ ps ps k (Γ.Own c) (countBetween limits sub node name body c d e b)
      (countBetween limits sub' node name body c d e b) := by
  refine .bind (.lift_any d.payload_ordinary) fun _ _ start _ => ?_
  refine .bind (.lift_any b.payload_ordinary) fun _ _ step _ => ?_
  refine .bind (.lift_any (step.ge_ordinary _)) fun _ _ upward _ => ?_
  refine .bind (.lift_any e.payload_ordinary) fun _ _ bound _ => ?_
  have hgoes : ∀ i : Scalar, Ordinary (if upward then i.lt bound else i.gt bound) :=
    fun i => .ite (i.lt_ordinary bound) (i.gt_ordinary bound)
  refine .bind (countRounds_ensures hsub hc.base_le name hgoes step hbody _ start (by simp)) fun _ _ items hitems => ?_
  exact loopValue_ensures node c body hitems

theorem count_ensures (name : Name) {first last : Node} {by_ : Option Node} {body : Body}
    (hn : Γ.strict → (Node.count name first last by_ body).isRunnable = true) :
    Ensures Γ ps ps k (Γ.Own c) (step limits sub (.count name first last by_ body) c)
      (step limits sub' (.count name first last by_ body) c) := by
  simp only [Node.isRunnable_count] at hn
  have hbody := fun hΓ => (hn hΓ).2.2.2
  refine .bind (hsub k first fun hΓ => (hn hΓ).1) fun k₁ _ v _ => ?_
  refine .bind (hsub k₁ last fun hΓ => (hn hΓ).2.1) fun k₂ _ u _ => ?_
  cases by_ with
  | none => exact countBetween_ensures limits hc hsub _ name.text hbody v.datum u.datum _
  | some n =>
    refine .bind (hsub k₂ n fun hΓ => (hn hΓ).2.2.1) fun k₃ _ d _ => ?_
    exact countBetween_ensures limits hc hsub _ name.text hbody v.datum u.datum d.datum

omit hsub in
theorem function_ensures (name : Option Name) (parameters : List Name) {body : Body}
    (hbody : Γ.strict → body.isRunnable = true) :
    Ensures Γ ps ps k (Γ.Own c) (step limits sub (.function name parameters body) c)
      (step limits sub' (.function name parameters body) c) := by
  cases name with
  | none => exact .pure ⟨hbody, fun _ => rfl⟩
  | some x => exact .bind (.assign hc.base_le x.text hbody) fun _ _ _ _ => .pure ⟨hbody, fun _ => rfl⟩

theorem call_ensures {callee : Node} {arguments : List Node}
    (hn : Γ.strict → (Node.call callee arguments).isRunnable = true)
    (hbody : ∀ name, PartsAt Γ (ps ++ [some c.scope])
      (.call name (some (Node.call callee arguments).span.start) ps.length c) sub sub') :
    Ensures Γ ps ps k (Γ.Own c) (step limits sub (.call callee arguments) c)
      (step limits sub' (.call callee arguments) c) := by
  simp only [Node.isRunnable_call] at hn
  refine .bind (hsub k callee fun hΓ => (hn hΓ).1) fun _ _ v hv => .bind (.siteOf v) fun _ hk₁ site hsite => ?_
  refine .bind (Datum.copy_ensures (hv.fit.mono hk₁)) fun _ _ d hd => ?_
  refine .bind (evalAll_ensures hsub fun hΓ => (hn hΓ).2) fun k₂ hk₂ vs hvs => ?_
  -- A function keeps the context it was computed in, which is the one it is called from.
  have hown : Γ.Own c k₂ ⟨d, some (Node.call callee arguments).span, site.context⟩ := by
    refine ⟨hd.1.mono hk₂, fun hcall => ?_⟩
    have hsame := hd.2 hcall
    rw [hsame] at hcall
    show site.context = some c
    rw [hsite hcall]
    exact hv.context hcall
  refine .bind (apply_ensures limits hc hown hvs hbody) fun _ _ r hr => ?_
  exact .bind (Datum.copy_ensures hr) fun _ _ e he => .pure (.placed he.1 _)

theorem step_ensures {n : Node} (hn : Γ.strict → n.isRunnable = true)
    (hbody : ∀ callee arguments, n = .call callee arguments → ∀ name, PartsAt Γ (ps ++ [some c.scope])
      (.call name (some n.span.start) ps.length c) sub sub') :
    Ensures Γ ps ps k (Γ.Own c) (step limits sub n c) (step limits sub' n c) := by
  cases n with
  | number _ _ | string _ _ => exact .pure ⟨fun _ => trivial, fun _ => rfl⟩
  | list items span =>
    refine .bind (evalAll_ensures hsub fun hΓ => Node.allRunnable_iff.1 (hn hΓ)) fun k₁ _ vs hvs => ?_
    have hdata : ∀ d ∈ (vs.map Value.datum).toArray.toList, Γ.Fit k₁ d := by
      intro d hd
      obtain ⟨v, hv, rfl⟩ := List.mem_map.1 hd
      exact hvs v hv
    exact .bind (.newList hdata) fun _ _ d hd => .pure (.placed hd.1 _)
  | access name =>
    refine .bind (.lookup c name.text) fun _ _ o ho => ?_
    cases o with
    | none => exact .fail _
    | some d => exact .bind (Datum.copy_ensures (ho d rfl)) fun _ _ e he => .pure (.placed he.1 _)
  | assign name value =>
    refine .bind (hsub k value hn) fun _ _ v hv => .bind (.assign hc.base_le name.text hv.fit) fun _ hk _ _ => ?_
    exact .pure (hv.mono hk)
  | binary left op right =>
    simp only [Node.isRunnable_binary] at hn
    refine .bind (hsub k left fun hΓ => (hn hΓ).2.1) fun k₁ _ l hl => ?_
    refine .bind (hsub k₁ right fun hΓ => (hn hΓ).2.2) fun k₂ hk₂ r hr => ?_
    split
    · next hnone =>
      refine .fault fun hΓ => ?_
      have hknown := (hn hΓ).1
      rw [hnone] at hknown
      cases hknown
    · next op _ =>
      exact .bind (Value.binary_ensures op (hl.fit.mono hk₂) hr.fit) fun _ _ v hv => .resite hv fun _ => rfl
  | unary op operand =>
    refine .bind (hsub k operand hn) fun _ _ v hv => ?_
    split
    · exact .bind (Value.opposite_ensures hv.fit) fun _ _ u hu => .resite hu fun _ => rfl
    · exact .bind (Value.negation_ensures v) fun _ _ u hu => .resite hu fun _ => rfl
    · exact .bind (.pure hv) fun _ _ u hu => .resite hu fun _ => rfl
  | choice first more last =>
    simp only [Node.isRunnable_choice] at hn
    refine .bind (chooseCase_ensures hsub fun hΓ => (hn hΓ).1) fun _ _ o ho => ?_
    cases o with
    | some v => exact .pure (ho v rfl)
    | none =>
      cases last with
      | none => exact .pure Ground.own_null
      | some body => exact runBody_ensures hsub fun hΓ => (hn hΓ).2
  | count name first last by_ body => exact count_ensures limits hc hsub name hn
  | loop test body =>
    simp only [Node.isRunnable_loop] at hn
    refine .bind (whileRounds_ensures hsub (fun hΓ => (hn hΓ).1) (fun hΓ => (hn hΓ).2) _ (by simp))
      fun _ _ items hitems => ?_
    exact loopValue_ensures _ c body hitems
  | function name parameters body => exact function_ensures limits hc name parameters hn
  | call callee arguments => exact call_ensures limits hc hsub hn (hbody callee arguments rfl)
  | lone token =>
    refine .fault fun hΓ => ?_
    cases hn hΓ

end Step

end Eval

/-- **What evaluation ensures**: the value of a node belongs to the context the node was evaluated in, and all scopes made
on the way have been given up. -/
theorem eval_ensures (limits : Limits) (depth : Nat) (hc : Γ.Over ps c) {n : Node}
    (hn : Γ.strict → n.isRunnable = true) :
    Ensures Γ ps ps k (Γ.Own c) (eval limits depth n c) (eval limits depth n c) := by
  induction depth generalizing ps k c n with
  | zero => exact .fault fun _ => rfl
  | succ depth ih =>
    have hparts : ∀ {ps : List (Option Nat)} {c : Context}, Γ.Over ps c →
        Eval.PartsAt Γ ps c (eval limits depth) (eval limits depth) := fun hc k n hn => ih hc hn
    exact Eval.step_ensures limits hc (hparts hc) hn fun _ _ _ name => hparts (hc.enter name _)

end Scriptlet
