import Scriptlet.Proofs.Running.Tracks
/-!
# Evaluation does not look at positions or cells

A node and the same node with its positions moved, evaluated in worlds that correspond, track one another: `eval_tracks`.

The proof follows the evaluator: a lemma for each operator, call and loop, then one for each node in terms of its parts
(`step_tracks`), then an induction on the depth.
-/
namespace Scriptlet

variable {φ : Position → Position} {kept : Nat → Option (Array Datum)} {S : Links}

/-! ## Operators -/

namespace Value

theorem derived_tracks {v v' : Value} (hv : Linked φ S v v') {d d' : Datum} (hd : Datum.Linked φ S d d') :
    Tracks φ kept S (Linked φ) (v.derived d) (v'.derived d') := by
  refine .bind (.siteOf hv) fun T hT s s' hs => .pure ⟨hd.mono hT, ?_⟩
  subst hs
  rfl

theorem illegal_tracks {α β : Type} {R : Links → α → β → Prop} {v v' w w' : Value} (hv : Linked φ S v v')
    (hw : Linked φ S w w') : Tracks φ kept S R (v.illegal w) (v'.illegal w') := by
  refine .bind (.siteOf hv) fun T hT s s' hs => .bind (.siteOf (hw.mono hT)) fun U hU t t' ht => .fail ?_
  subst hs ht
  simp [RuntimeError.relocate]

theorem repeatItems_tracks {items items' : Array Datum} (h : Rows (Datum.Linked φ S) items items') (y : Scalar) :
    Tracks φ kept S (fun S => Rows (Datum.Linked φ S)) (Effect.lift (repeatItems items y))
      (Effect.lift (repeatItems items' y)) := by
  cases y with
  | int n =>
    simp only [repeatItems]
    rw [← h.size_eq]
    cases Scalar.copies .outOfMemory items.size n with
    | error f => exact .fault f
    | ok k => exact .pure (h.onto _ _ .empty)
  | _ => exact .fault _

section Binary

variable {l l' r r' : Value} (hl : Linked φ S l l') (hr : Linked φ S r r')

include hl hr

theorem binaryNumber_tracks (op : BinaryOp) (x : Scalar) :
    Tracks φ kept S (Linked φ) (binaryNumber op x l r) (binaryNumber op x l' r') := by
  unfold binaryNumber
  rw [hr.1.scalar?_eq]
  cases r.datum.scalar? with
  | none => exact illegal_tracks hl hr
  | some y =>
    by_cases hzero : (op.divides && y.isZero) = true
    · simp only [if_pos hzero]
      refine .bind (.siteOf hl) fun T hT s s' hs => .bind (.siteOf (hr.mono hT)) fun U hU t t' ht => .fail ?_
      subst hs ht
      simp [RuntimeError.relocate]
    · simp only [if_neg hzero]
      refine .bind (.lift_eq rfl) fun T hT z z' hz => ?_
      subst hz
      exact derived_tracks (hl.mono hT) rfl

theorem binaryString_tracks (op : BinaryOp) (s : String) :
    Tracks φ kept S (Linked φ) (binaryString op s l r) (binaryString op s l' r') := by
  obtain ⟨d, site⟩ := r
  obtain ⟨d', site'⟩ := r'
  have hillegal : Tracks φ kept S (Linked φ) (l.illegal ⟨d, site⟩) (l'.illegal ⟨d', site'⟩) := illegal_tracks hl hr
  have hd : Datum.Linked φ S d d' := hr.1
  cases op with
  | add =>
    cases d with
    | string t =>
      cases hd
      exact derived_tracks hl rfl
    | list n =>
      obtain ⟨n', rfl, -⟩ := hd
      exact hillegal
    | _ =>
      cases hd
      exact hillegal
  | eq =>
    cases d with
    | string t =>
      cases hd
      exact derived_tracks hl rfl
    | list n =>
      obtain ⟨n', rfl, -⟩ := hd
      exact hillegal
    | _ =>
      cases hd
      exact hillegal
  | mul =>
    simp only [binaryString]
    rw [hd.scalar?_eq]
    cases d.scalar? with
    | none => exact hillegal
    | some y =>
      refine .bind (.lift_eq rfl) fun T hT z z' hz => ?_
      subst hz
      exact derived_tracks (hl.mono hT) rfl
  | _ => exact hillegal

theorem binaryList_tracks (op : BinaryOp) {n n' : Nat} (hn : S n n') :
    Tracks φ kept S (Linked φ) (binaryList op n l r) (binaryList op n' l' r') := by
  cases op with
  | add => exact .bind (.append hn hr.1) fun T hT _ _ _ => .pure (hl.mono hT)
  | mul =>
    simp only [binaryList]
    rw [hr.1.scalar?_eq]
    cases r.datum.scalar? with
    | none => exact illegal_tracks hl hr
    | some y =>
      refine .bind (.elements hn) fun T hT items items' hitems => ?_
      refine .bind (repeatItems_tracks hitems y) fun U hU copies copies' hcopies => ?_
      refine .bind (.newList hcopies) fun V hV d d' hd => ?_
      exact derived_tracks (hl.mono (hT.trans (hU.trans hV))) hd
  | _ => exact illegal_tracks hl hr

theorem binary_tracks (op : BinaryOp) : Tracks φ kept S (Linked φ) (l.binary op r) (l'.binary op r') := by
  obtain ⟨d, site⟩ := l
  obtain ⟨d', site'⟩ := l'
  have hd : Datum.Linked φ S d d' := hl.1
  cases d with
  | null =>
    cases hd
    exact binaryNumber_tracks hl hr op (.int 0)
  | number x =>
    cases hd
    exact binaryNumber_tracks hl hr op x
  | string s =>
    cases hd
    exact binaryString_tracks hl hr op s
  | list n =>
    obtain ⟨n', rfl, hn⟩ := hd
    exact binaryList_tracks hl hr op hn
  | _ =>
    cases hd
    exact illegal_tracks hl hr

end Binary

section Unary

variable {v v' : Value} (hv : Linked φ S v v')

include hv

theorem isTrue_tracks : Tracks φ kept S (fun _ b b' => b' = b) v.isTrue v'.isTrue := by
  obtain ⟨d, site⟩ := v
  obtain ⟨d', site'⟩ := v'
  have hd : Datum.Linked φ S d d' := hv.1
  cases d with
  | list n =>
    obtain ⟨n', rfl, hn⟩ := hd
    refine .bind (.elements hn) fun T hT items items' hitems => .pure ?_
    rw [Array.isEmpty, Array.isEmpty, hitems.size_eq]
  | _ =>
    cases hd
    exact .pure rfl

theorem negation_tracks : Tracks φ kept S (Linked φ) v.negation v'.negation := by
  have hderived : Tracks φ kept S (Linked φ) (do v.derived (.number (.ofBool (!(← v.isTrue)))))
      (do v'.derived (.number (.ofBool (!(← v'.isTrue))))) := by
    refine .bind (isTrue_tracks hv) fun T hT b b' hb => ?_
    subst hb
    exact derived_tracks (hv.mono hT) rfl
  have hillegal : Tracks φ kept S (Linked φ) (v.illegal v) (v'.illegal v') := illegal_tracks hv hv
  obtain ⟨d, site⟩ := v
  obtain ⟨d', site'⟩ := v'
  have hd : Datum.Linked φ S d d' := hv.1
  cases d with
  | list n =>
    obtain ⟨n', rfl, -⟩ := hd
    exact hderived
  | null | number _ | string _ =>
    cases hd
    exact hderived
  | _ =>
    cases hd
    exact hillegal

theorem opposite_tracks : Tracks φ kept S (Linked φ) v.opposite v'.opposite := by
  have hone : Linked φ S ⟨.number (.int (-1)), .none⟩ ⟨.number (.int (-1)), .none⟩ := ⟨rfl, rfl⟩
  exact binary_tracks hv hone .mul

end Unary

end Value

theorem Datum.copy_tracks {d d' : Datum} (hd : Datum.Linked φ S d d') :
    Tracks φ kept S (Datum.Linked φ) (Effect.lift d.copy) (Effect.lift d'.copy) := by
  cases d with
  | list n =>
    obtain ⟨n', rfl, hn⟩ := hd
    exact .pure ⟨n', rfl, hn⟩
  | stub _ | blank =>
    cases hd
    exact .fault _
  | _ =>
    cases hd
    exact .pure rfl

namespace Eval

/-! ## Calls -/

theorem enter_tracks (name : String) {site site' : Site} (hs : site' = site.relocate φ) :
    Tracks φ kept S (fun _ c c' => c' = c.relocate φ) (enter name site) (enter name site') := by
  subst hs
  unfold enter
  rw [Site.context_relocate, Site.start_relocate]
  cases site.context with
  | none => exact .fault _
  | some caller =>
    simp only [Option.map_some, Context.scope_relocate]
    refine .bind (.newScope caller.scope) fun T hT n n' hn => .pure ?_
    subst hn
    rfl

theorem bindArguments_tracks {c c' : Context} (hc : c' = c.relocate φ) (names : List String) {vs vs' : List Value}
    (hvs : List.Forall₂ (Value.Linked φ S) vs vs') :
    Tracks φ kept S (fun _ _ _ => True) (bindArguments c names vs) (bindArguments c' names vs') := by
  induction names generalizing S vs vs' with
  | nil => exact .pure trivial
  | cons p ps ih =>
    cases hvs with
    | nil => exact .pure trivial
    | cons hv hvs =>
      unfold bindArguments
      have hsite : ∀ s : Site, ({ s.relocate φ with context := some c' } : Site) =
          ({ s with context := some c } : Site).relocate φ := by
        intro s
        subst hc
        rfl
      refine .bind (.resite hv hsite) fun T hT u u' hu => .bind (.assign hc p hu.1) fun U hU _ _ _ => ?_
      exact ih (hvs.imp fun _ _ h => h.mono (hT.trans hU))

theorem receive_tracks {site site' : Site} (hs : site' = site.relocate φ) {c c' : Context} (hc : c' = c.relocate φ)
    (names : List String) {vs vs' : List Value} (hvs : List.Forall₂ (Value.Linked φ S) vs vs') :
    Tracks φ kept S (fun _ _ _ => True) (receive site c names vs) (receive site' c' names vs') := by
  unfold receive
  rw [← hvs.length_eq]
  by_cases hlen : vs.length ≠ names.length
  · rw [if_pos hlen, if_pos hlen]
    refine .fail ?_
    subst hs
    simp [RuntimeError.relocate]
  · rw [if_neg hlen, if_neg hlen]
    exact bindArguments_tracks hc names hvs

theorem argument_linked {vs vs' : List Value} (hvs : List.Forall₂ (Value.Linked φ S) vs vs') :
    Datum.Linked φ S (vs.head?.getD .null).datum (vs'.head?.getD .null).datum := by
  cases hvs with
  | nil => exact rfl
  | cons hv _ => exact hv.1

theorem runBuiltin_tracks (limits : Limits) {site site' : Site} (hs : site' = site.relocate φ) {c c' : Context}
    (hc : c' = c.relocate φ) (b : Builtin) {vs vs' : List Value} (hvs : List.Forall₂ (Value.Linked φ S) vs vs') :
    Tracks φ kept S (Value.Linked φ) (runBuiltin limits site c b vs) (runBuiltin limits site' c' b vs') := by
  have hargument := argument_linked hvs
  unfold runBuiltin
  cases b with
  | print =>
    refine .text limits.printing hargument fun s => ?_
    exact .bind (.write _) fun _ _ _ _ _ => .pure ⟨rfl, rfl⟩
  | printRet => exact .text limits.printing hargument fun s => .pure ⟨rfl, rfl⟩
  | input =>
    refine .bind .readLine fun T hT line line' hline => .pure ?_
    rw [hline]
    exact ⟨rfl, rfl⟩
  | inputInt =>
    refine .bind .readLine fun T hT line line' hline => ?_
    rw [hline]
    cases Text.toInt line with
    | ok n => exact .pure ⟨rfl, rfl⟩
    | error e =>
      refine .fail ?_
      subst hc hs
      simp [RuntimeError.relocate]
  | clear => exact .bind (.write _) fun _ _ _ _ _ => .pure ⟨rfl, rfl⟩

theorem element?_linked {items items' : Array Datum} (h : Rows (Datum.Linked φ S) items items') (i : Scalar) :
    Option.Rel (Datum.Linked φ S) (element? items i) (element? items' i) := by
  cases i with
  | int n =>
    simp only [element?]
    rw [← h.size_eq]
    generalize (if n < 0 then n + (items.size : Int) else n) = k
    by_cases hk : k < 0
    · rw [if_pos hk, if_pos hk]
      exact .none
    · rw [if_neg hk, if_neg hk]
      exact h.getElem? k.toNat
  | _ => exact .none

theorem index_tracks {v v' : Value} (hv : Value.Linked φ S v v') {n n' : Nat} (hn : S n n') {vs vs' : List Value}
    (hvs : List.Forall₂ (Value.Linked φ S) vs vs') :
    Tracks φ kept S (Value.Linked φ) (index v n vs) (index v' n' vs') := by
  unfold index
  refine .bind (.siteOf hv) fun T hT site site' hs => ?_
  have hnoIndex : Tracks φ kept T (Value.Linked φ)
      (Effect.fail ⟨.noIndex, site.start, site.stop, site.context⟩ : Effect Value)
      (Effect.fail ⟨.noIndex, site'.start, site'.stop, site'.context⟩ : Effect Value) := by
    refine .fail ?_
    subst hs
    simp [RuntimeError.relocate]
  cases hvs with
  | nil => exact hnoIndex
  | cons ha hvs =>
    cases hvs with
    | cons _ _ => exact hnoIndex
    | nil =>
      simp only
      rw [ha.1.scalar?_eq]
      rename_i a a'
      cases a.datum.scalar? with
      | none => exact Value.illegal_tracks (hv.mono hT) (ha.mono hT)
      | some i =>
        refine .bind (.elements (hT n n' hn)) fun U hU items items' hitems => ?_
        have hd := element?_linked hitems i
        generalize element? items i = d, element? items' i = d' at hd
        cases hd with
        | some hd => exact .pure ⟨hd, rfl⟩
        | none =>
          refine .fail ?_
          subst hs
          simp [RuntimeError.relocate]

/-! ## Bodies, choices and loops -/

section Parts

variable {sub sub' : Node → Context → Effect Value}
  (hsub : ∀ (S : Links) (n : Node) (c : Context),
    Tracks φ kept S (Value.Linked φ) (sub n c) (sub' (n.relocate φ) (c.relocate φ)))

include hsub

theorem runStatements_tracks (c : Context) (ns : List Node) : Tracks φ kept S (fun _ _ _ => True)
    (runStatements sub c ns) (runStatements sub' (c.relocate φ) (ns.map (Node.relocate φ))) := by
  induction ns generalizing S with
  | nil => exact .pure trivial
  | cons n ns ih => exact .bind (hsub S n c) fun T hT _ _ _ => ih

theorem runBody_tracks (c : Context) (b : Body) : Tracks φ kept S (Value.Linked φ)
    (runBody sub b c) (runBody sub' (b.relocate φ) (c.relocate φ)) := by
  have hnull : ∀ T, Tracks φ kept T (Value.Linked φ) (pure Value.null) (pure Value.null) :=
    fun T => .pure ⟨rfl, rfl⟩
  cases b with
  | inline n => exact hsub S n c
  | block n =>
    cases n with
    | list items span =>
      have hitems := runStatements_tracks hsub (S := S) c items
      rw [← Node.relocateAll_eq_map] at hitems
      exact .bind hitems fun T hT _ _ _ => hnull T
    | _ => exact .bind (hsub S _ c) fun T hT _ _ _ => hnull T

theorem evalAll_tracks (c : Context) (ns : List Node) :
    Tracks φ kept S (fun S => List.Forall₂ (Value.Linked φ S)) (evalAll sub c ns)
      (evalAll sub' (c.relocate φ) (ns.map (Node.relocate φ))) := by
  induction ns generalizing S with
  | nil => exact .pure .nil
  | cons n ns ih =>
    refine .bind (hsub S n c) fun T hT v v' hv => .bind ih fun U hU vs vs' hvs => .pure ?_
    exact .cons (hv.mono hU) hvs

theorem chooseCase_tracks (c : Context) (cs : List Case) :
    Tracks φ kept S (fun S => Option.Rel (Value.Linked φ S)) (chooseCase sub c cs)
      (chooseCase sub' (c.relocate φ) (cs.map (Case.relocate φ))) := by
  induction cs generalizing S with
  | nil => exact .pure .none
  | cons case cs ih =>
    obtain ⟨test, body⟩ := case
    refine .bind (hsub S test c) fun T hT v v' hv => .bind (Value.isTrue_tracks hv) fun U hU b b' hb => ?_
    subst hb
    cases b' with
    | true => exact .bind (runBody_tracks hsub c body) fun V hV v v' hv => .pure (.some hv)
    | false => exact ih

theorem countRounds_tracks (c : Context) (name : String) (goesOn : Scalar → Except Fault Bool) (by_ : Scalar)
    (body : Body) (fuel : Nat) (i : Scalar) {items items' : Array Datum} (h : Rows (Datum.Linked φ S) items items') :
    Tracks φ kept S (fun S => Rows (Datum.Linked φ S)) (countRounds sub c name goesOn by_ body fuel i items)
      (countRounds sub' (c.relocate φ) name goesOn by_ (body.relocate φ) fuel i items') := by
  induction fuel generalizing S i items items' with
  | zero => exact .fault _
  | succ fuel ih =>
    unfold countRounds
    refine .bind (.lift_eq rfl) fun T hT b b' hb => ?_
    subst hb
    cases b' with
    | false => exact .pure (h.mono hT)
    | true =>
      refine .bind (.assign rfl name rfl) fun U hU _ _ _ => .bind (.lift_eq rfl) fun V hV next next' hnext => ?_
      subst hnext
      refine .bind (runBody_tracks hsub c body) fun W hW v v' hv => ?_
      exact ih next' ((h.mono (hT.trans (hU.trans (hV.trans hW)))).push hv.1)

theorem whileRounds_tracks (c : Context) (test : Node) (body : Body) (fuel : Nat) {items items' : Array Datum}
    (h : Rows (Datum.Linked φ S) items items') :
    Tracks φ kept S (fun S => Rows (Datum.Linked φ S)) (whileRounds sub c test body fuel items)
      (whileRounds sub' (c.relocate φ) (test.relocate φ) (body.relocate φ) fuel items') := by
  induction fuel generalizing S items items' with
  | zero => exact .fault _
  | succ fuel ih =>
    unfold whileRounds
    refine .bind (hsub S test c) fun T hT v v' hv => .bind (Value.isTrue_tracks hv) fun U hU b b' hb => ?_
    subst hb
    cases b' with
    | false => exact .pure (h.mono (hT.trans hU))
    | true =>
      refine .bind (runBody_tracks hsub c body) fun V hV v v' hv => ?_
      exact ih ((h.mono (hT.trans (hU.trans hV))).push hv.1)

theorem apply_tracks (limits : Limits) {v v' : Value} (hv : Value.Linked φ S v v') {vs vs' : List Value}
    (hvs : List.Forall₂ (Value.Linked φ S) vs vs') :
    Tracks φ kept S (Value.Linked φ) (apply limits sub v vs) (apply limits sub' v' vs') := by
  unfold apply
  refine .bind (.siteOf hv) fun T hT site site' hs => ?_
  have hv := hv.mono hT
  have hvs : List.Forall₂ (Value.Linked φ T) vs vs' := hvs.imp fun _ _ h => h.mono hT
  have hillegal : Tracks φ kept T (Value.Linked φ) (v.illegal v) (v'.illegal v') := Value.illegal_tracks hv hv
  obtain ⟨d, own⟩ := v
  obtain ⟨d', own'⟩ := v'
  have hd : Datum.Linked φ T d d' := hv.1
  cases d with
  | function f =>
    cases hd
    refine .bind (enter_tracks f.name hs) fun U hU c c' hc => ?_
    have hvs : List.Forall₂ (Value.Linked φ U) vs vs' := hvs.imp fun _ _ h => h.mono hU
    refine .bind (receive_tracks hs hc f.parameters hvs) fun V hV _ _ _ => ?_
    subst hc
    refine .bind (runBody_tracks hsub c f.body) fun W hW r r' hr => ?_
    exact .bind .leaveScope fun X hX _ _ _ => .pure (hr.mono hX)
  | builtin name =>
    cases hd
    refine .bind (enter_tracks name hs) fun U hU c c' hc => ?_
    have hvs : List.Forall₂ (Value.Linked φ U) vs vs' := hvs.imp fun _ _ h => h.mono hU
    cases Builtin.ofName? name with
    | none => exact .fault _
    | some b =>
      refine .bind (receive_tracks hs hc b.parameters hvs) fun V hV _ _ _ => ?_
      have hvs : List.Forall₂ (Value.Linked φ V) vs vs' := hvs.imp fun _ _ h => h.mono hV
      refine .bind (runBuiltin_tracks limits hs hc b hvs) fun W hW r r' hr => ?_
      exact .bind .leaveScope fun X hX _ _ _ => .pure (hr.mono hX)
  | list n =>
    obtain ⟨n', rfl, hn⟩ := hd
    exact index_tracks hv hn hvs
  | _ =>
    cases hd
    exact hillegal

end Parts

/-! ## Nodes -/

theorem placed_linked {d d' : Datum} (hd : Datum.Linked φ S d d') (span : Span) (c : Context) :
    Value.Linked φ S (.placed d span c) (.placed d' (span.relocate φ) (c.relocate φ)) := ⟨hd, rfl⟩

theorem loopValue_tracks (n : Node) (c : Context) (body : Body) {items items' : Array Datum}
    (h : Rows (Datum.Linked φ S) items items') : Tracks φ kept S (Value.Linked φ) (loopValue n c body items)
      (loopValue (n.relocate φ) (c.relocate φ) (body.relocate φ) items') := by
  cases body with
  | block b => exact .pure ⟨rfl, rfl⟩
  | inline b =>
    refine .bind (.newList h) fun T hT d d' hd => .pure ?_
    rw [Node.span_relocate]
    exact placed_linked hd n.span c

/-- A site that a node gives moves with the node. -/
theorem withSpan_relocate (n : Node) (s : Site) : ({ s.relocate φ with span := some (n.relocate φ).span } : Site) =
    ({ s with span := some n.span } : Site).relocate φ := by
  rw [Node.span_relocate]
  rfl

section Step

variable (limits : Limits) {sub sub' : Node → Context → Effect Value}
  (hsub : ∀ (S : Links) (n : Node) (c : Context),
    Tracks φ kept S (Value.Linked φ) (sub n c) (sub' (n.relocate φ) (c.relocate φ)))

include hsub

theorem countBetween_tracks {d d' e e' b b' : Datum} (hd : Datum.Linked φ S d d') (he : Datum.Linked φ S e e')
    (hb : Datum.Linked φ S b b') (name : String) (node : Node) (body : Body) (c : Context) :
    Tracks φ kept S (Value.Linked φ) (countBetween limits sub node name body c d e b)
      (countBetween limits sub' (node.relocate φ) name (body.relocate φ) (c.relocate φ) d' e' b') := by
  rw [countBetween, countBetween, hd.payload_eq, he.payload_eq, hb.payload_eq]
  refine .bind (.lift_eq rfl) fun T hT start start' hstart => .bind (.lift_eq rfl) fun U hU by_ by_' hby => ?_
  subst hstart hby
  refine .bind (.lift_eq rfl) fun V hV upward upward' hup => .bind (.lift_eq rfl) fun W hW bound bound' hbound => ?_
  subst hup hbound
  refine .bind (countRounds_tracks hsub c name _ by_' body limits.rounds start' .empty) fun X hX items items' h => ?_
  exact loopValue_tracks node c body h

theorem count_tracks (name : Name) (first last : Node) (by_ : Option Node) (body : Body) (c : Context) :
    Tracks φ kept S (Value.Linked φ) (step limits sub (.count name first last by_ body) c)
      (step limits sub' ((Node.count name first last by_ body).relocate φ) (c.relocate φ)) := by
  refine .bind (hsub S first c) fun T hT v v' hv => .bind (hsub T last c) fun U hU u u' hu => ?_
  cases by_ with
  | none =>
    have hone : Datum.Linked φ U (.number (.int 1)) (.number (.int 1)) := rfl
    exact countBetween_tracks limits hsub (hv.mono hU).1 hu.1 hone name.text (.count name first last none body) body c
  | some n =>
    refine .bind (hsub U n c) fun V hV w w' hw => ?_
    have hv := hv.mono (hU.trans hV)
    have hu := hu.mono hV
    exact countBetween_tracks limits hsub hv.1 hu.1 hw.1 name.text (.count name first last (some n) body) body c

omit hsub in
theorem function_tracks (name : Option Name) (parameters : List Name) (body : Body) (c : Context) :
    Tracks φ kept S (Value.Linked φ) (step limits sub (.function name parameters body) c)
      (step limits sub' ((Node.function name parameters body).relocate φ) (c.relocate φ)) := by
  have hname : functionName ((name.map (Name.relocate φ)).map Name.text) = functionName (name.map Name.text) := by
    cases name <;> rfl
  have hnames : (parameters.map (Name.relocate φ)).map Name.text = parameters.map Name.text := by
    rw [List.map_map]
    rfl
  have hspan := Node.span_relocate φ (.function name parameters body)
  simp only [step, Node.relocate] at hspan ⊢
  rw [hname, hnames, hspan]
  have hf : ∀ T, Datum.Linked φ T (.function ⟨functionName (name.map Name.text), parameters.map Name.text, body⟩)
      (.function ⟨functionName (name.map Name.text), parameters.map Name.text, body.relocate φ⟩) := fun T => rfl
  cases name with
  | none => exact .pure (placed_linked (hf S) _ c)
  | some x => exact .bind (.assign rfl x.text (hf S)) fun T hT _ _ _ => .pure (placed_linked (hf T) _ c)

theorem call_tracks (callee : Node) (arguments : List Node) (c : Context) :
    Tracks φ kept S (Value.Linked φ) (step limits sub (.call callee arguments) c)
      (step limits sub' ((Node.call callee arguments).relocate φ) (c.relocate φ)) := by
  have hspan := Node.span_relocate φ (.call callee arguments)
  simp only [step, Node.relocate, Node.relocateAll_eq_map] at hspan ⊢
  rw [hspan]
  refine .bind (hsub S callee c) fun T hT v v' hv => .bind (.siteOf hv) fun U hU site site' hs => ?_
  refine .bind (Datum.copy_tracks (hv.1.mono hU)) fun V hV d d' hd => ?_
  refine .bind (evalAll_tracks hsub c arguments) fun W hW vs vs' hvs => ?_
  subst hs
  have hcallee : Value.Linked φ W ⟨d, some (Node.call callee arguments).span, site.context⟩
      ⟨d', some ((Node.call callee arguments).span.relocate φ), (site.relocate φ).context⟩ := ⟨hd.mono hW, rfl⟩
  refine .bind (apply_tracks hsub limits hcallee hvs) fun X hX r r' hr => ?_
  exact .bind (Datum.copy_tracks hr.1) fun Y hY e e' he => .pure (placed_linked he _ c)

theorem step_tracks (n : Node) (c : Context) : Tracks φ kept S (Value.Linked φ) (step limits sub n c)
    (step limits sub' (n.relocate φ) (c.relocate φ)) := by
  cases n with
  | number _ _ | string _ _ => exact .pure ⟨rfl, rfl⟩
  | list items span =>
    simp only [step, Node.relocate, Node.relocateAll_eq_map]
    refine .bind (evalAll_tracks hsub c items) fun T hT vs vs' hvs => ?_
    exact .bind (.newList (.of_values hvs)) fun U hU d d' hd => .pure (placed_linked hd span c)
  | access name =>
    refine .bind (.lookup rfl name.text) fun T hT d d' hd => ?_
    cases hd with
    | none => exact .fail rfl
    | some hd => exact .bind (Datum.copy_tracks hd) fun U hU e e' he => .pure (placed_linked he name.span c)
  | assign name value =>
    refine .bind (hsub S value c) fun T hT v v' hv => .bind (.assign rfl name.text hv.1) fun U hU _ _ _ => ?_
    exact .pure (hv.mono hU)
  | binary left op right =>
    refine .bind (hsub S left c) fun T hT l l' hl => .bind (hsub T right c) fun U hU r r' hr => ?_
    cases BinaryOp.ofLexeme? op with
    | none => exact .fault _
    | some op =>
      refine .bind (Value.binary_tracks (hl.mono hU) hr op) fun V hV v v' hv => .resite hv fun s => ?_
      exact withSpan_relocate (.binary left _ right) s
  | unary op operand =>
    refine .bind (hsub S operand c) fun T hT v v' hv => ?_
    have hresult : ∀ U u u', Value.Linked φ U u u' → Tracks φ kept U (Value.Linked φ)
        (Effect.resite u ({ · with span := some (Node.unary op operand).span }))
        (Effect.resite u' ({ · with span := some ((Node.unary op operand).relocate φ).span })) :=
      fun U u u' hu => .resite hu (withSpan_relocate _)
    simp only [Token.relocate_lexeme]
    split
    · exact .bind (Value.opposite_tracks hv) fun U hU u u' hu => hresult U u u' hu
    · exact .bind (Value.negation_tracks hv) fun U hU u u' hu => hresult U u u' hu
    · exact hresult T v v' hv
  | choice first more last =>
    simp only [step, Node.relocate, Case.relocateAll_eq_map, Body.relocateOption_eq_map]
    refine .bind (chooseCase_tracks hsub c (first :: more)) fun T hT v v' hv => ?_
    cases hv with
    | some hv => exact .pure hv
    | none =>
      cases last with
      | none => exact .pure ⟨rfl, rfl⟩
      | some body => exact runBody_tracks hsub c body
  | count name first last by_ body => exact count_tracks limits hsub name first last by_ body c
  | loop test body =>
    refine .bind (whileRounds_tracks hsub c test body limits.rounds .empty) fun T hT items items' h => ?_
    exact loopValue_tracks (.loop test body) c body h
  | function name parameters body => exact function_tracks limits name parameters body c
  | call callee arguments => exact call_tracks limits hsub callee arguments c
  | lone token => exact .fault _

end Step

end Eval

/-- **Evaluation does not look at positions or at the numbers of cells.** -/
theorem eval_tracks (limits : Limits) (depth : Nat) (n : Node) (c : Context) :
    Tracks φ kept S (Value.Linked φ) (eval limits depth n c) (eval limits depth (n.relocate φ) (c.relocate φ)) := by
  induction depth generalizing S n c with
  | zero => exact .fault _
  | succ depth ih => exact Eval.step_tracks limits (fun _ n c => ih n c) n c

end Scriptlet
