import Scriptlet.Proofs.History.Past
/-!
# Effects that agree

`Agree Γ j k l R e e'` says that `e` and `e'`, set on two worlds that have made `j` lists and are within `k` calls, give
results related by `R` and leave the worlds within `l` calls, or stop alike.  `R` is given the number of lists at the end.

Two errors are alike if they have the same reason and the same place, and show the same calls; the one exception are the calls
that null belonged to when the run began.  An error also has a place, but for errors about the operands of an operator in a
tree that is not tidy.

There is one rule here for each of the effects that evaluation is made of.
-/
namespace Scriptlet

/-- An operator has no rule for its operands. -/
def Reason.isAboutOperands : Reason → Bool
  | .illegalOperation | .divisionByZero => true
  | _ => false

/-- The error has both ends of its place. -/
def RuntimeError.isPlaced (e : RuntimeError) : Bool := e.start.isSome && e.stop.isSome

namespace Past

variable {α β γ δ : Type} (Γ : Past)

structure SameError (e e' : RuntimeError) : Prop where
  reason : e'.reason = e.reason
  start : e'.start = e.start
  stop : e'.stop = e.stop
  context : Γ.SameCalls e.context e'.context
  placed : e.isPlaced = true ∨ e.reason.isAboutOperands = true ∧ Γ.tidy = false

def SameStop : Stop → Stop → Prop
  | .error e, .error e' => Γ.SameError e e'
  | .fault f, .fault f' => f' = f
  | _, _ => False

/-- How two effects may end. -/
def Ends (j k : Nat) (R : Nat → α → β → Prop) : Except Stop α × World → Except Stop β × World → Prop
  | (.ok a, w), (.ok b, w') => ∃ j', j ≤ j' ∧ Γ.Meets j' k w w' ∧ R j' a b
  | (.error s, w), (.error s', w') => Γ.SameStop s s' ∧ ∃ j' k', Γ.Meets j' k' w w'
  | _, _ => False

/-- The contexts of two evaluations within so many calls. -/
structure Within (k : Nat) (c c' : Context) : Prop where
  trace : c.trace = c'.trace
  placed : c.isPlaced = true
  scope : c.scope = Γ.left.frame k
  scope' : c'.scope = Γ.right.frame k

/-- The same place, and the same calls. -/
structure SameSite (s s' : Site) : Prop where
  span : s'.span = s.span
  context : Γ.SameCalls s.context s'.context

/-- What two evaluations in the contexts `c` and `c'` may give.  All but null has a place, and what can be called belongs to the
context it was computed in. -/
structure Twin (c c' : Context) (j : Nat) (v v' : Value) : Prop where
  datum : v.datum.Linked id (Γ.Cell j) v'.datum
  fits : v.datum.fits Γ.tidy = true
  site : v.datum ≠ .null → v.site.span.isSome = true ∧ Γ.SameSite v.site v'.site
  owner : v.datum.isCallable = true → v.site.context = some c ∧ v'.site.context = some c'

/-- What an operator may give: it has yet to be given a place. -/
structure Product (j : Nat) (v v' : Value) : Prop where
  datum : v.datum.Linked id (Γ.Cell j) v'.datum
  kind : v.datum.kind = .plain
  context : Γ.SameCalls v.site.context v'.site.context

/-- What the right operand of an operator may be: an error about it shows the same place. -/
structure Operand (j : Nat) (v v' : Value) : Prop where
  datum : v.datum.Linked id (Γ.Cell j) v'.datum
  fits : v.datum.fits Γ.tidy = true
  span : v.datum ≠ .null → v'.site.span = v.site.span

end Past

def Agree {α β : Type} (Γ : Past) (j k l : Nat) (R : Nat → α → β → Prop) (e : Effect α) (e' : Effect β) : Prop :=
  ∀ w w', Γ.Meets j k w w' → Γ.Ends j l R (e.run w) (e'.run w')

section Relations

variable {Γ : Past} {j j' k : Nat} {c c' : Context}

theorem Datum.fits_of_kind {tidy : Bool} {d : Datum} (h : d.kind = .plain) : d.fits tidy = true := by
  cases d with
  | function f => cases h
  | _ => rfl

theorem Past.Within.sameCalls (h : Γ.Within k c c') : Γ.SameCalls (some c) (some c') :=
  .inl ⟨c, c', rfl, rfl, h.trace, h.placed⟩

theorem Past.SameSite.start {s s' : Site} (h : Γ.SameSite s s') : s'.start = s.start := by
  rw [Site.start, h.span, Site.start]

theorem Past.SameSite.stop {s s' : Site} (h : Γ.SameSite s s') : s'.stop = s.stop := by
  rw [Site.stop, h.span, Site.stop]

namespace Past.Twin

variable {v v' : Value} (h : Γ.Twin c c' j v v')

include h

theorem mono (hj : j ≤ j') : Γ.Twin c c' j' v v' := { h with datum := h.datum.mono (Cell.mono hj) }

theorem kept : Γ.Kept j v.datum v'.datum := .of_linked h.datum h.fits

theorem operand : Γ.Operand j v v' := ⟨h.datum, h.fits, fun hv => (h.site hv).2.span⟩

end Past.Twin

theorem Past.Operand.mono {v v' : Value} (h : Γ.Operand j v v') (hj : j ≤ j') : Γ.Operand j' v v' :=
  { h with datum := h.datum.mono (Cell.mono hj) }

/-- Null is the same in both, wherever it was computed. -/
theorem Past.twin_null : Γ.Twin c c' j .null .null := ⟨rfl, rfl, fun h => absurd rfl h, fun h => by cases h⟩

theorem Past.twin_placed (hc : Γ.Within k c c') {d d' : Datum} (hd : d.Linked id (Γ.Cell j) d')
    (hfits : d.fits Γ.tidy = true) (span : Span) : Γ.Twin c c' j (.placed d span c) (.placed d' span c') :=
  ⟨hd, hfits, fun _ => ⟨rfl, rfl, hc.sameCalls⟩, fun _ => ⟨rfl, rfl⟩⟩

theorem Past.Ends.imp {α β : Type} {R Q : Nat → α → β → Prop} {x : Except Stop α × World} {y : Except Stop β × World}
    (h : Γ.Ends j' k R x y) (hj : j ≤ j') (hQ : ∀ j₁, j' ≤ j₁ → ∀ a b, R j₁ a b → Q j₁ a b) : Γ.Ends j k Q x y := by
  obtain ⟨x, w⟩ := x
  obtain ⟨y, w'⟩ := y
  cases x with
  | error s =>
    cases y with
    | error s' => exact h
    | ok b => cases h
  | ok a =>
    cases y with
    | error s' => cases h
    | ok b =>
      obtain ⟨j₁, hj₁, hw, hab⟩ := h
      exact ⟨j₁, Nat.le_trans hj hj₁, hw, hQ j₁ hj₁ a b hab⟩

end Relations

/-! ## Rules -/

namespace Agree

variable {α β γ δ : Type} {Γ : Past} {j k l m : Nat} {c c' : Context}

theorem pure {R : Nat → α → β → Prop} {a : α} {b : β} (h : R j a b) :
    Agree Γ j k k R (Pure.pure a) (Pure.pure b) :=
  fun _ _ hw => ⟨j, Nat.le_refl j, hw, h⟩

theorem bind {R : Nat → α → β → Prop} {Q : Nat → γ → δ → Prop} {e : Effect α} {e' : Effect β} {f : α → Effect γ}
    {f' : β → Effect δ} (he : Agree Γ j k l R e e')
    (hf : ∀ j', j ≤ j' → ∀ a b, R j' a b → Agree Γ j' l m Q (f a) (f' b)) :
    Agree Γ j k m Q (e >>= f) (e' >>= f') := by
  intro w w' hw
  have hends := he w w' hw
  rw [Effect.run_bind, Effect.run_bind]
  generalize e.run w = x, e'.run w' = y at hends
  obtain ⟨x, w₁⟩ := x
  obtain ⟨y, w₁'⟩ := y
  cases x with
  | error s =>
    cases y with
    | error s' => exact hends
    | ok b => cases hends
  | ok a =>
    cases y with
    | error s' => cases hends
    | ok b =>
      obtain ⟨j₁, hj, hw₁, hab⟩ := hends
      exact (hf j₁ hj a b hab w₁ w₁' hw₁).imp hj fun _ _ _ _ h => h

theorem imp {R Q : Nat → α → β → Prop} {e : Effect α} {e' : Effect β} (h : Agree Γ j k l R e e')
    (hQ : ∀ j', j ≤ j' → ∀ a b, R j' a b → Q j' a b) : Agree Γ j k l Q e e' :=
  fun w w' hw => (h w w' hw).imp (Nat.le_refl j) hQ

theorem fault {R : Nat → α → β → Prop} (f : Fault) : Agree Γ j k l R (Effect.fault f) (Effect.fault f) :=
  fun _ _ hw => ⟨rfl, j, k, hw⟩

theorem fail {R : Nat → α → β → Prop} {e e' : RuntimeError} (h : Γ.SameError e e') :
    Agree Γ j k l R (Effect.fail e) (Effect.fail e') :=
  fun _ _ hw => ⟨h, j, k, hw⟩

theorem lift {R : Nat → α → α → Prop} {x : Except Fault α} (h : ∀ a, x = .ok a → R j a a) :
    Agree Γ j k k R (Effect.lift x) (Effect.lift x) := by
  cases x with
  | error f => exact .fault f
  | ok a => exact .pure (h a rfl)

/-- The same computation in both. -/
theorem lift_eq (x : Except Fault α) : Agree Γ j k k (fun _ a b => b = a) (Effect.lift x) (Effect.lift x) :=
  .lift fun _ _ => rfl

theorem get_bind {Q : Nat → γ → δ → Prop} {f : World → Effect γ} {f' : World → Effect δ}
    (h : ∀ w w', Γ.Meets j k w w' → Agree Γ j k l Q (f w) (f' w')) : Agree Γ j k l Q (get >>= f) (get >>= f') :=
  fun w w' hw => h w w' hw w w' hw

theorem modify {f f' : World → World} (h : ∀ w w', Γ.Meets j k w w' → Γ.Meets j l (f w) (f' w')) :
    Agree Γ j k l (fun _ _ _ => True) (modify f : Effect Unit) (modify f' : Effect Unit) :=
  fun w w' hw => ⟨j, Nat.le_refl j, h w w' hw, trivial⟩

/-! ### Sites -/

/-- The site of null is in the world, and that of all else is its own. -/
theorem siteOf_of_linked {R : Site → Site → Prop} {v v' : Value} (hd : v.datum.Linked id (Γ.Cell j) v'.datum)
    (hnull : v.datum = .null → ∀ w w', Γ.Meets j k w w' → R w.nullSite w'.nullSite)
    (hsite : v.datum ≠ .null → R v.site v'.site) :
    Agree Γ j k k (fun _ => R) (Effect.siteOf v) (Effect.siteOf v') := by
  obtain ⟨d, site⟩ := v
  obtain ⟨d', site'⟩ := v'
  unfold Effect.siteOf
  cases d with
  | null =>
    cases hd
    exact .get_bind fun w w' hw => .pure (hnull rfl w w' hw)
  | list n =>
    obtain ⟨n', hn', -⟩ := hd
    cases hn'
    exact .pure (hsite (by simp))
  | _ =>
    cases hd
    exact .pure (hsite (by simp))

theorem siteOf {v v' : Value} (hv : Γ.Twin c c' j v v') :
    Agree Γ j k k (fun _ s s' => Γ.SameSite s s' ∧ (v.datum ≠ .null → s = v.site ∧ s' = v'.site)) (Effect.siteOf v)
      (Effect.siteOf v') := by
  refine .siteOf_of_linked hv.datum (fun hnull w w' hw => ⟨⟨?_, hw.nullContext⟩, absurd hnull⟩)
    fun hne => ⟨(hv.site hne).2, fun _ => ⟨rfl, rfl⟩⟩
  rw [hw.nullSpan.1, hw.nullSpan.2]

/-- Only the place of an operand is shown. -/
theorem siteOf_span {v v' : Value} (hv : Γ.Operand j v v') :
    Agree Γ j k k (fun _ s s' => s'.span = s.span ∧ (v.datum ≠ .null → s = v.site)) (Effect.siteOf v)
      (Effect.siteOf v') := by
  refine .siteOf_of_linked hv.datum (fun hnull w w' hw => ⟨?_, absurd hnull⟩) fun hne => ⟨hv.span hne, fun _ => rfl⟩
  rw [hw.nullSpan.1, hw.nullSpan.2]

/-- What an operator gives gets the place of the node, and null never does. -/
theorem resite_span {v v' : Value} (hv : Γ.Product j v v') (span : Span) :
    Agree Γ j k k (fun j u u' => Γ.Twin c c' j u u' ∧ u.datum.kind = .plain)
      (Effect.resite v ({ · with span := some span })) (Effect.resite v' ({ · with span := some span })) := by
  obtain ⟨d, site⟩ := v
  obtain ⟨d', site'⟩ := v'
  have hd : d.Linked id (Γ.Cell j) d' := hv.datum
  have hkind : d.kind = .plain := hv.kind
  have htwin : Γ.Twin c c' j ⟨d, some span, site.context⟩ ⟨d', some span, site'.context⟩ := by
    refine ⟨hd, Datum.fits_of_kind hkind, fun _ => ⟨rfl, rfl, hv.context⟩, fun hcall => ?_⟩
    cases d with
    | function _ | builtin _ => cases hkind
    | _ => cases hcall
  unfold Effect.resite
  cases d with
  | number x | string s =>
    cases hd
    exact .pure ⟨htwin, rfl⟩
  | list n =>
    obtain ⟨n', rfl, hn⟩ := hd
    exact .pure ⟨htwin, rfl⟩
  | _ => cases hkind

/-- An argument gets the context of the call; if it is null, so does every other null. -/
theorem resite_context {v v' : Value} (hv : Γ.Twin c c' j v v') {i i' : Context} (hi : Γ.Within l i i') :
    Agree Γ j k k (fun j u u' => Γ.Kept j u.datum u'.datum) (Effect.resite v ({ · with context := some i }))
      (Effect.resite v' ({ · with context := some i' })) := by
  obtain ⟨d, site⟩ := v
  obtain ⟨d', site'⟩ := v'
  have hd : d.Linked id (Γ.Cell j) d' := hv.datum
  have hkept : Γ.Kept j d d' := hv.kept
  unfold Effect.resite
  cases d with
  | null =>
    cases hd
    refine .bind (.modify fun w w' hw => hw.withNullSite hw.nullSpan hi.sameCalls) fun j₁ hj _ _ _ => .pure ?_
    exact hkept.mono hj
  | list n =>
    obtain ⟨n', rfl, -⟩ := hd
    exact .pure hkept
  | _ =>
    cases hd
    exact .pure hkept

/-! ### Lists -/

theorem elements {n n' : Nat} (hn : Γ.Cell j n n') :
    Agree Γ j k k (fun j => Rows (Γ.Kept j)) (Effect.elements n) (Effect.elements n') :=
  .get_bind fun _ _ hw => .pure (hw.elements hn)

theorem newList {items items' : Array Datum} (h : Rows (Γ.Kept j) items items') :
    Agree Γ j k k (fun j d d' => d.Linked id (Γ.Cell j) d' ∧ d.kind = .plain) (Effect.newList items)
      (Effect.newList items') := by
  intro w w' hw
  obtain ⟨hcell, hmeets⟩ := hw.newList h
  exact ⟨j + 1, Nat.le_succ j, hmeets, ⟨_, rfl, hcell⟩, rfl⟩

theorem append {n n' : Nat} (hn : Γ.Cell j n n') {d d' : Datum} (hd : Γ.Kept j d d') :
    Agree Γ j k k (fun _ _ _ => True) (Effect.append n d) (Effect.append n' d') :=
  .modify fun _ _ hw => hw.append hn hd

/-! ### Names -/

theorem lookup (hc : Γ.Within k c c') (name : String) :
    Agree Γ j k k (fun j => Option.Rel (Γ.Kept j)) (Effect.lookup c name) (Effect.lookup c' name) := by
  refine .get_bind fun w w' hw => .pure ?_
  rw [hc.scope, hc.scope']
  exact hw.names.get? name (Nat.le_refl k)

theorem assign (hc : Γ.Within k c c') (name : String) {d d' : Datum} (hd : Γ.Kept j d d') :
    Agree Γ j k k (fun _ _ _ => True) (Effect.assign c name d) (Effect.assign c' name d') := by
  refine .modify fun w w' hw => ?_
  rw [hc.scope, hc.scope']
  exact hw.withScopes (hw.names.set name hd)

theorem newScope (hc : Γ.Within k c c') : Agree Γ j k (k + 1)
    (fun _ n n' => n = Γ.left.frame (k + 1) ∧ n' = Γ.right.frame (k + 1)) (Effect.newScope c.scope)
    (Effect.newScope c'.scope) := by
  intro w w' hw
  rw [hc.scope, hc.scope']
  exact ⟨j, Nat.le_refl j, hw.withScopes hw.names.push, hw.names.left.size, hw.names.right.size⟩

theorem leaveScope : Agree Γ j (k + 1) k (fun _ _ _ => True) Effect.leaveScope Effect.leaveScope :=
  .modify fun _ _ hw => hw.withScopes hw.names.pop

/-! ### Input and output -/

theorem write (s : String) : Agree Γ j k k (fun _ _ _ => True) (Effect.write s) (Effect.write s) :=
  .modify fun _ _ hw => hw.write s

theorem readLine : Agree Γ j k k (fun _ s s' => s' = s) Effect.readLine Effect.readLine := by
  refine .get_bind fun w w' hw => ?_
  rw [hw.input]
  cases w.input with
  | nil => exact .fault _
  | cons x xs => exact .bind (.modify fun w w' hw => hw.withInput _) fun _ _ _ _ _ => .pure rfl

/-- What is printed of data that are the same. -/
theorem text (depth : Nat) {d d' : Datum} (hd : Γ.Kept j d d') {Q : Nat → γ → δ → Prop} {f : String → Effect γ}
    {f' : String → Effect δ} (hf : ∀ s, Agree Γ j k l Q (f s) (f' s)) :
    Agree Γ j k l Q (do f (← Effect.lift ((← get).text depth d))) (do f' (← Effect.lift ((← get).text depth d'))) := by
  refine .get_bind fun w w' hw => ?_
  rw [hw.text_eq depth hd.same]
  cases w.text depth d with
  | error e => exact .fault e
  | ok s => exact hf s

end Agree

end Scriptlet
