import Scriptlet.Proofs.Conduct.Standing
/-!
# What an effect ensures

`Ensures Γ ps ps' k R e e'` says that `e`, set on a world that stands with the scopes `ps` and `k` lists, gives a result for
which `R` holds and leaves a world that stands with the scopes `ps'` and no fewer lists, or stops without having spoiled the
ground; and that `e'` does the same there.  The second effect is there to ask what the first one depends on: if they are
made of parts that differ only where `e` never comes to, they are the same.

There is one rule here for each of the effects that evaluation is made of.
-/
namespace Scriptlet

variable {α β : Type} {Γ : Ground} {ps ps' ps₁ : List (Option Nat)} {k : Nat} {c : Context}

/-- How an effect may end: with a result, or stopped. -/
def Leaves (Γ : Ground) (ps : List (Option Nat)) (k : Nat) (R : Nat → α → Prop) : Except Stop α × World → Prop
  | (.ok a, w) => ∃ k', k ≤ k' ∧ Standing Γ ps k' w ∧ R k' a
  | (.error s, w) => Stopped Γ s w

def Ensures (Γ : Ground) (ps ps' : List (Option Nat)) (k : Nat) (R : Nat → α → Prop) (e e' : Effect α) : Prop :=
  ∀ w, Standing Γ ps k w → e'.run w = e.run w ∧ Leaves Γ ps' k R (e.run w)

theorem Leaves.imp {k₁ : Nat} {R Q : Nat → α → Prop} {r : Except Stop α × World} (h : Leaves Γ ps k₁ R r) (hk : k ≤ k₁)
    (hQ : ∀ k₂, k₁ ≤ k₂ → ∀ a, R k₂ a → Q k₂ a) : Leaves Γ ps k Q r := by
  obtain ⟨x, w⟩ := r
  cases x with
  | error s => exact h
  | ok a =>
    obtain ⟨k₂, hk₂, hw, ha⟩ := h
    exact ⟨k₂, Nat.le_trans hk hk₂, hw, hQ k₂ hk₂ a ha⟩

theorem Leaves.base {R : Nat → α → Prop} {r : Except Stop α × World} (h : Leaves Γ ps k R r) :
    Γ.base <+: r.2.scopes.all.toList := by
  obtain ⟨x, u⟩ := r
  cases x with
  | ok a =>
    obtain ⟨k', -, hu, -⟩ := h
    exact hu.base
  | error s =>
    have hu : Stopped Γ s u := h
    exact hu.base

namespace Ensures

theorem pure {R : Nat → α → Prop} {a : α} (h : R k a) : Ensures Γ ps ps k R (Pure.pure a) (Pure.pure a) :=
  fun _ hw => ⟨rfl, k, Nat.le_refl k, hw, h⟩

theorem bind {R : Nat → α → Prop} {Q : Nat → β → Prop} {e e' : Effect α} {f f' : α → Effect β}
    (he : Ensures Γ ps ps₁ k R e e')
    (hf : ∀ k₁, k ≤ k₁ → ∀ a, R k₁ a → Ensures Γ ps₁ ps' k₁ Q (f a) (f' a)) :
    Ensures Γ ps ps' k Q (e >>= f) (e' >>= f') := by
  intro w hw
  obtain ⟨hsame, hleaves⟩ := he w hw
  rw [Effect.run_bind, Effect.run_bind, hsame]
  generalize e.run w = r at hleaves
  obtain ⟨x, w₁⟩ := r
  cases x with
  | error s => exact ⟨rfl, hleaves⟩
  | ok a =>
    obtain ⟨k₁, hk, hw₁, ha⟩ := hleaves
    obtain ⟨hsame, hleaves⟩ := hf k₁ hk a ha w₁ hw₁
    exact ⟨hsame, hleaves.imp hk fun _ _ _ hb => hb⟩

theorem imp {R Q : Nat → α → Prop} {e e' : Effect α} (h : Ensures Γ ps ps' k R e e')
    (hQ : ∀ k₁, k ≤ k₁ → ∀ a, R k₁ a → Q k₁ a) : Ensures Γ ps ps' k Q e e' := by
  intro w hw
  obtain ⟨hsame, hleaves⟩ := h w hw
  exact ⟨hsame, hleaves.imp (Nat.le_refl k) hQ⟩

theorem fault {R : Nat → α → Prop} {f : Fault} (h : Γ.strict → f.isInternal = false) :
    Ensures Γ ps ps' k R (Effect.fault f) (Effect.fault f) := by
  refine fun _ hw => ⟨rfl, hw.stopped fun hΓ => ?_⟩
  rw [Stop.isOrdinary, h hΓ]
  rfl

theorem fail {R : Nat → α → Prop} (e : RuntimeError) : Ensures Γ ps ps' k R (Effect.fail e) (Effect.fail e) :=
  fun _ hw => ⟨rfl, hw.stopped fun _ => rfl⟩

theorem get_bind {Q : Nat → α → Prop} {f f' : World → Effect α}
    (h : ∀ w, Standing Γ ps k w → Ensures Γ ps ps' k Q (f w) (f' w)) :
    Ensures Γ ps ps' k Q (get >>= f) (get >>= f') :=
  fun w hw => h w hw w hw

theorem modify {f : World → World} (h : ∀ w, Standing Γ ps k w → Standing Γ ps' k (f w)) :
    Ensures Γ ps ps' k (fun _ _ => True) (modify f : Effect Unit) (modify f : Effect Unit) :=
  fun w hw => ⟨rfl, k, Nat.le_refl k, h w hw, trivial⟩

/-! ## Computations

A computation that touches nothing is ordinary if it does not end in an internal fault. -/

end Ensures

def Ordinary (x : Except Fault α) : Prop := ∀ f, x = .error f → f.isInternal = false

theorem Ordinary.ok (a : α) : Ordinary (.ok a) := fun _ h => by cases h

theorem Ordinary.error {f : Fault} (h : f.isInternal = false) : Ordinary (.error f : Except Fault α) := by
  intro g hg
  cases hg
  exact h

theorem Ordinary.ite {p : Prop} [Decidable p] {x y : Except Fault α} (hx : Ordinary x) (hy : Ordinary y) :
    Ordinary (if p then x else y) := by
  split
  · exact hx
  · exact hy

theorem Ordinary.bind {x : Except Fault α} {f : α → Except Fault β} (hx : Ordinary x) (hf : ∀ a, Ordinary (f a)) :
    Ordinary (x >>= f) := by
  cases x with
  | error e => exact .error (hx e rfl)
  | ok a => exact hf a

namespace Ensures

theorem lift {R : Nat → α → Prop} {x : Except Fault α} (h : ∀ a, x = .ok a → R k a)
    (hx : Γ.strict → Ordinary x) : Ensures Γ ps ps k R (Effect.lift x) (Effect.lift x) := by
  cases x with
  | ok a => exact .pure (h a rfl)
  | error f => exact .fault fun hΓ => hx hΓ f rfl

/-- A computation whose result may be anything. -/
theorem lift_any {x : Except Fault α} (hx : Ordinary x) :
    Ensures Γ ps ps k (fun _ _ => True) (Effect.lift x) (Effect.lift x) :=
  .lift (fun _ _ => trivial) fun _ => hx

/-! ## Sites -/

theorem siteOf (v : Value) : Ensures Γ ps ps k (fun _ s => v.datum.isCallable = true → s = v.site)
    (Effect.siteOf v) (Effect.siteOf v) := by
  obtain ⟨d, site⟩ := v
  unfold Effect.siteOf
  cases d with
  | null => exact .get_bind fun _ _ => .pure fun h => by cases h
  | _ => exact .pure fun _ => rfl

/-- A value that is given another span still belongs to its context. -/
theorem resite {v : Value} (hv : Γ.Own c k v) {f : Site → Site} (hf : ∀ s, (f s).context = s.context) :
    Ensures Γ ps ps k (Γ.Own c) (Effect.resite v f) (Effect.resite v f) := by
  obtain ⟨d, site⟩ := v
  unfold Effect.resite
  cases d with
  | null =>
    refine .bind (.modify fun w hw => hw.of_eq rfl rfl) fun k₁ hk _ _ => .pure (hv.mono hk)
  | _ =>
    refine .pure ⟨hv.fit, fun hcall => ?_⟩
    rw [hf]
    exact hv.context hcall

theorem resite_fit {v : Value} (hv : Γ.Fit k v.datum) (f : Site → Site) :
    Ensures Γ ps ps k (fun k u => Γ.Fit k u.datum) (Effect.resite v f) (Effect.resite v f) := by
  obtain ⟨d, site⟩ := v
  unfold Effect.resite
  cases d with
  | null => exact .bind (.modify fun w hw => hw.of_eq rfl rfl) fun k₁ hk _ _ => .pure (hv.mono hk)
  | _ => exact .pure hv

/-! ## Lists -/

theorem elements (cell : Nat) : Ensures Γ ps ps k (fun k items => ∀ d ∈ items.toList, Γ.Fit k d)
    (Effect.elements cell) (Effect.elements cell) :=
  .get_bind fun _ hw => .pure (hw.elements_fit cell)

theorem newList {items : Array Datum} (h : ∀ d ∈ items.toList, Γ.Fit k d) :
    Ensures Γ ps ps k (fun k d => Γ.Fit k d ∧ d.isCallable = false) (Effect.newList items) (Effect.newList items) := by
  intro w hw
  have hcell : w.lists.size < k + 1 := Nat.lt_succ_of_le (Nat.le_of_eq hw.cells)
  exact ⟨rfl, k + 1, Nat.le_succ k, hw.newList h, fun _ => hcell, rfl⟩

theorem append (cell : Nat) {d : Datum} (h : Γ.Fit k d) :
    Ensures Γ ps ps k (fun _ _ => True) (Effect.append cell d) (Effect.append cell d) :=
  .modify fun _ hw => hw.append cell h

/-! ## Names -/

theorem lookup (c : Context) (name : String) : Ensures Γ ps ps k (fun k o => ∀ d, o = some d → Γ.Fit k d)
    (Effect.lookup c name) (Effect.lookup c name) :=
  .get_bind fun _ hw => .pure fun _ hd => hw.lookup_fit hd

theorem assign (hc : Γ.base.length ≤ c.scope) (name : String) {d : Datum} (hd : Γ.Fit k d) :
    Ensures Γ ps ps k (fun _ _ => True) (Effect.assign c name d) (Effect.assign c name d) :=
  .modify fun _ hw => hw.set hc name hd

theorem newScope (parent : Nat) : Ensures Γ ps (ps ++ [some parent]) k (fun _ n => n = ps.length)
    (Effect.newScope parent) (Effect.newScope parent) := by
  intro w hw
  have hsize : w.scopes.size = ps.length := by rw [← Scopes.length_parents, hw.parents]
  exact ⟨rfl, k, Nat.le_refl k, hw.push _, hsize⟩

theorem leaveScope {p : Option Nat} (hshape : Γ.shape <+: ps) (hbase : Γ.base.length ≤ ps.length) :
    Ensures Γ (ps ++ [p]) ps k (fun _ _ => True) Effect.leaveScope Effect.leaveScope :=
  .modify fun _ hw => hw.pop hshape hbase

/-! ## Input and output -/

theorem write (s : String) : Ensures Γ ps ps k (fun _ _ => True) (Effect.write s) (Effect.write s) :=
  .modify fun _ hw => hw.of_eq rfl rfl

theorem readLine : Ensures Γ ps ps k (fun _ _ => True) Effect.readLine Effect.readLine := by
  refine .get_bind fun w _ => ?_
  cases w.input with
  | nil => exact .fault fun _ => rfl
  | cons x xs => exact .bind (.modify fun w hw => hw.of_eq rfl rfl) fun _ _ _ _ => .pure trivial

end Ensures

end Scriptlet
