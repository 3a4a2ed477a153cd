import Scriptlet.Proofs.Conduct.Evaluation
/-!
# The evaluations that are under way

To evaluate a node, its parts have to be evaluated, and the bodies of the functions it calls, and so on.  Which evaluations
these are depends on what has been computed before.  An effect *asks* for the value of a node in a context and a world if it
would end otherwise were that value another one (`Asks`); since it could then also stop there, this misses nothing.
`Underway` follows the questions from one evaluation to the next, and keeps the list of the calls on the way: a call is where
the questions go over to another context.

At every evaluation under way the world stands, and the chain of contexts is the list of the calls: `Underway.standing`.
-/
namespace Scriptlet

/-- The context is that of the calls, innermost first, made one from within the other from the root on. -/
inductive Context.Carries (root : Context) : List Node → Context → Prop
  | root : Carries root [] root
  | call {calls : List Node} {caller : Context} {callee : Node} {arguments : List Node} {name : String} {scope : Nat} :
      Carries root calls caller → Carries root (.call callee arguments :: calls)
        (.call name (some (Node.call callee arguments).span.start) scope caller)

theorem Context.call_ne_caller (name : String) (entry : Option Position) (scope : Nat) (caller : Context) :
    Context.call name entry scope caller ≠ caller := by
  intro h
  have hsize := congrArg sizeOf h
  simp at hsize

namespace Eval

abbrev Evaluator : Type := Node → Context → Effect Value

open Classical in
/-- Evaluates like `sub`, but has another reply for one node in one context and world. -/
noncomputable def diverted (sub : Evaluator) (n : Node) (c : Context) (w : World) (reply : Except Stop Value × World) :
    Evaluator :=
  fun n' c' => ExceptT.mk fun w' => if n' = n ∧ c' = c ∧ w' = w then reply else (sub n' c').run w'

/-- The effect, begun in the world `w`, depends on the value of a node in a context and a world. -/
def Asks {α : Type} (effect : Evaluator → Effect α) (sub : Evaluator) (w : World) (n : Node) (c : Context) (u : World) :
    Prop :=
  ∃ reply, (effect (diverted sub n c u reply)).run w ≠ (effect sub).run w

/-- The evaluations, each with the depth left to it, that an effect begun in the world `w` comes to, and the calls it is in
meanwhile. -/
inductive Underway {α : Type} (limits : Limits) (effect : Evaluator → Effect α) (depth : Nat) (w : World) :
    List Node → Nat → Node → Context → World → Prop
  | asked {n : Node} {c : Context} {u : World} : Asks effect (eval limits depth) w n c u →
      Underway limits effect depth w [] depth n c u
  | part {calls : List Node} {d : Nat} {n n' : Node} {c : Context} {u u' : World} :
      Underway limits effect depth w calls (d + 1) n c u →
      Asks (fun sub => step limits sub n c) (eval limits d) u n' c u' →
      Underway limits effect depth w calls d n' c u'
  | body {calls : List Node} {d : Nat} {n n' : Node} {c c' : Context} {u u' : World} :
      Underway limits effect depth w calls (d + 1) n c u →
      Asks (fun sub => step limits sub n c) (eval limits d) u n' c' u' → c' ≠ c →
      Underway limits effect depth w (n :: calls) d n' c' u'

theorem asks_self (sub : Evaluator) (n : Node) (c : Context) (w : World) : Asks (fun sub => sub n c) sub w n c w := by
  have hother : ∃ reply, reply ≠ (sub n c).run w := by
    obtain ⟨x, u⟩ := (sub n c).run w
    cases x with
    | ok v => exact ⟨(.error (.fault .exhausted), u), fun h => by cases h⟩
    | error s => exact ⟨(.ok .null, u), fun h => by cases h⟩
  obtain ⟨reply, hreply⟩ := hother
  refine ⟨reply, ?_⟩
  have hrun : (diverted sub n c w reply n c).run w = reply := if_pos ⟨rfl, rfl, rfl⟩
  rw [hrun]
  exact hreply

/-- An effect that stops wherever the value of a node does asks for that value. -/
theorem asks_of_stops {α : Type} {effect : Evaluator → Effect α} {sub : Evaluator} {w u : World} {n : Node} {c : Context}
    (h : ∀ f, (effect (diverted sub n c u (.error (.fault f), u))).run w = (.error (.fault f), u)) :
    Asks effect sub w n c u := by
  by_cases hend : (effect sub).run w = (.error (.fault .exhausted), u)
  · refine ⟨(.error (.fault .tooDeep), u), ?_⟩
    rw [h, hend]
    intro heq
    cases heq
  · refine ⟨(.error (.fault .exhausted), u), ?_⟩
    rw [h]
    exact fun heq => hend heq.symm

/-- What is under way was asked for by the effect in the first place. -/
theorem Underway.exists_asks {α : Type} {limits : Limits} {effect : Evaluator → Effect α} {depth d : Nat} {w u : World}
    {calls : List Node} {n : Node} {c : Context} (h : Underway limits effect depth w calls d n c u) :
    ∃ n c u, Asks effect (eval limits depth) w n c u := by
  induction h with
  | asked hasks => exact ⟨_, _, _, hasks⟩
  | part _ _ ih => exact ih
  | body _ _ _ ih => exact ih

/-- An effect that only depends on the evaluations for which `I` holds asks for no other. -/
theorem Asks.of_determined {α : Type} {effect : Evaluator → Effect α} {sub : Evaluator} {w u : World} {n : Node}
    {c : Context} (h : Asks effect sub w n c u) {I : Node → Context → World → Prop}
    (hI : ∀ sub' : Evaluator, (∀ n' c' w', I n' c' w' → (sub' n' c').run w' = (sub n' c').run w') →
      (effect sub').run w = (effect sub).run w) : I n c u := by
  by_contra hnot
  obtain ⟨reply, hreply⟩ := h
  refine hreply (hI _ fun n' c' w' hI' => if_neg ?_)
  rintro ⟨rfl, rfl, rfl⟩
  exact hnot hI'

section Standing

variable {Γ : Ground}

theorem parts_of_agree (limits : Limits) (d : Nat) {ps : List (Option Nat)} {c : Context} (hc : Γ.Over ps c)
    {sub' : Evaluator} (h : ∀ k n w, Standing Γ ps k w → (sub' n c).run w = (eval limits d n c).run w) :
    PartsAt Γ ps c (eval limits d) sub' := by
  intro k n hn w hw
  exact ⟨h k n w hw, (eval_ensures limits d hc hn w hw).2⟩

variable (hΓ : ¬Γ.strict)

include hΓ

/-- A node asks for nodes in its own context, and if it is a call, for nodes in the context made for the call. -/
theorem asks_step {limits : Limits} {d k : Nat} {ps : List (Option Nat)} {n n' : Node} {c c' : Context} {u u' : World}
    (hc : Γ.Over ps c) (hu : Standing Γ ps k u)
    (h : Asks (fun sub => step limits sub n c) (eval limits d) u n' c' u') :
    (c' = c ∧ ∃ k', Standing Γ ps k' u') ∨
      ∃ callee arguments name, n = .call callee arguments ∧ c' = .call name (some n.span.start) ps.length c ∧
        ∃ k', Standing Γ (ps ++ [some c.scope]) k' u' := by
  refine h.of_determined (I := fun _ c' u' => (c' = c ∧ ∃ k', Standing Γ ps k' u') ∨
    ∃ callee arguments name, n = .call callee arguments ∧ c' = .call name (some n.span.start) ps.length c ∧
      ∃ k', Standing Γ (ps ++ [some c.scope]) k' u') fun sub' hsub' => ?_
  have hn : Γ.strict → n.isRunnable = true := fun h => (hΓ h).elim
  refine (step_ensures limits hc ?_ hn ?_ u hu).1
  · exact parts_of_agree limits d hc fun k m w hw => hsub' m c w (.inl ⟨rfl, k, hw⟩)
  · intro callee arguments hcall name
    refine parts_of_agree limits d (hc.enter name _) fun k m w hw => hsub' m _ w (.inr ?_)
    exact ⟨callee, arguments, name, hcall, rfl, k, hw⟩

/-- **At every evaluation under way the world stands**, and the context is that of the calls under way. -/
theorem Underway.standing {α : Type} {limits : Limits} {effect : Evaluator → Effect α} {depth d : Nat} {w u : World}
    {calls : List Node} {n : Node} {c : Context}
    (hfirst : ∀ n c u, Asks effect (eval limits depth) w n c u →
      c = Γ.root ∧ ∃ ps k, Γ.Over ps c ∧ Standing Γ ps k u)
    (h : Underway limits effect depth w calls d n c u) :
    Γ.root.Carries calls c ∧ ∃ ps k, Γ.Over ps c ∧ Standing Γ ps k u := by
  induction h with
  | asked hasks =>
    obtain ⟨rfl, hu⟩ := hfirst _ _ _ hasks
    exact ⟨.root, hu⟩
  | part _ hasks ih =>
    obtain ⟨hcarries, ps, k, hc, hu⟩ := ih
    rcases asks_step hΓ hc hu hasks with ⟨-, k', hu'⟩ | ⟨_, _, _, -, heq, -⟩
    · exact ⟨hcarries, ps, k', hc, hu'⟩
    · exact absurd heq.symm (Context.call_ne_caller _ _ _ _)
  | body _ hasks hne ih =>
    obtain ⟨hcarries, ps, k, hc, hu⟩ := ih
    rcases asks_step hΓ hc hu hasks with ⟨heq, -⟩ | ⟨callee, arguments, name, rfl, rfl, k', hu'⟩
    · exact absurd heq hne
    · exact ⟨.call hcarries, _, k', hc.enter name _, hu'⟩

end Standing

end Eval

end Scriptlet
