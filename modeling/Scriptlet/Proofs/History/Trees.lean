import Scriptlet.Eval.Basic
import Scriptlet.Proofs.Grammar.Soundness
/-!
# The parts of a tree

`Node.every` checks a tree and all its parts.  Two checks are made here.  A sign is known if it is a minus or a `not`; the
grammar knows no other (`Parse.program_hasKnownSigns`).  An operation is tidy if its operands are never null, and a minus is
tidy if its operand is never a function.  Which kinds of value a node may give can be read off its form: `Node.mayGive`.
-/
namespace Scriptlet

/-! ## Parts -/

def Case.parts : Case → List Node
  | .mk test body => [test, body.node]

/-- The nodes that a node is made of. -/
def Node.parts : Node → List Node
  | .number _ _ | .string _ _ | .access _ | .lone _ => []
  | .list items _ => items
  | .assign _ value => [value]
  | .binary left _ right => [left, right]
  | .unary _ operand => [operand]
  | .choice first more otherwise => (first :: more).flatMap Case.parts ++ otherwise.toList.map Body.node
  | .count _ first last step body => first :: last :: (step.toList ++ [body.node])
  | .loop test body => [test, body.node]
  | .function _ _ body => [body.node]
  | .call callee arguments => callee :: arguments

mutual

/-- The check holds of a tree and of all its parts. -/
def Node.every (check : Node → Bool) : Node → Bool
  | .number n span => check (.number n span)
  | .string s span => check (.string s span)
  | .access name => check (.access name)
  | .lone token => check (.lone token)
  | .list items span => check (.list items span) && Node.allEvery check items
  | .assign name value => check (.assign name value) && value.every check
  | .binary left op right => check (.binary left op right) && left.every check && right.every check
  | .unary op operand => check (.unary op operand) && operand.every check
  | .choice first more otherwise =>
    check (.choice first more otherwise) && first.every check && Case.allEvery check more && Body.optionEvery check otherwise
  | .count name first last step body =>
    check (.count name first last step body) && first.every check && last.every check && Node.optionEvery check step &&
      body.every check
  | .loop test body => check (.loop test body) && test.every check && body.every check
  | .function name parameters body => check (.function name parameters body) && body.every check
  | .call callee arguments => check (.call callee arguments) && callee.every check && Node.allEvery check arguments

def Body.every (check : Node → Bool) : Body → Bool
  | .inline node | .block node => node.every check

def Case.every (check : Node → Bool) : Case → Bool
  | .mk test body => test.every check && body.every check

def Node.allEvery (check : Node → Bool) : List Node → Bool
  | [] => true
  | n :: rest => n.every check && Node.allEvery check rest

def Case.allEvery (check : Node → Bool) : List Case → Bool
  | [] => true
  | c :: rest => c.every check && Case.allEvery check rest

def Node.optionEvery (check : Node → Bool) : Option Node → Bool
  | none => true
  | some n => n.every check

def Body.optionEvery (check : Node → Bool) : Option Body → Bool
  | none => true
  | some b => b.every check

end

section Every

variable {check : Node → Bool}

theorem Node.allEvery_iff {ns : List Node} : Node.allEvery check ns = true ↔ ∀ n ∈ ns, n.every check = true := by
  induction ns with
  | nil => exact iff_of_true rfl (by simp)
  | cons n ns ih =>
    show (n.every check && Node.allEvery check ns) = true ↔ _
    rw [Bool.and_eq_true, ih, List.forall_mem_cons]

theorem Body.every_iff {b : Body} : b.every check = true ↔ b.node.every check = true := by
  cases b <;> exact Iff.rfl

theorem Case.every_iff {c : Case} : c.every check = true ↔ ∀ n ∈ c.parts, n.every check = true := by
  cases c with
  | mk test body =>
    show (test.every check && body.every check) = true ↔ _
    simp [Case.parts, Body.every_iff]

theorem Case.allEvery_iff {cs : List Case} :
    Case.allEvery check cs = true ↔ ∀ n ∈ cs.flatMap Case.parts, n.every check = true := by
  induction cs with
  | nil => exact iff_of_true rfl (by simp)
  | cons c cs ih =>
    show (c.every check && Case.allEvery check cs) = true ↔ _
    rw [Bool.and_eq_true, ih, Case.every_iff, List.flatMap_cons, List.forall_mem_append]

theorem Node.optionEvery_iff {n : Option Node} :
    Node.optionEvery check n = true ↔ ∀ m ∈ n.toList, m.every check = true := by
  cases n with
  | none => exact iff_of_true rfl (by simp)
  | some n =>
    show n.every check = true ↔ _
    simp

theorem Body.optionEvery_iff {b : Option Body} :
    Body.optionEvery check b = true ↔ ∀ m ∈ b.toList.map Body.node, m.every check = true := by
  cases b with
  | none => exact iff_of_true rfl (by simp)
  | some b =>
    show b.every check = true ↔ _
    simp [Body.every_iff]

/-- **A check of a tree is a check of its root and of its parts.** -/
theorem Node.every_iff {n : Node} : n.every check = true ↔ check n = true ∧ ∀ m ∈ n.parts, m.every check = true := by
  cases n with
  | number _ _ | string _ _ | access _ | lone _ => exact (and_iff_left (by simp [Node.parts])).symm
  | list items span =>
    show (check _ && Node.allEvery check items) = true ↔ _
    rw [Bool.and_eq_true, Node.allEvery_iff]
    rfl
  | assign name value =>
    show (check _ && value.every check) = true ↔ _
    simp [Node.parts]
  | binary left op right =>
    show (check _ && left.every check && right.every check) = true ↔ _
    simp [Node.parts, and_assoc]
  | unary op operand =>
    show (check _ && operand.every check) = true ↔ _
    simp [Node.parts]
  | choice first more otherwise =>
    show (check _ && first.every check && Case.allEvery check more && Body.optionEvery check otherwise) = true ↔ _
    rw [Bool.and_eq_true, Bool.and_eq_true, Bool.and_eq_true, Case.every_iff, Case.allEvery_iff, Body.optionEvery_iff,
      Node.parts, List.flatMap_cons, List.forall_mem_append, List.forall_mem_append, and_assoc, and_assoc, and_assoc]
  | count name first last step body =>
    show (check _ && first.every check && last.every check && Node.optionEvery check step && body.every check) = true ↔ _
    rw [Bool.and_eq_true, Bool.and_eq_true, Bool.and_eq_true, Bool.and_eq_true, Node.optionEvery_iff, Body.every_iff,
      Node.parts, List.forall_mem_cons, List.forall_mem_cons, List.forall_mem_append, List.forall_mem_singleton, and_assoc,
      and_assoc, and_assoc]
  | loop test body =>
    show (check _ && test.every check && body.every check) = true ↔ _
    simp [Node.parts, Body.every_iff, and_assoc]
  | function name parameters body =>
    show (check _ && body.every check) = true ↔ _
    simp [Node.parts, Body.every_iff]
  | call callee arguments =>
    show (check _ && callee.every check && Node.allEvery check arguments) = true ↔ _
    rw [Bool.and_eq_true, Bool.and_eq_true, Node.allEvery_iff, Node.parts, List.forall_mem_cons, and_assoc]

end Every

/-! ## Kinds of values -/

inductive Kind where
  | null
  /-- A number, a string or a list. -/
  | plain
  | callable
  deriving DecidableEq, Repr

def Datum.kind : Datum → Kind
  | .null => .null
  | .number _ | .string _ | .list _ => .plain
  | _ => .callable

mutual

/-- The node may give a value of the kind: null comes from a block, or from a choice without a branch for the rest. -/
def Node.mayGive (kind : Kind) : Node → Bool
  | .number _ _ | .string _ _ | .list _ _ | .binary _ _ _ | .unary _ _ => kind = .plain
  | .access _ | .call _ _ => kind ≠ .null
  | .function _ _ _ => kind = .callable
  | .assign _ value => value.mayGive kind
  | .choice first more otherwise =>
    Case.mayGive kind first || Case.anyMayGive kind more || Body.optionMayGive kind otherwise
  | .count _ _ _ _ body | .loop _ body => kind = if body.isBlock then .null else .plain
  | .lone _ => false

def Body.mayGive (kind : Kind) : Body → Bool
  | .inline node => node.mayGive kind
  | .block _ => kind = .null

def Case.mayGive (kind : Kind) : Case → Bool
  | .mk _ body => body.mayGive kind

def Case.anyMayGive (kind : Kind) : List Case → Bool
  | [] => false
  | c :: rest => c.mayGive kind || Case.anyMayGive kind rest

def Body.optionMayGive (kind : Kind) : Option Body → Bool
  | none => kind = .null
  | some b => b.mayGive kind

end

theorem Case.anyMayGive_iff {kind : Kind} {cs : List Case} :
    Case.anyMayGive kind cs = true ↔ ∃ c ∈ cs, c.mayGive kind = true := by
  induction cs with
  | nil => exact iff_of_false Bool.false_ne_true (by simp)
  | cons c cs ih =>
    show (c.mayGive kind || Case.anyMayGive kind cs) = true ↔ _
    simp [ih]

theorem Node.mayGive_choice {kind : Kind} {first : Case} {more : List Case} {otherwise : Option Body} :
    (Node.choice first more otherwise).mayGive kind = true ↔
      (∃ c ∈ first :: more, c.mayGive kind = true) ∨ Body.optionMayGive kind otherwise = true := by
  show (first.mayGive kind || Case.anyMayGive kind more || Body.optionMayGive kind otherwise) = true ↔ _
  simp [Case.anyMayGive_iff]

/-! ## Checks -/

namespace Node

/-- A sign is a minus or a `not`. -/
def hasKnownSign : Node → Bool
  | .unary op _ => op.lexeme.isSymbol .minus || op.lexeme.isKeyword .not
  | _ => true

/-- No operand is ever null, and nothing that can be called ever has a minus. -/
def isTidy : Node → Bool
  | .binary left _ right => !left.mayGive .null && !right.mayGive .null
  | .unary op operand => op.lexeme.isSymbol .minus && !operand.mayGive .callable || op.lexeme.isKeyword .not
  | _ => true

/-- What is asked of every node: of tidy trees more than of others. -/
def isFair : (tidy : Bool) → Node → Bool
  | true => isTidy
  | false => hasKnownSign

theorem hasKnownSign_of_isFair {tidy : Bool} {n : Node} (h : n.isFair tidy = true) : n.hasKnownSign = true := by
  cases tidy with
  | false => exact h
  | true =>
    cases n with
    | unary op operand =>
      have htidy : (op.lexeme.isSymbol .minus && !operand.mayGive .callable || op.lexeme.isKeyword .not) = true := h
      show (op.lexeme.isSymbol .minus || op.lexeme.isKeyword .not) = true
      simp only [Bool.or_eq_true, Bool.and_eq_true] at htidy ⊢
      exact htidy.imp_left And.left
    | _ => rfl

end Node

/-! ## Trees that are read -/

namespace Grammar

theorem every_of_parts {n : Node} (hsign : n.hasKnownSign = true) (h : ∀ m ∈ n.parts, m.every Node.hasKnownSign = true) :
    n.every Node.hasKnownSign = true :=
  Node.every_iff.2 ⟨hsign, h⟩

/-- The nodes of a choice that are not in its first case. -/
def ChoiceTail.parts (tail : ChoiceTail) : List Node :=
  tail.cases.flatMap Case.parts ++ tail.otherwise.toList.map Body.node

theorem Choice.parts_node (c : Choice) : c.node.parts = c.first.parts ++ c.tail.parts := by
  show (c.first :: c.tail.cases).flatMap Case.parts ++ _ = _
  rw [List.flatMap_cons, List.append_assoc]
  rfl

mutual

theorem Derives.signs {form : Form} {u : List Lexeme} {n : Node} :
    Derives form u n → n.every Node.hasKnownSign = true
  | .assign h => every_of_parts rfl (by simpa [Node.parts] using h.signs)
  | .conditions h | .comparands h | .terms h | .factors h | .powers h => h.signs
  | .negation h | .opposite h => every_of_parts rfl (by simpa [Node.parts] using h.signs)
  | .unsigned h | .callee h | .parenthesised h | .ofList h | .ofChoice h | .ofCount h | .ofFunction h => h.signs
  | .call h hs => every_of_parts rfl (List.forall_mem_cons.2 ⟨h.signs, hs.signs⟩)
  | .number | .string | .access => rfl
  | .list hs => every_of_parts rfl hs.signs
  | .choice (c := c) h => every_of_parts rfl (by rw [Choice.parts_node]; exact h.signs)
  | .count h₁ h₂ hbody => every_of_parts rfl (by simpa [Node.parts] using ⟨h₁.signs, h₂.signs, hbody.signs⟩)
  | .countBy h₁ h₂ h₃ hbody =>
    every_of_parts rfl (by simpa [Node.parts] using ⟨h₁.signs, h₂.signs, h₃.signs, hbody.signs⟩)
  | .named _ hbody | .unnamed _ hbody => every_of_parts rfl (by simpa [Node.parts] using hbody.signs)

theorem Joined.signs {first further : Form} {ops u : List Lexeme} {n : Node} :
    Joined first ops further u n → n.every Node.hasKnownSign = true
  | .one h => h.signs
  | .more hl _ hr => every_of_parts rfl (by simpa [Node.parts] using ⟨hl.signs, hr.signs⟩)

theorem ItemRow.signs {u : List Lexeme} {ns : List Node} : ItemRow u ns → ∀ n ∈ ns, n.every Node.hasKnownSign = true
  | .one h => List.forall_mem_singleton.2 h.signs
  | .more hs h => List.forall_mem_append.2 ⟨hs.signs, List.forall_mem_singleton.2 h.signs⟩

theorem Items.signs {u : List Lexeme} {ns : List Node} : Items u ns → ∀ n ∈ ns, n.every Node.hasKnownSign = true
  | .none => fun _ h => by cases h
  | .row hs => hs.signs

theorem StatementRow.signs {u : List Lexeme} {ns : List Node} :
    StatementRow u ns → ∀ n ∈ ns, n.every Node.hasKnownSign = true
  | .one h => List.forall_mem_singleton.2 h.signs
  | .more _ hs h => List.forall_mem_append.2 ⟨hs.signs, List.forall_mem_singleton.2 h.signs⟩

theorem Statements.signs {u : List Lexeme} {ns : List Node} :
    Statements u ns → ∀ n ∈ ns, n.every Node.hasKnownSign = true
  | .mk _ _ hs => hs.signs

theorem BodyRow.signs {u : List Lexeme} {body : Body} : BodyRow u body → body.node.every Node.hasKnownSign = true
  | .inline h => h.signs
  | .block hs => every_of_parts rfl hs.signs

theorem ResultRow.signs {u : List Lexeme} {body : Body} : ResultRow u body → body.node.every Node.hasKnownSign = true
  | .arrow h => h.signs
  | .block hs => every_of_parts rfl hs.signs

theorem CaseRow.signs {u : List Lexeme} {c : Choice} :
    CaseRow u c → ∀ n ∈ c.first.parts ++ c.tail.parts, n.every Node.hasKnownSign = true
  | .inline htest h hrest => by simpa [Case.parts] using ⟨htest.signs, h.signs, hrest.signs⟩
  | .closed htest hs => by
    simpa [Case.parts, ChoiceTail.parts] using ⟨htest.signs, every_of_parts rfl hs.signs⟩
  | .block htest hs hrest => by simpa [Case.parts] using ⟨htest.signs, every_of_parts rfl hs.signs, hrest.signs⟩

theorem RestRow.signs {u : List Lexeme} {tail : ChoiceTail} :
    RestRow u tail → ∀ n ∈ tail.parts, n.every Node.hasKnownSign = true
  | .elif (c := c) h => by
    have hparts := h.signs
    rw [← Choice.parts_node] at hparts
    exact hparts
  | .otherwise h => by simpa [ChoiceTail.parts] using h.signs
  | .empty => fun _ h => by cases h

end

end Grammar

/-- **The grammar knows a minus and a `not`, and no other sign.** -/
theorem Parse.program_hasKnownSigns {limits : Limits} {source : Source} {tree : Node}
    (h : Parse.program limits source = .ok tree) : tree.every Node.hasKnownSign = true := by
  obtain ⟨tokens, ht, hr⟩ := Parse.program_eq_ok.1 h
  have hended := Grammar.Ended.of_tokens ht
  rw [Grammar.Cursor.start_eq_on] at hr
  obtain ⟨block, hb, -, rfl⟩ := Grammar.reads_program.1 ⟨hr, rfl⟩
  obtain ⟨j, u, -, -, hD⟩ := Grammar.readAt_sound hended limits.reading .statements hended.length_pos hb
  exact Grammar.every_of_parts rfl (Grammar.Statements.signs hD)

end Scriptlet
