import Scriptlet.Grammar.Production
/-!
# Moving the positions of a tree

A position is carried along and copied, and never looked at: neither the grammar nor the evaluation branches on one.  To
say so, `relocate φ` puts every position of a token or of a tree through a function `φ`.  Two texts with the same lexemes
have tokens that become equal under one such function, the one that forgets where things stand (`bare`).

The ends of a node are derived from its parts, so they move with them: `Node.span_relocate`.
-/
namespace Scriptlet

def Span.relocate (φ : Position → Position) (s : Span) : Span := ⟨φ s.start, φ s.stop⟩

def Name.relocate (φ : Position → Position) (n : Name) : Name := ⟨n.text, n.span.relocate φ⟩

def Token.relocate (φ : Position → Position) (t : Token) : Token := ⟨t.lexeme, t.span.relocate φ⟩

@[simp] theorem Token.relocate_lexeme (φ : Position → Position) (t : Token) : (t.relocate φ).lexeme = t.lexeme := rfl

mutual

/-- The tree with every position moved by `φ`. -/
def Node.relocate (φ : Position → Position) : Node → Node
  | .number n span => .number n (span.relocate φ)
  | .string s span => .string s (span.relocate φ)
  | .list items span => .list (Node.relocateAll φ items) (span.relocate φ)
  | .access name => .access (name.relocate φ)
  | .assign name value => .assign (name.relocate φ) (value.relocate φ)
  | .binary left op right => .binary (left.relocate φ) op (right.relocate φ)
  | .unary op operand => .unary (op.relocate φ) (operand.relocate φ)
  | .choice first more otherwise =>
    .choice (first.relocate φ) (Case.relocateAll φ more) (Body.relocateOption φ otherwise)
  | .count name first last step body =>
    .count (name.relocate φ) (first.relocate φ) (last.relocate φ) (Node.relocateOption φ step) (body.relocate φ)
  | .loop test body => .loop (test.relocate φ) (body.relocate φ)
  | .function name parameters body =>
    .function (name.map (Name.relocate φ)) (parameters.map (Name.relocate φ)) (body.relocate φ)
  | .call callee arguments => .call (callee.relocate φ) (Node.relocateAll φ arguments)
  | .lone token => .lone (token.relocate φ)

def Body.relocate (φ : Position → Position) : Body → Body
  | .inline node => .inline (node.relocate φ)
  | .block node => .block (node.relocate φ)

def Case.relocate (φ : Position → Position) : Case → Case
  | .mk test body => .mk (test.relocate φ) (body.relocate φ)

def Node.relocateAll (φ : Position → Position) : List Node → List Node
  | [] => []
  | n :: rest => n.relocate φ :: Node.relocateAll φ rest

def Case.relocateAll (φ : Position → Position) : List Case → List Case
  | [] => []
  | c :: rest => c.relocate φ :: Case.relocateAll φ rest

def Node.relocateOption (φ : Position → Position) : Option Node → Option Node
  | none => none
  | some n => some (n.relocate φ)

def Body.relocateOption (φ : Position → Position) : Option Body → Option Body
  | none => none
  | some b => some (b.relocate φ)

end

section Parts

variable (φ : Position → Position)

@[simp] theorem Node.relocateAll_eq_map : ∀ ns : List Node, Node.relocateAll φ ns = ns.map (Node.relocate φ)
  | [] => rfl
  | n :: rest => by rw [Node.relocateAll, List.map_cons, Node.relocateAll_eq_map rest]

@[simp] theorem Case.relocateAll_eq_map : ∀ cs : List Case, Case.relocateAll φ cs = cs.map (Case.relocate φ)
  | [] => rfl
  | c :: rest => by rw [Case.relocateAll, List.map_cons, Case.relocateAll_eq_map rest]

@[simp] theorem Node.relocateOption_eq_map (n : Option Node) : Node.relocateOption φ n = n.map (Node.relocate φ) := by
  cases n <;> rfl

@[simp] theorem Body.relocateOption_eq_map (b : Option Body) : Body.relocateOption φ b = b.map (Body.relocate φ) := by
  cases b <;> rfl

end Parts

/-! ## The identity -/

mutual

theorem Node.relocate_id : ∀ n : Node, n.relocate id = n
  | .number _ _ | .string _ _ | .access _ | .lone _ => rfl
  | .list items span => by rw [Node.relocate, Node.relocateAll_id items]; rfl
  | .assign name value => by rw [Node.relocate, Node.relocate_id value]; rfl
  | .binary left op right => by rw [Node.relocate, Node.relocate_id left, Node.relocate_id right]
  | .unary op operand => by rw [Node.relocate, Node.relocate_id operand]; rfl
  | .choice first more otherwise => by
    rw [Node.relocate, Case.relocate_id first, Case.relocateAll_id more, Body.relocateOption_id otherwise]
  | .count name first last step body => by
    rw [Node.relocate, Node.relocate_id first, Node.relocate_id last, Node.relocateOption_id step,
      Body.relocate_id body]
    rfl
  | .loop test body => by rw [Node.relocate, Node.relocate_id test, Body.relocate_id body]
  | .function name parameters body => by
    rw [Node.relocate, Body.relocate_id body, show Name.relocate id = id from rfl, Option.map_id, List.map_id]
    rfl
  | .call callee arguments => by rw [Node.relocate, Node.relocate_id callee, Node.relocateAll_id arguments]

theorem Body.relocate_id : ∀ b : Body, b.relocate id = b
  | .inline node => by rw [Body.relocate, Node.relocate_id node]
  | .block node => by rw [Body.relocate, Node.relocate_id node]

theorem Case.relocate_id : ∀ c : Case, c.relocate id = c
  | .mk test body => by rw [Case.relocate, Node.relocate_id test, Body.relocate_id body]

theorem Node.relocateAll_id : ∀ ns : List Node, Node.relocateAll id ns = ns
  | [] => rfl
  | n :: rest => by rw [Node.relocateAll, Node.relocate_id n, Node.relocateAll_id rest]

theorem Case.relocateAll_id : ∀ cs : List Case, Case.relocateAll id cs = cs
  | [] => rfl
  | c :: rest => by rw [Case.relocateAll, Case.relocate_id c, Case.relocateAll_id rest]

theorem Node.relocateOption_id : ∀ n : Option Node, Node.relocateOption id n = n
  | none => rfl
  | some n => by rw [Node.relocateOption, Node.relocate_id n]

theorem Body.relocateOption_id : ∀ b : Option Body, Body.relocateOption id b = b
  | none => rfl
  | some b => by rw [Body.relocateOption, Body.relocate_id b]

end

theorem Node.relocate_id_eq : Node.relocate id = id := funext Node.relocate_id

theorem Body.relocate_id_eq : Body.relocate id = id := funext Body.relocate_id

theorem Case.relocate_id_eq : Case.relocate id = id := funext Case.relocate_id

/-! ## The ends of a node -/

section Ends

variable (φ : Position → Position)

mutual

theorem Node.start_relocate : ∀ n : Node, (n.relocate φ).start = φ n.start
  | .number _ _ | .string _ _ | .list _ _ | .access _ | .assign _ _ | .count _ _ _ _ _ | .unary _ _ | .lone _ => rfl
  | .binary left _ _ => Node.start_relocate left
  | .choice first _ _ => Node.caseStart_relocate first
  | .loop test _ => Node.start_relocate test
  | .function (some _) _ _ | .function none (_ :: _) _ => rfl
  | .function none [] body => Node.bodyStart_relocate body
  | .call callee _ => Node.start_relocate callee

theorem Node.bodyStart_relocate : ∀ b : Body, Node.bodyStart (b.relocate φ) = φ (Node.bodyStart b)
  | .inline node => Node.start_relocate node
  | .block node => Node.start_relocate node

theorem Node.caseStart_relocate : ∀ c : Case, Node.caseStart (c.relocate φ) = φ (Node.caseStart c)
  | .mk test _ => Node.start_relocate test

end

mutual

theorem Node.stop_relocate : ∀ n : Node, (n.relocate φ).stop = φ n.stop
  | .number _ _ | .string _ _ | .list _ _ | .access _ | .assign _ _ | .lone _ => rfl
  | .binary _ _ right => Node.stop_relocate right
  | .unary _ operand => Node.stop_relocate operand
  | .choice _ _ (some body) => Node.bodyStop_relocate body
  | .choice first more none => by
    rw [Node.relocate, Body.relocateOption, Node.stop, Node.stop, Node.lastCaseStop?_relocate more]
    cases Node.lastCaseStop? more with
    | none => exact Node.caseStop_relocate first
    | some p => rfl
  | .count _ _ _ _ body => Node.bodyStop_relocate body
  | .loop _ body => Node.bodyStart_relocate φ body
  | .function _ _ body => Node.bodyStop_relocate body
  | .call callee arguments => by
    rw [Node.relocate, Node.stop, Node.stop, Node.lastStop?_relocate arguments]
    cases Node.lastStop? arguments with
    | none => exact Node.stop_relocate callee
    | some p => rfl

theorem Node.lastStop?_relocate : ∀ ns : List Node,
    Node.lastStop? (Node.relocateAll φ ns) = (Node.lastStop? ns).map φ
  | [] => rfl
  | n :: rest => by
    rw [Node.relocateAll, Node.lastStop?, Node.lastStop?, Node.lastStop?_relocate rest]
    cases Node.lastStop? rest with
    | none => exact congrArg some (Node.stop_relocate n)
    | some p => rfl

theorem Node.bodyStop_relocate : ∀ b : Body, Node.bodyStop (b.relocate φ) = φ (Node.bodyStop b)
  | .inline node => Node.stop_relocate node
  | .block node => Node.stop_relocate node

theorem Node.caseStop_relocate : ∀ c : Case, Node.caseStop (c.relocate φ) = φ (Node.caseStop c)
  | .mk test _ => Node.stop_relocate test

theorem Node.lastCaseStop?_relocate : ∀ cs : List Case,
    Node.lastCaseStop? (Case.relocateAll φ cs) = (Node.lastCaseStop? cs).map φ
  | [] => rfl
  | c :: rest => by
    rw [Case.relocateAll, Node.lastCaseStop?, Node.lastCaseStop?, Node.lastCaseStop?_relocate rest]
    cases Node.lastCaseStop? rest with
    | none => exact congrArg some (Node.caseStop_relocate c)
    | some p => rfl

end

theorem Node.span_relocate (n : Node) : (n.relocate φ).span = n.span.relocate φ := by
  rw [Node.span, Node.start_relocate, Node.stop_relocate]
  rfl

end Ends

/-! ## Without positions -/

/-- The position that stands for all of them. -/
def Position.forgotten : Position := default

def Span.forgotten : Span := ⟨.forgotten, .forgotten⟩

def Name.bare (n : Name) : Name := n.relocate fun _ => .forgotten

def Token.bare (t : Token) : Token := t.relocate fun _ => .forgotten

/-- The tree without its positions: two trees are equal up to positions if this is the same of both. -/
def Node.bare (n : Node) : Node := n.relocate fun _ => .forgotten

def Body.bare (b : Body) : Body := b.relocate fun _ => .forgotten

def Case.bare (c : Case) : Case := c.relocate fun _ => .forgotten

theorem Token.bare_eq_iff (t u : Token) : t.bare = u.bare ↔ t.lexeme = u.lexeme := by
  constructor
  · intro h
    rw [← t.relocate_lexeme fun _ => .forgotten, ← u.relocate_lexeme fun _ => .forgotten]
    exact congrArg Token.lexeme h
  · intro h
    simp [Token.bare, Token.relocate, Span.relocate, h]

/-- Tokens with the same lexemes are the same without their positions. -/
theorem Token.map_bare_eq_iff : ∀ ts us : List Token,
    ts.map Token.bare = us.map Token.bare ↔ ts.map Token.lexeme = us.map Token.lexeme
  | [], us => by cases us <;> simp
  | t :: ts, [] => by simp
  | t :: ts, u :: us => by
    simp only [List.map_cons, List.cons.injEq, Token.bare_eq_iff, Token.map_bare_eq_iff ts us]

end Scriptlet
