import Scriptlet.Grammar.Production
/-!
# The grammar

`Derives` and the relations beside it give the grammar of the language without a cursor, a depth or a step back: each
constructor is one alternative of one rule.  They relate a row of lexemes with the tree it stands for; the positions in the
tree are left open.  There is no rule for a loop with a condition, and the rule for products does not name the sign of a
power.
-/
namespace Scriptlet.Grammar

/-- The forms that stand for a node. -/
inductive Form where
  | expression | comparison | sum | product | factor | power | call | atom | list | choice | count | function

/-- Names divided by commas: `NAME (',' NAME)*`. -/
inductive NameRow : List Lexeme → List Name → Prop where
  | one {x : String} {span : Span} : NameRow [.name x] [⟨x, span⟩]
  | more {u : List Lexeme} {names : List Name} {x : String} {span : Span} : NameRow u names →
      NameRow (u ++ [.symbol .comma, .name x]) (names ++ [⟨x, span⟩])

/-- The parameters of a function: `(NAME (',' NAME)*)?`. -/
inductive Parameters : List Lexeme → List Name → Prop where
  | none : Parameters [] []
  | row {u : List Lexeme} {names : List Name} : NameRow u names → Parameters u names

mutual

/-- The lexemes have the form, and the node is their tree. -/
inductive Derives : Form → List Lexeme → Node → Prop where
  /-- `expression = 'var' NAME '=' expression` -/
  | assign {u : List Lexeme} {x : String} {span : Span} {value : Node} : Derives .expression u value →
      Derives .expression (.keyword .var :: .name x :: .symbol .equals :: u) (.assign ⟨x, span⟩ value)
  /-- `expression = comparison (('and' | 'or') comparison)*` -/
  | conditions {u : List Lexeme} {n : Node} :
      Joined .comparison [.keyword .and, .keyword .or] .comparison u n → Derives .expression u n
  /-- `comparison = 'not' comparison` -/
  | negation {u : List Lexeme} {n : Node} {span : Span} : Derives .comparison u n →
      Derives .comparison (.keyword .not :: u) (.unary ⟨.keyword .not, span⟩ n)
  /-- `comparison = sum (('==' | '!=' | '<' | '>' | '<=' | '>=') sum)*` -/
  | comparands {u : List Lexeme} {n : Node} :
      Joined .sum [.symbol .sameAs, .symbol .differs, .symbol .less, .symbol .greater, .symbol .atMost, .symbol .atLeast]
        .sum u n → Derives .comparison u n
  /-- `sum = product (('+' | '-') product)*` -/
  | terms {u : List Lexeme} {n : Node} :
      Joined .product [.symbol .plus, .symbol .minus] .product u n → Derives .sum u n
  /-- `product = factor (('*' | '/' | '//' | '%') factor)*` -/
  | factors {u : List Lexeme} {n : Node} :
      Joined .factor [.symbol .times, .symbol .slash, .symbol .doubleSlash, .symbol .percent] .factor u n →
      Derives .product u n
  /-- `factor = '-' factor` -/
  | opposite {u : List Lexeme} {n : Node} {span : Span} : Derives .factor u n →
      Derives .factor (.symbol .minus :: u) (.unary ⟨.symbol .minus, span⟩ n)
  /-- `factor = power` -/
  | unsigned {u : List Lexeme} {n : Node} : Derives .power u n → Derives .factor u n
  /-- `power = call ('**' factor)*` -/
  | powers {u : List Lexeme} {n : Node} : Joined .call [.symbol .power] .factor u n → Derives .power u n
  /-- `call = atom` -/
  | callee {u : List Lexeme} {n : Node} : Derives .atom u n → Derives .call u n
  /-- `call = atom '(' items ')'` -/
  | call {u v : List Lexeme} {n : Node} {ns : List Node} : Derives .atom u n → Items v ns →
      Derives .call (u ++ .symbol .openParen :: (v ++ [.symbol .closeParen])) (.call n ns)
  /-- `atom = INT | FLOAT` -/
  | number {x : Numeral} {span : Span} : Derives .atom [.numeral x] (.number x span)
  /-- `atom = STRING` -/
  | string {s : String} {span : Span} : Derives .atom [.string s] (.string s span)
  /-- `atom = NAME` -/
  | access {x : String} {span : Span} : Derives .atom [.name x] (.access ⟨x, span⟩)
  /-- `atom = '(' expression ')'` -/
  | parenthesised {u : List Lexeme} {n : Node} : Derives .expression u n →
      Derives .atom (.symbol .openParen :: (u ++ [.symbol .closeParen])) n
  /-- `atom = list | choice | count | function` -/
  | ofList {u : List Lexeme} {n : Node} : Derives .list u n → Derives .atom u n
  | ofChoice {u : List Lexeme} {n : Node} : Derives .choice u n → Derives .atom u n
  | ofCount {u : List Lexeme} {n : Node} : Derives .count u n → Derives .atom u n
  | ofFunction {u : List Lexeme} {n : Node} : Derives .function u n → Derives .atom u n
  /-- `list = '[' items ']'` -/
  | list {u : List Lexeme} {ns : List Node} {span : Span} : Items u ns →
      Derives .list (.symbol .openSquare :: (u ++ [.symbol .closeSquare])) (.list ns span)
  /-- `choice = 'if' case` -/
  | choice {u : List Lexeme} {c : Choice} : CaseRow u c → Derives .choice (.keyword .if_ :: u) c.node
  /-- `count = 'for' NAME '=' expression 'to' expression 'do' body` -/
  | count {u v w : List Lexeme} {x : String} {span : Span} {first last : Node} {body : Body} :
      Derives .expression u first → Derives .expression v last → BodyRow w body →
      Derives .count
        (.keyword .for_ :: .name x :: .symbol .equals :: (u ++ .keyword .to_ :: (v ++ .keyword .do_ :: w)))
        (.count ⟨x, span⟩ first last none body)
  /-- `count = 'for' NAME '=' expression 'to' expression 'step' expression 'do' body` -/
  | countBy {u v s w : List Lexeme} {x : String} {span : Span} {first last step : Node} {body : Body} :
      Derives .expression u first → Derives .expression v last → Derives .expression s step → BodyRow w body →
      Derives .count
        (.keyword .for_ :: .name x :: .symbol .equals ::
          (u ++ .keyword .to_ :: (v ++ .keyword .step :: (s ++ .keyword .do_ :: w))))
        (.count ⟨x, span⟩ first last (some step) body)
  /-- `function = 'fn' NAME '(' parameters ')' result` -/
  | named {u v : List Lexeme} {x : String} {span : Span} {parameters : List Name} {body : Body} :
      Parameters u parameters → ResultRow v body →
      Derives .function (.keyword .fn :: .name x :: .symbol .openParen :: (u ++ .symbol .closeParen :: v))
        (.function (some ⟨x, span⟩) parameters body)
  /-- `function = 'fn' '(' parameters ')' result` -/
  | unnamed {u v : List Lexeme} {parameters : List Name} {body : Body} : Parameters u parameters → ResultRow v body →
      Derives .function (.keyword .fn :: .symbol .openParen :: (u ++ .symbol .closeParen :: v))
        (.function none parameters body)

/-- `first (op further)*`, grouped to the left. -/
inductive Joined : Form → List Lexeme → Form → List Lexeme → Node → Prop where
  | one {first further : Form} {ops u : List Lexeme} {n : Node} : Derives first u n → Joined first ops further u n
  | more {first further : Form} {ops u v : List Lexeme} {op : Lexeme} {l r : Node} : Joined first ops further u l →
      op ∈ ops → Derives further v r → Joined first ops further (u ++ op :: v) (.binary l op r)

/-- `expression (',' expression)*` -/
inductive ItemRow : List Lexeme → List Node → Prop where
  | one {u : List Lexeme} {n : Node} : Derives .expression u n → ItemRow u [n]
  | more {u v : List Lexeme} {ns : List Node} {n : Node} : ItemRow u ns → Derives .expression v n →
      ItemRow (u ++ .symbol .comma :: v) (ns ++ [n])

/-- `items = (expression (',' expression)*)?` -/
inductive Items : List Lexeme → List Node → Prop where
  | none : Items [] []
  | row {u : List Lexeme} {ns : List Node} : ItemRow u ns → Items u ns

/-- `expression (NEWLINE+ expression)*` -/
inductive StatementRow : List Lexeme → List Node → Prop where
  | one {u : List Lexeme} {n : Node} : Derives .expression u n → StatementRow u [n]
  | more {u v : List Lexeme} {ns : List Node} {n : Node} (k : Nat) : StatementRow u ns → Derives .expression v n →
      StatementRow (u ++ (List.replicate (k + 1) .newline ++ v)) (ns ++ [n])

/-- `statements = NEWLINE* expression (NEWLINE+ expression)* NEWLINE*` -/
inductive Statements : List Lexeme → List Node → Prop where
  | mk {u : List Lexeme} {ns : List Node} (k m : Nat) : StatementRow u ns →
      Statements (List.replicate k .newline ++ (u ++ List.replicate m .newline)) ns

/-- `body = expression | NEWLINE statements 'end'` -/
inductive BodyRow : List Lexeme → Body → Prop where
  | inline {u : List Lexeme} {n : Node} : Derives .expression u n → BodyRow u (.inline n)
  | block {u : List Lexeme} {ns : List Node} {span : Span} : Statements u ns →
      BodyRow (.newline :: (u ++ [.keyword .end_])) (.block (.list ns span))

/-- `result = '->' expression | NEWLINE statements 'end'` -/
inductive ResultRow : List Lexeme → Body → Prop where
  | arrow {u : List Lexeme} {n : Node} : Derives .expression u n → ResultRow (.symbol .arrow :: u) (.inline n)
  | block {u : List Lexeme} {ns : List Node} {span : Span} : Statements u ns →
      ResultRow (.newline :: (u ++ [.keyword .end_])) (.block (.list ns span))

/-- `case = expression 'then' (expression rest | NEWLINE statements ('end' | rest))` -/
inductive CaseRow : List Lexeme → Choice → Prop where
  | inline {u v w : List Lexeme} {test n : Node} {tail : ChoiceTail} : Derives .expression u test →
      Derives .expression v n → RestRow w tail →
      CaseRow (u ++ .keyword .then_ :: (v ++ w)) ⟨.mk test (.inline n), tail⟩
  | closed {u v : List Lexeme} {test : Node} {ns : List Node} {span : Span} : Derives .expression u test →
      Statements v ns →
      CaseRow (u ++ .keyword .then_ :: .newline :: (v ++ [.keyword .end_])) ⟨.mk test (.block (.list ns span)), [], none⟩
  | block {u v w : List Lexeme} {test : Node} {ns : List Node} {span : Span} {tail : ChoiceTail} :
      Derives .expression u test → Statements v ns → RestRow w tail →
      CaseRow (u ++ .keyword .then_ :: .newline :: (v ++ w)) ⟨.mk test (.block (.list ns span)), tail⟩

/-- `rest = 'elif' case | 'else' expression | 'else' NEWLINE statements 'end' | empty` -/
inductive RestRow : List Lexeme → ChoiceTail → Prop where
  | elif {u : List Lexeme} {c : Choice} : CaseRow u c →
      RestRow (.keyword .elif :: u) ⟨c.first :: c.tail.cases, c.tail.otherwise⟩
  | otherwise {u : List Lexeme} {body : Body} : BodyRow u body → RestRow (.keyword .else_ :: u) ⟨[], some body⟩
  | empty : RestRow [] ⟨[], none⟩

end

end Scriptlet.Grammar
