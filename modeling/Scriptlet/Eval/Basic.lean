import Scriptlet.Eval.Operator
import Scriptlet.World.Text
/-!
# Evaluation

`Eval.step` evaluates a node in a context, given a way to evaluate its parts and the bodies of the functions it calls;
nothing in it is recursive but the repetition of a loop's body.  `eval` hands it itself, to a given depth of nesting.

A function runs in a context of its own, made for the call: its caller is the context of the function value, which is the
one in which the value was last read, so a free name in a body is looked up where the function is called from.  The scope of
a call is given up when it returns.  A loop's body runs at most as often as the limits say.
-/
namespace Scriptlet

/-- How far a run may go: how deep the productions of a text, the nodes being evaluated and the lists being printed may
nest, and how often a loop may go round. -/
structure Limits where
  reading : Nat
  evaluation : Nat
  printing : Nat
  rounds : Nat

def Limits.standard : Limits := ⟨800, 332, 450, Nat.pow 10 15⟩

/-- The functions that are always there. -/
inductive Builtin where
  | print | printRet | input | inputInt | clear
  deriving DecidableEq, Repr

namespace Builtin

def all : List Builtin := [print, printRet, input, inputInt, clear]

def name : Builtin → String
  | print => "print"
  | printRet => "print_ret"
  | input => "input"
  | inputInt => "input_int"
  | clear => "clear"

def ofName? (s : String) : Option Builtin := all.find? (·.name == s)

def parameters : Builtin → List String
  | print | printRet => ["value"]
  | input | inputInt | clear => []

end Builtin

namespace Eval

open Effect

/-! ## Calls -/

/-- A context for a call of the function `name` that has the given site. -/
def enter (name : String) (site : Site) : Effect Context := do
  match site.context with
  | none => fault .noContext
  | some caller =>
    let scope ← newScope caller.scope
    return .call name site.start scope caller

/-- Binds parameters to arguments in a context, to which the arguments then belong. -/
def bindArguments (context : Context) : List String → List Value → Effect Unit
  | p :: ps, v :: vs => do
    let v ← resite v ({ · with context := some context })
    assign context p v.datum
    bindArguments context ps vs
  | _, _ => return ()

/-- Checks the number of arguments, then binds them. -/
def receive (site : Site) (context : Context) (parameters : List String) (arguments : List Value) : Effect Unit := do
  if arguments.length ≠ parameters.length then
    fail ⟨.argumentCount parameters.length arguments.length, site.start, site.stop, site.context⟩
  else bindArguments context parameters arguments

/-- Runs a builtin in the context made for the call.  There is no screen to be cleared here, so `clear` only leaves a mark in
the output that it was called. -/
def runBuiltin (limits : Limits) (site : Site) (context : Context) (b : Builtin) (arguments : List Value) :
    Effect Value := do
  let argument := (arguments.head?.getD .null).datum
  match b with
  | .print =>
    write ((← lift ((← get).text limits.printing argument)) ++ "\n")
    return .null
  | .printRet => return ⟨.string (← lift ((← get).text limits.printing argument)), .none⟩
  | .input => return ⟨.string (← readLine), .none⟩
  | .inputInt =>
    match Text.toInt (← readLine) with
    | .ok n => return ⟨.number (.int n), .none⟩
    | .error _ => fail ⟨.inputNotANumber, site.start, site.stop, some context⟩
  | .clear =>
    write "<system:clear>\n"
    return .null

/-- The element of a list at an index, which may count from the end. -/
def element? (items : Array Datum) : Scalar → Option Datum
  | .int n =>
    let i := if n < 0 then n + items.size else n
    if i < 0 then none else items[i.toNat]?
  | _ => none

/-- A list applied to an index. -/
def index (v : Value) (cell : Nat) (arguments : List Value) : Effect Value := do
  let site ← siteOf v
  match arguments with
  | [a] =>
    match a.datum.scalar? with
    | some i =>
      match element? (← elements cell) i with
      | some d => return ⟨d, .none⟩
      | none => fail ⟨.indexOutOfBounds, site.start, site.stop, site.context⟩
    | none => v.illegal a
  | _ => fail ⟨.noIndex, site.start, site.stop, site.context⟩

variable (limits : Limits) (sub : Node → Context → Effect Value)

/-! ## Bodies -/

/-- Evaluates the statements of a block, one level below it; their values are not kept. -/
def runStatements (context : Context) : List Node → Effect Unit
  | [] => return ()
  | n :: rest => do
    let _ ← sub n context
    runStatements context rest

/-- Evaluates a body; a block gives null. -/
def runBody (body : Body) (context : Context) : Effect Value := do
  match body with
  | .inline node => sub node context
  | .block (.list statements _) =>
    runStatements sub context statements
    return .null
  | .block node =>
    let _ ← sub node context
    return .null

/-- Applies a value to arguments. -/
def apply (v : Value) (arguments : List Value) : Effect Value := do
  let site ← siteOf v
  match v.datum with
  | .function f =>
    let context ← enter f.name site
    receive site context f.parameters arguments
    let result ← runBody sub f.body context
    leaveScope
    return result
  | .builtin name =>
    let context ← enter name site
    match Builtin.ofName? name with
    | none => fault .unknownBuiltin
    | some b =>
      receive site context b.parameters arguments
      let result ← runBuiltin limits site context b arguments
      leaveScope
      return result
  | .list cell => index v cell arguments
  | _ => v.illegal v

/-! ## Choices and loops -/

/-- Evaluates nodes in order. -/
def evalAll (context : Context) : List Node → Effect (List Value)
  | [] => return []
  | n :: rest => do
    let v ← sub n context
    let vs ← evalAll context rest
    return v :: vs

/-- Evaluates the body of the first case whose test holds. -/
def chooseCase (context : Context) : List Case → Effect (Option Value)
  | [] => return none
  | .mk test body :: rest => do
    if ← (← sub test context).isTrue then return some (← runBody sub body context)
    else chooseCase context rest

/-- The value of a loop: null for a block, else the list of the values of its rounds. -/
def loopValue (node : Node) (context : Context) (body : Body) (items : Array Datum) : Effect Value := do
  match body with
  | .block _ => return .null
  | .inline _ => return .placed (← newList items) node.span context

/-- Counts on from `i` while it has not passed the last bound: binds the name, then runs the body.  The next count is made
before the body runs. -/
def countRounds (context : Context) (name : String) (goesOn : Scalar → Except Fault Bool) (by_ : Scalar) (body : Body) :
    (fuel : Nat) → Scalar → Array Datum → Effect (Array Datum)
  | 0, _, _ => fault .exhausted
  | fuel + 1, i, items => do
    if ← lift (goesOn i) then
      assign context name (.number i)
      let next ← lift (i.add by_)
      let v ← runBody sub body context
      countRounds context name goesOn by_ body fuel next (items.push v.datum)
    else return items

/-- Runs the body while the test holds. -/
def whileRounds (context : Context) (test : Node) (body : Body) : (fuel : Nat) → Array Datum → Effect (Array Datum)
  | 0, _ => fault .exhausted
  | fuel + 1, items => do
    if ← (← sub test context).isTrue then
      let v ← runBody sub body context
      whileRounds context test body fuel (items.push v.datum)
    else return items

/-! ## Nodes -/

/-- Evaluates a node in a context. -/
def step (node : Node) (context : Context) : Effect Value := do
  match node with
  | .number n span => return .placed (.number n.toScalar) span context
  | .string s span => return .placed (.string s) span context
  | .list items span =>
    let values ← evalAll sub context items
    return .placed (← newList (values.map Value.datum).toArray) span context
  | .access name =>
    match ← lookup context name.text with
    | none => fail ⟨.undefined name.text, some name.span.start, some name.span.stop, some context⟩
    | some d => return .placed (← lift d.copy) name.span context
  | .assign name value =>
    let v ← sub value context
    assign context name.text v.datum
    return v
  | .binary left op right =>
    let l ← sub left context
    let r ← sub right context
    match BinaryOp.ofLexeme? op with
    | none => fault .unknownOperator
    | some op => resite (← l.binary op r) ({ · with span := some node.span })
  | .unary op operand =>
    let v ← sub operand context
    let v ←
      match op.lexeme with
      | .symbol .minus => v.opposite
      | .keyword .not => v.negation
      | _ => pure v
    resite v ({ · with span := some node.span })
  | .choice first more otherwise =>
    match ← chooseCase sub context (first :: more) with
    | some v => return v
    | none =>
      match otherwise with
      | some body => runBody sub body context
      | none => return .null
  | .count name first last step body =>
    let first ← sub first context
    let last ← sub last context
    let by_ ←
      match step with
      | some n => pure (← sub n context).datum
      | none => pure (.number (.int 1))
    let start ← lift first.datum.payload
    let by_ ← lift by_.payload
    let upward ← lift (by_.ge (.int 0))
    let bound ← lift last.datum.payload
    let goesOn := fun (i : Scalar) => if upward then i.lt bound else i.gt bound
    let items ← countRounds sub context name.text goesOn by_ body limits.rounds start #[]
    loopValue node context body items
  | .loop test body =>
    let items ← whileRounds sub context test body limits.rounds #[]
    loopValue node context body items
  | .function name parameters body =>
    let f : Function := ⟨functionName (name.map Name.text), parameters.map Name.text, body⟩
    match name with
    | some n => assign context n.text (.function f)
    | none => pure ()
    return .placed (.function f) node.span context
  | .call callee arguments =>
    let v ← sub callee context
    let site ← siteOf v
    let v : Value := ⟨← lift v.datum.copy, some node.span, site.context⟩
    let values ← evalAll sub context arguments
    let result ← apply limits sub v values
    return .placed (← lift result.datum.copy) node.span context
  | .lone _ => fault .loneToken

end Eval

/-- Evaluates a node, nested to at most the given depth. -/
def eval (limits : Limits) : (depth : Nat) → Node → Context → Effect Value
  | 0, _, _ => Effect.fault .tooDeep
  | depth + 1, node, context => Eval.step limits (eval limits depth) node context

end Scriptlet
