import PocketLisp.Evaluation.Form
import PocketLisp.Limits
import PocketLisp.Machine.Run
import PocketLisp.Primitive.Operation
import PocketLisp.Text.UpperCase

/-!
# Evaluation

The meaning of expressions. A symbol has the value of its name. A list is a special form if its
head is a keyword, else a call: its operator is found first, then the operands are evaluated from
left to right, then the operator is applied. Everything else is its own value.

Programs need not end, so evaluation takes fuel: one unit for every level of nesting, and one for
every pass through a loop. The functions before `evaluate` are given the evaluation of the parts of
an expression as `self`.

The passes of a loop are counted without an upper end. A counter of 64 bits counts the same as long
as a single loop makes fewer than 2^64 passes; longer loops are not considered.
-/

namespace PocketLisp.Evaluation

/-- The value of a name. -/
def valueOf (name : Symbol) : Run Value := do
  match ← Run.gets (·.lookup? name) with
  | some v => return v
  | none => Run.fail (.unknownSymbol name)

/-- Evaluates from left to right, up to the first fault. -/
def evaluateAll (self : Value → Run Value) : List Value → Run (List Value)
  | [] => return []
  | e :: es => do
    let v ← self e
    let vs ← evaluateAll self es
    return v :: vs

def callPrimitive (p : Primitive) (args : List Value) : Run Value :=
  match p.operation.onArguments? args with
  | none => Run.fail (.wrongCount p.name p.arity args.length)
  | some action => fun m =>
    match (m.record (.calling p.name args)).usingSink action with
    | (.ok v, m) => .returned v (m.record (.callReturned p.name v))
    | (.error fault, m) => .failed fault (m.record (.callFailed p.name fault))

/-- Binds the arguments in a frame of their own and evaluates the body there. -/
def callProcedure (limits : Limits) (self : Value → Run Value) (p : Procedure Value)
    (args : List Value) : Run Value := do
  let depth ← Run.gets (·.depth)
  if args.length ≠ p.parameters.length then
    Run.fail (.wrongCount p.name p.arity args.length)
  else match limits.brokenByCall depth with
    | some limit => Run.fail (.recursionLimit limit)
    | none => do
      Run.record (.calling p.name args)
      Run.record (.pushed (depth + 1))
      Run.inFrame (Table.ofList (p.parameters.zip args)) (self p.body)

/-- Applies a callable value to arguments, both already evaluated. -/
def apply (limits : Limits) (self : Value → Run Value) (callable : Value) (args : List Value) :
    Run Value :=
  match callable with
  | .primitive p => callPrimitive p args
  | .procedure p => callProcedure limits self p args
  | found => Run.fail (.unknownOperator found)

/-- The keyword that a head spells, in any mixture of cases. -/
def keyword? : Value → Option Keyword
  | .symbol name => Keyword.ofName? (Text.upperCase name)
  | _ => none

/-- The value of a head that is called for its value: that of a name, or of an expression. -/
def valueOfHead (self : Value → Run Value) : Value → Run Value
  | .symbol name => do
    match ← Run.gets (·.lookup? name) with
    | some v => return v
    | none => Run.fail (.unknownOperator (.symbol name))
  | head => self head

/-- Calls the value of a head. One that is not callable is refused before any operand is
evaluated. -/
def callValue (limits : Limits) (self : Value → Run Value) (head : Value)
    (operands : List Value) : Run Value := do
  let callable ← valueOfHead self head
  if callable.isCallable then do
    let args ← evaluateAll self operands
    apply limits self callable args
  else Run.fail (.unknownOperator callable)

/-- Calls the procedure that is defined under a name, else the primitive of that name in any
mixture of cases, else the value of the name. -/
def callNamed (limits : Limits) (self : Value → Run Value) (name : Symbol)
    (operands : List Value) : Run Value := do
  match ← Run.gets (·.registry.get? name) with
  | some p => do
    let args ← evaluateAll self operands
    callProcedure limits self p args
  | none =>
    match Primitive.ofName? (Text.upperCase name) with
    | some p => do
      let args ← evaluateAll self operands
      callPrimitive p args
    | none => callValue limits self (.symbol name) operands

def evaluateCall (limits : Limits) (self : Value → Run Value) (head : Value)
    (operands : List Value) : Run Value :=
  match head with
  | .symbol name => callNamed limits self name operands
  | head => callValue limits self head operands

/-- Evaluates `body` as long as `test` is true, after `passes` passes before. -/
def repeatWhile (limits : Limits) (self : Value → Run Value) (test body : Value) :
    (fuel : Nat) → (passes : Nat) → Run Value
  | 0, _ => Run.outOfFuel
  | fuel + 1, passes => do
    let condition ← self test
    if condition.isTruth then
      match limits.brokenByPass (passes + 1) with
      | some limit => Run.fail (.iterationLimit limit)
      | none => do
        let _ ← self body
        repeatWhile limits self test body fuel (passes + 1)
    else do
      Run.record (.loopFinished passes)
      return .null

def assign (self : Value → Run Value) (target expression : Value) : Run Value := do
  let name ← Run.ofMismatch target.asSymbol
  let value ← self expression
  Run.record (.assigned name value)
  Run.modify (·.set name value)
  return value

/-- Registers a procedure; nothing is evaluated. -/
def define (limits : Limits) (name parameters body : Value) : Run Value := do
  let name ← Run.ofMismatch name.asSymbol
  let operands ← Run.ofMismatch parameters.asList
  let parameters ← Run.ofMismatch (Value.asSymbols operands)
  let registry ← Run.gets (·.registry)
  if registry.contains name && !limits.allowRedefinition then Run.fail (.redefinition name)
  else do
    if registry.contains name then Run.record (.redefining name)
    Run.record (.defining (registry.fresh name parameters body))
    Run.modify (·.define name parameters body)
    return .symbol name

def first (self : Value → Run Value) (expression : Value) : Run Value := do
  let v ← self expression
  match ← Run.ofMismatch v.asList with
  | [] => Run.fail (.mismatch .emptyList)
  | element :: _ => return element

def rest (self : Value → Run Value) (expression : Value) : Run Value := do
  let v ← self expression
  let elements ← Run.ofMismatch v.asList
  return .list elements.tail

/-- Whether the value of an expression passes a test. -/
def test (self : Value → Run Value) (passes : Value → Bool) (expression : Value) : Run Value := do
  let v ← self expression
  return .ofBool (passes v)

def evaluateForm (limits : Limits) (fuel : Nat) (self : Value → Run Value) : Form → Run Value
  | .branch test consequent alternative => do
    let condition ← self test
    if condition.isTruth then self consequent else self alternative
  | .loop test body => repeatWhile limits self test body fuel 0
  | .assign target expression => assign self target expression
  | .first expression => first self expression
  | .rest expression => rest self expression
  | .pair left right => do
    let a ← self left
    let b ← self right
    return .list [a, b]
  | .isList expression => test self (fun v => !(v.isNumber || v.isSymbol)) expression
  | .isNumber expression => test self Value.isNumber expression
  | .isSymbol expression => test self Value.isSymbol expression
  | .define name parameters body => define limits name parameters body
  | .truth => return .truth

def evaluateList (limits : Limits) (fuel : Nat) (self : Value → Run Value) (head : Value)
    (operands : List Value) : Run Value :=
  match keyword? head with
  | none => evaluateCall limits self head operands
  | some keyword => do
    Run.record (.specialForm keyword)
    match Form.ofOperands? keyword operands with
    | none => Run.fail (.wrongCount keyword.name keyword.arity operands.length)
    | some form => evaluateForm limits fuel self form

/-- One level of evaluation, the parts being evaluated by `self`. -/
def step (limits : Limits) (fuel : Nat) (self : Value → Run Value) (expression : Value) :
    Run Value := do
  Run.record (.evaluating expression)
  match expression with
  | .symbol name => valueOf name
  | .list [] => return .null
  | .list (head :: operands) => evaluateList limits fuel self head operands
  | v => return v

end Evaluation

/-- The value of an expression. -/
def evaluate (limits : Limits) : (fuel : Nat) → (expression : Value) → Run Value
  | 0, _ => Run.outOfFuel
  | fuel + 1, expression => Evaluation.step limits fuel (evaluate limits fuel) expression

/-- The values of expressions, evaluated in order. -/
def evaluateSequence (limits : Limits) (fuel : Nat) (expressions : List Value) :
    Run (List Value) :=
  Evaluation.evaluateAll (evaluate limits fuel) expressions

/-- The result of applying a value to arguments, which are taken as they are. -/
def applyTo (limits : Limits) (fuel : Nat) (callable : Value) (args : List Value) : Run Value :=
  Evaluation.apply limits (evaluate limits fuel) callable args

end PocketLisp
