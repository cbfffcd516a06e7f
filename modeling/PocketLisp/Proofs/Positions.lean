import PocketLisp.Proofs.CallStack

/-!
# Arguments by position

A second evaluator counts the arguments of a callee first, against the arity that is declared for
it, and then takes them from their positions, each at the time it is needed. What it does when
nothing stands at a position is left open. That makes no difference: whatever is done there, it is
the evaluator itself, so that no position is ever found empty, in programs of any kind and in any
machine. Callees refuse a wrong number of arguments before they do anything else.
-/

namespace PocketLisp

open Evaluation

namespace Primitive

/-- The numbers of arguments that primitives ask for. -/
def declared : Primitive → Arity
  | .sequence => .atLeast 1
  | .add | .subtract | .multiply | .divide | .equal | .less | .greater | .pow => .exactly 2
  | .isNull | .print | .sqrt | .exp | .log | .sin | .cos | .tan | .abs | .floor | .ceil =>
    .exactly 1

theorem declared_eq (p : Primitive) : p.declared = p.arity := by
  cases p <;> rfl

end Primitive

namespace Operation

/-- The effect of the operation, which takes its arguments from their positions. There is none if an
argument is not there, or if there are others where two make a pair. -/
def fetch? : Operation → List Value → Option (Sink → Except Fault Value × Sink)
  | .unary f, args => args[0]?.map fun x s => (f x, s)
  | .binary f, args =>
    match args with
    | [x, y] => some fun s => (f x y, s)
    | _ => none
  | .last, args =>
    match args.length with
    | 0 => none
    | n + 1 => args[n]?.map fun x s => (.ok x, s)
  | .print, args => args[0]?.map printLine

/-- As many arguments as are asked for are all there. -/
theorem fetch?_of_onArguments? {op : Operation} {args : List Value}
    {action : Sink → Except Fault Value × Sink} (h : op.onArguments? args = some action) :
    op.fetch? args = some action := by
  unfold onArguments? at h
  split at h <;> cases h
  · rfl
  · rfl
  · rename_i x xs
    have hlast : (x :: xs)[xs.length]? = some (xs.getLast?.getD x) := by
      rw [← List.getLast?_cons, List.getLast?_eq_getElem?]
      rfl
    simp only [fetch?, List.length_cons, hlast, Option.map_some]
  · rfl

/-- Nothing but the count keeps `BEGIN` from an empty list of arguments. -/
example : fetch? .last [] = none := rfl

end Operation

namespace Evaluation

/-- A special form and its operands, if it takes that many. -/
def applyForm (limits : Limits) (fuel : Nat) (self : Value → Run Value) (k : Keyword)
    (operands : List Value) : Run Value :=
  match Form.ofOperands? k operands with
  | none => Run.fail (.wrongCount k.name k.arity operands.length)
  | some form => evaluateForm limits fuel self form

theorem evaluateList_of_keyword {head : Value} {k : Keyword} (hk : keyword? head = some k)
    (limits : Limits) (fuel : Nat) (self : Value → Run Value) (operands : List Value) :
    evaluateList limits fuel self head operands =
      Run.record (.specialForm k) >>= fun _ => applyForm limits fuel self k operands := by
  simp only [evaluateList, hk]
  rfl

end Evaluation

namespace Positional

variable (miss : Run Value) (limits : Limits)

/-- Goes on with the operand at a position. -/
def operand (operands : List Value) (i : Nat) (next : Value → Run Value) : Run Value :=
  match operands[i]? with
  | some e => next e
  | none => miss

def form (fuel : Nat) (self : Value → Run Value) (operands : List Value) : Keyword → Run Value
  | .branch =>
    operand miss operands 0 fun test => do
      let condition ← self test
      if condition.isTruth then operand miss operands 1 self else operand miss operands 2 self
  | .loop =>
    operand miss operands 0 fun test =>
      operand miss operands 1 fun body => repeatWhile limits self test body fuel 0
  | .assign =>
    operand miss operands 0 fun target => do
      let name ← Run.ofMismatch target.asSymbol
      operand miss operands 1 fun expression => do
        let value ← self expression
        Run.record (.assigned name value)
        Run.modify (·.set name value)
        return value
  | .first => operand miss operands 0 (first self)
  | .rest => operand miss operands 0 (rest self)
  | .pair =>
    operand miss operands 0 fun left => do
      let a ← self left
      operand miss operands 1 fun right => do
        let b ← self right
        return .list [a, b]
  | .isList => operand miss operands 0 (test self fun v => !(v.isNumber || v.isSymbol))
  | .isNumber => operand miss operands 0 (test self Value.isNumber)
  | .isSymbol => operand miss operands 0 (test self Value.isSymbol)
  | .define =>
    operand miss operands 0 fun name => do
      let name ← Run.ofMismatch name.asSymbol
      operand miss operands 1 fun parameters => do
        let symbols ← Run.ofMismatch parameters.asList
        let parameters ← Run.ofMismatch (Value.asSymbols symbols)
        let registry ← Run.gets (·.registry)
        if registry.contains name && !limits.allowRedefinition then Run.fail (.redefinition name)
        else do
          if registry.contains name then Run.record (.redefining name)
          operand miss operands 2 fun body => do
            Run.record (.defining (registry.fresh name parameters body))
            Run.modify (·.define name parameters body)
            return .symbol name
  | .truth => return .truth

def applyForm (fuel : Nat) (self : Value → Run Value) (k : Keyword) (operands : List Value) :
    Run Value :=
  if k.arity.accepts operands.length then form miss limits fuel self operands k
  else Run.fail (.wrongCount k.name k.arity operands.length)

def callPrimitive (p : Primitive) (args : List Value) : Run Value :=
  if p.declared.accepts args.length then do
    Run.record (.calling p.name args)
    match p.operation.fetch? args with
    | none => miss
    | some action => fun m =>
      match m.usingSink action with
      | (.ok v, m) => .returned v (m.record (.callReturned p.name v))
      | (.error fault, m) => .failed fault (m.record (.callFailed p.name fault))
  else Run.fail (.wrongCount p.name p.declared args.length)

def apply (self : Value → Run Value) (callable : Value) (args : List Value) : Run Value :=
  match callable with
  | .primitive p => callPrimitive miss p args
  | .procedure p => callProcedure limits self p args
  | found => Run.fail (.unknownOperator found)

def evaluateCall (self : Value → Run Value) (head : Value) (operands : List Value) :
    Run Value := do
  let callable ← operator self head
  if callable.isCallable then do
    let args ← evaluateAll self operands
    apply miss limits self callable args
  else Run.fail (.unknownOperator callable)

def evaluateList (fuel : Nat) (self : Value → Run Value) (head : Value) (operands : List Value) :
    Run Value :=
  match keyword? head with
  | none => evaluateCall miss limits self head operands
  | some k => do
    Run.record (.specialForm k)
    applyForm miss limits fuel self k operands

def step (fuel : Nat) (self : Value → Run Value) (expression : Value) : Run Value := do
  Run.record (.evaluating expression)
  match expression with
  | .symbol name => valueOf name
  | .list [] => return .null
  | .list (head :: operands) => evaluateList miss limits fuel self head operands
  | v => return v

def evaluate : (fuel : Nat) → (expression : Value) → Run Value
  | 0, _ => Run.outOfFuel
  | fuel + 1, expression => step miss limits fuel (evaluate fuel) expression

theorem form_of_operands {k : Keyword} {operands : List Value} {f : Form}
    (h : Form.ofOperands? k operands = some f) (fuel : Nat) (self : Value → Run Value) :
    form miss limits fuel self operands k = evaluateForm limits fuel self f := by
  unfold Form.ofOperands? at h
  split at h <;> cases h <;> rfl

theorem applyForm_eq (fuel : Nat) (self : Value → Run Value) (k : Keyword)
    (operands : List Value) :
    applyForm miss limits fuel self k operands =
      Evaluation.applyForm limits fuel self k operands := by
  unfold applyForm Evaluation.applyForm
  rw [← Form.isSome_ofOperands?]
  cases h : Form.ofOperands? k operands with
  | none => rfl
  | some f => exact form_of_operands miss limits h fuel self

theorem callPrimitive_eq (p : Primitive) (args : List Value) :
    callPrimitive miss p args = Evaluation.callPrimitive p args := by
  unfold callPrimitive Evaluation.callPrimitive
  rw [p.declared_eq, Primitive.arity, ← Operation.isSome_onArguments?]
  cases h : p.operation.onArguments? args with
  | none => rfl
  | some action =>
      rw [Operation.fetch?_of_onArguments? h]
      rfl

theorem apply_eq (self : Value → Run Value) (callable : Value) (args : List Value) :
    apply miss limits self callable args = Evaluation.apply limits self callable args := by
  cases callable with
  | primitive p => exact callPrimitive_eq miss p args
  | _ => rfl

theorem evaluateCall_eq (self : Value → Run Value) (head : Value) (operands : List Value) :
    evaluateCall miss limits self head operands =
      Evaluation.evaluateCall limits self head operands := by
  rw [Evaluation.evaluateCall_eq]
  unfold evaluateCall callOperator
  simp only [apply_eq]

theorem step_eq (fuel : Nat) (self : Value → Run Value) (e : Value) :
    step miss limits fuel self e = Evaluation.step limits fuel self e := by
  have hlist : ∀ head operands, evaluateList miss limits fuel self head operands =
      Evaluation.evaluateList limits fuel self head operands := by
    intro head operands
    cases hk : keyword? head with
    | none => simp only [evaluateList, Evaluation.evaluateList, hk, evaluateCall_eq]
    | some k =>
        rw [evaluateList_of_keyword hk]
        simp only [evaluateList, hk, applyForm_eq]
  cases e with
  | list elements =>
      cases elements with
      | nil => rfl
      | cons head operands => simp only [step, Evaluation.step, hlist]
  | _ => rfl

theorem evaluate_eq (fuel : Nat) :
    evaluate miss limits fuel = PocketLisp.evaluate limits fuel := by
  induction fuel with
  | zero => rfl
  | succ fuel ih =>
      funext e
      show step miss limits fuel (evaluate miss limits fuel) e = _
      rw [ih, step_eq]
      rfl

end Positional

/-- The parts of a special form with a wrong number of operands are not evaluated: there are two
events, and the fault. -/
theorem step_of_wrongCount {head : Value} {k : Keyword} (hk : keyword? head = some k)
    {operands : List Value} (hcount : k.arity.accepts operands.length = false) (limits : Limits)
    (fuel : Nat) (self : Value → Run Value) (m : Machine) :
    step limits fuel self (.list (head :: operands)) m =
      .failed (.wrongCount k.name k.arity operands.length)
        ((m.record (.evaluating (.list (head :: operands)))).record (.specialForm k)) := by
  have hnone : Form.ofOperands? k operands = none := by
    rw [← Form.isSome_ofOperands?] at hcount
    simpa using hcount
  show (evaluateList limits fuel self head operands) _ = _
  rw [evaluateList_of_keyword hk, applyForm, hnone]
  rfl

theorem callPrimitive_of_wrongCount {p : Primitive} {args : List Value}
    (hcount : p.declared.accepts args.length = false) (m : Machine) :
    callPrimitive p args m = .failed (.wrongCount p.name p.declared args.length) m := by
  rw [← Positional.callPrimitive_eq Run.outOfFuel, Positional.callPrimitive, hcount]
  rfl

theorem callProcedure_of_wrongCount {p : Procedure Value} {args : List Value}
    (hcount : p.arity.accepts args.length = false) (limits : Limits) (self : Value → Run Value)
    (m : Machine) :
    callProcedure limits self p args m = .failed (.wrongCount p.name p.arity args.length) m := by
  have hlength : args.length ≠ p.parameters.length := by
    simpa [Procedure.arity, Arity.accepts] using hcount
  unfold callProcedure
  rw [Run.bind_apply]
  simp only [Run.gets, if_pos hlength]
  rfl

/-- Taking arguments from their positions never fails for want of one, be it in an evaluation, an
application, a call or a special form. Where their number is not the one that the callee asks for,
the fault says so, with the name of the callee; the operands of a special form have not been
evaluated then, nor has a primitive or the body of a procedure run. -/
theorem no_argument_missing (miss : Run Value) (limits : Limits) :
    (∀ fuel e, Positional.evaluate miss limits fuel e = evaluate limits fuel e) ∧
    (∀ fuel callable args,
      Positional.apply miss limits (Positional.evaluate miss limits fuel) callable args =
        applyTo limits fuel callable args) ∧
    (∀ p args, Positional.callPrimitive miss p args = callPrimitive p args) ∧
    (∀ fuel p args, callProcedure limits (Positional.evaluate miss limits fuel) p args =
      call limits fuel p args) ∧
    (∀ fuel k operands,
      Positional.applyForm miss limits fuel (Positional.evaluate miss limits fuel) k operands =
        applyForm limits fuel (evaluate limits fuel) k operands) ∧
    (∀ head k operands, keyword? head = some k → k.arity.accepts operands.length = false →
      ∀ fuel self m, step limits fuel self (.list (head :: operands)) m =
        .failed (.wrongCount k.name k.arity operands.length)
          ((m.record (.evaluating (.list (head :: operands)))).record (.specialForm k))) ∧
    (∀ (p : Primitive) args m, p.declared.accepts args.length = false →
      callPrimitive p args m = .failed (.wrongCount p.name p.declared args.length) m) ∧
    ∀ (p : Procedure Value) args m, p.arity.accepts args.length = false →
      ∀ self, callProcedure limits self p args m =
        .failed (.wrongCount p.name p.arity args.length) m := by
  refine ⟨?_, ?_, Positional.callPrimitive_eq miss, ?_, ?_, ?_, ?_, ?_⟩
  · intro fuel e
    rw [Positional.evaluate_eq]
  · intro fuel callable args
    rw [Positional.apply_eq, Positional.evaluate_eq]
    rfl
  · intro fuel p args
    rw [Positional.evaluate_eq]
    rfl
  · intro fuel k operands
    rw [Positional.applyForm_eq, Positional.evaluate_eq]
  · intro head k operands hk hcount fuel self m
    exact step_of_wrongCount hk hcount limits fuel self m
  · intro p args m hcount
    exact callPrimitive_of_wrongCount hcount m
  · intro p args m hcount self
    exact callProcedure_of_wrongCount hcount limits self m

/-- `(while)`, `BEGIN` of nothing, and a procedure of one parameter applied to none. -/
theorem no_argument_missing_none :
    (∀ self, step {} 0 self (.list [.symbol "while"]) twoCalls =
      .failed (.wrongCount "WHILE" (.exactly 2) 0) twoCalls) ∧
    callPrimitive .sequence [] twoCalls = .failed (.wrongCount "BEGIN" (.atLeast 1) 0) twoCalls ∧
    ∀ self, callProcedure {} self firstOf [] twoCalls =
      .failed (.wrongCount "F" (.exactly 1) 0) twoCalls := by
  obtain ⟨-, -, -, -, -, hform, hprimitive, hprocedure⟩ := no_argument_missing Run.outOfFuel {}
  refine ⟨?_, ?_, ?_⟩
  · intro self
    exact hform (.symbol "while") .loop [] (by decide +kernel) rfl 0 self twoCalls
  · exact hprimitive .sequence [] twoCalls rfl
  · exact hprocedure firstOf [] twoCalls rfl

end PocketLisp
