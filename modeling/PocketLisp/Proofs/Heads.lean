import PocketLisp.Evaluation.Basic

/-!
# What the head of a call stands for

A call is made in one of three ways: of a procedure by its name, of a primitive by its name, and of
a value. Each of them evaluates the operands and makes the call in steps of its own. Here the
operator is found first, by one rule for all heads, and what follows is said once; the three ways
are shown to be cases of that. Nothing is assumed about the evaluation of the parts, nor about what
the operands do to the names that were used.
-/

namespace PocketLisp.Evaluation

/-- What a name stands for as an operator: a defined procedure, else a primitive in any mixture of
cases, else the value of a variable. -/
def operatorNamed? (m : Machine) (name : Symbol) : Option Value :=
  match m.registry.get? name with
  | some p => some (.procedure p)
  | none =>
    match Primitive.ofName? (Text.upperCase name) with
    | some p => some (.primitive p)
    | none => m.lookup? name

def operator (self : Value → Run Value) : Value → Run Value
  | .symbol name => do
    match ← Run.gets (operatorNamed? · name) with
    | some v => return v
    | none => Run.fail (.unknownOperator (.symbol name))
  | head => self head

/-- Finds the operator, then evaluates the operands, then applies the one to the others. -/
def callOperator (limits : Limits) (self : Value → Run Value) (head : Value)
    (operands : List Value) : Run Value := do
  let callable ← operator self head
  if callable.isCallable then do
    let args ← evaluateAll self operands
    apply limits self callable args
  else Run.fail (.unknownOperator callable)

variable (limits : Limits) (self : Value → Run Value) {name : Symbol} {m n : Machine}
  (operands : List Value)

theorem operator_named {callable : Value} (h : operatorNamed? m name = some callable) :
    operator self (.symbol name) m = .returned callable m := by
  simp only [operator, Run.bind_apply, Run.gets, h, Run.pure_apply]

/-- Once the operator is found, and is callable, it is called in the machine in which it was
found. -/
theorem callOperator_found {head callable : Value} (h : operator self head m = .returned callable n)
    (hcallable : callable.isCallable = true) :
    callOperator limits self head operands m =
      (evaluateAll self operands >>= apply limits self callable) n := by
  rw [callOperator, Run.bind_apply, h]
  simp only [hcallable, ↓reduceIte]

theorem evaluateCall_registered {p : Procedure Value} (h : m.registry.get? name = some p) :
    evaluateCall limits self (.symbol name) operands m =
      callOperator limits self (.symbol name) operands m := by
  have hfound : operatorNamed? m name = some (.procedure p) := by
    simp only [operatorNamed?, h]
  rw [callOperator_found limits self operands (operator_named self hfound) rfl]
  show callNamed limits self name operands m = _
  rw [callNamed, Run.bind_apply]
  simp only [Run.gets, h]
  rfl

theorem evaluateCall_primitive {p : Primitive} (hr : m.registry.get? name = none)
    (h : Primitive.ofName? (Text.upperCase name) = some p) :
    evaluateCall limits self (.symbol name) operands m =
      callOperator limits self (.symbol name) operands m := by
  have hfound : operatorNamed? m name = some (.primitive p) := by
    simp only [operatorNamed?, hr, h]
  rw [callOperator_found limits self operands (operator_named self hfound) rfl]
  show callNamed limits self name operands m = _
  rw [callNamed, Run.bind_apply]
  simp only [Run.gets, hr, h]
  rfl

theorem evaluateCall_valued (hr : m.registry.get? name = none)
    (hp : Primitive.ofName? (Text.upperCase name) = none) :
    evaluateCall limits self (.symbol name) operands m =
      callOperator limits self (.symbol name) operands m := by
  have hnamed : operatorNamed? m name = m.lookup? name := by
    simp only [operatorNamed?, hr, hp]
  have hhead : valueOfHead self (.symbol name) m = operator self (.symbol name) m := by
    cases hv : m.lookup? name with
    | none => simp only [valueOfHead, operator, Run.bind_apply, Run.gets, hnamed, hv]
    | some v => simp only [valueOfHead, operator, Run.bind_apply, Run.gets, hnamed, hv]
  show callNamed limits self name operands m = _
  rw [callNamed, Run.bind_apply]
  simp only [Run.gets, hr, hp]
  rw [callValue, callOperator, Run.bind_apply, Run.bind_apply, hhead]

/-- The three ways to make a call agree with the one rule, whatever the parts do. -/
theorem evaluateCall_eq (head : Value) :
    evaluateCall limits self head operands = callOperator limits self head operands := by
  cases head with
  | symbol name =>
      funext m
      cases hr : m.registry.get? name with
      | some p => exact evaluateCall_registered limits self operands hr
      | none =>
          cases hp : Primitive.ofName? (Text.upperCase name) with
          | some p => exact evaluateCall_primitive limits self operands hr hp
          | none => exact evaluateCall_valued limits self operands hr hp
  | number n => rfl
  | list elements => rfl
  | primitive p => rfl
  | procedure p => rfl

end PocketLisp.Evaluation
