import PocketLisp.Proofs.Answers

/-!
# Properties that every construct of the language passes on

A congruence is a property of families of runs, one run for every index, that holds of the run of
an expression as soon as it holds of the runs of its parts. The members of a family may differ in
their limits and in their fuel, not in the values they compute with. The evaluator is taken apart
here once; invariants of one run, comparisons of two runs and statements about all amounts of fuel
are instances, with one, two and infinitely many indices.
-/

namespace PocketLisp

open Evaluation

/-- Whether the event says that a procedure is defined. -/
def Event.isDefinition : Event → Bool
  | .defining _ => true
  | _ => false

/-- Whether the event belongs to the call of a primitive or of a procedure. -/
def Event.isOfCall : Event → Bool
  | .calling _ _ | .callReturned _ _ | .callFailed _ _ | .pushed _ => true
  | _ => false

/-- The faults by which a limit or the policy ends a run. -/
def Fault.isRestriction : Fault → Bool
  | .iterationLimit _ | .recursionLimit _ | .redefinition _ => true
  | _ => false

/-- What a property has to say about the single actions of the language other than definitions.
Procedure calls are left out: how much of a callee's run is known differs from property to
property. -/
structure PartialCongruence {ι : Type} (limits : ι → Limits) where
  Holds : {α : Type} → (ι → Run α) → Prop
  pure : ∀ {α : Type} (a : α), Holds fun _ => Pure.pure a
  fail : ∀ {α : Type} (fault : Fault), fault.isRestriction = false →
    Holds fun _ => (Run.fail fault : Run α)
  bind : ∀ {α β : Type} {X : ι → Run α} {F : ι → α → Run β},
    Holds X → (∀ a, Holds fun i => F i a) → Holds fun i => X i >>= F i
  lookup : ∀ name, Holds fun _ => Run.gets (·.lookup? name)
  named : ∀ name, Holds fun _ => Run.gets (operatorNamed? · name)
  note : ∀ e, e.isOfCall = false → e.isDefinition = false → Holds fun _ => Run.record e
  assign : ∀ name value, Holds fun _ => Run.modify (·.set name value)
  primitive : ∀ p args, Holds fun _ => callPrimitive p args
  /-- The check before a pass through a loop body. -/
  pass : ∀ {X : ι → Run Value} (n : Nat), Holds X → Holds fun i =>
    match (limits i).brokenByPass n with
    | some limit => Run.fail (.iterationLimit limit)
    | none => X i

/-- What a property has to say about all single actions, with the steps of a definition one by
one. -/
structure Congruence {ι : Type} (limits : ι → Limits) extends PartialCongruence limits where
  registry : Holds fun _ => Run.gets (·.registry)
  record : ∀ e, e.isOfCall = false → Holds fun _ => Run.record e
  note := fun e he _ => record e he
  register : ∀ name parameters body, Holds fun _ => Run.modify (·.define name parameters body)
  /-- The check before a definition. -/
  policy : ∀ {X : ι → Run Value} (name : Symbol) (r : Registry), Holds X → Holds fun i =>
    if r.contains name && !(limits i).allowRedefinition then Run.fail (.redefinition name)
    else X i

section SameLimits

variable {ι : Type} {P : (ι → Run Value) → Prop} (hfail : ∀ fault, P fun _ => Run.fail fault)
  {X : ι → Run Value} (hx : P X) (limits : Limits)

include hfail hx

/-- Where all limits are the same, a check lets all runs go on or none. -/
theorem pass_of_fail (n : Nat) : P fun i =>
    match limits.brokenByPass n with
    | some limit => Run.fail (.iterationLimit limit)
    | none => X i := by
  cases limits.brokenByPass n with
  | none => exact hx
  | some limit => exact hfail _

theorem policy_of_fail (name : Symbol) (r : Registry) : P fun i =>
    if r.contains name && !limits.allowRedefinition then Run.fail (.redefinition name)
    else X i := by
  split
  · exact hfail _
  · exact hx

end SameLimits

namespace Form

/-- The operands that a form may evaluate. -/
def evaluated : Form → List Value
  | .branch test consequent alternative => [test, consequent, alternative]
  | .loop test body => [test, body]
  | .assign _ expression => [expression]
  | .first expression | .rest expression => [expression]
  | .pair left right => [left, right]
  | .isList expression | .isNumber expression | .isSymbol expression => [expression]
  | .define _ _ _ | .truth => []

theorem mem_operands_of_evaluated {keyword : Keyword} {operands : List Value} {form : Form}
    (h : ofOperands? keyword operands = some form) {e : Value} (he : e ∈ form.evaluated) :
    e ∈ operands := by
  unfold ofOperands? at h
  split at h <;> cases h <;> simp_all [evaluated]

theorem of_define {k : Keyword} {operands : List Value} {name parameters body : Value}
    (h : ofOperands? k operands = some (.define name parameters body)) :
    k = .define ∧ operands = [name, parameters, body] := by
  unfold ofOperands? at h
  split at h <;> cases h
  exact ⟨rfl, rfl⟩

theorem of_assign {k : Keyword} {operands : List Value} {target e : Value}
    (h : ofOperands? k operands = some (.assign target e)) :
    k = .assign ∧ operands = [target, e] := by
  unfold ofOperands? at h
  split at h <;> cases h
  exact ⟨rfl, rfl⟩

theorem exists_of_assign {operands : List Value} {form : Form}
    (h : ofOperands? .assign operands = some form) :
    ∃ target e, operands = [target, e] ∧ form = .assign target e := by
  match operands with
  | [target, e] => exact ⟨target, e, rfl, (Option.some.inj h).symm⟩
  | [] | [_] | _ :: _ :: _ :: _ => cases h

theorem exists_of_define {operands : List Value} {form : Form}
    (h : ofOperands? .define operands = some form) :
    ∃ name parameters body, operands = [name, parameters, body] ∧
      form = .define name parameters body := by
  match operands with
  | [name, parameters, body] => exact ⟨name, parameters, body, rfl, (Option.some.inj h).symm⟩
  | [] | [_] | [_, _] | _ :: _ :: _ :: _ :: _ => cases h

end Form

namespace PartialCongruence

variable {ι : Type} {limits : ι → Limits} (C : PartialCongruence limits)
  {self : ι → Value → Run Value}

theorem ofMismatch {α : Type} (x : Except Mismatch α) : C.Holds fun _ => Run.ofMismatch x := by
  cases x with
  | error cause => exact C.fail _ rfl
  | ok a => exact C.pure a

theorem valueOf (name : Symbol) : C.Holds fun _ => Evaluation.valueOf name := by
  unfold Evaluation.valueOf
  apply C.bind (C.lookup name)
  intro found
  cases found with
  | none => exact C.fail _ rfl
  | some v => exact C.pure v

theorem evaluateAll {es : List Value} (hes : ∀ e ∈ es, C.Holds fun i => self i e) :
    C.Holds fun i => Evaluation.evaluateAll (self i) es := by
  induction es with
  | nil => exact C.pure []
  | cons e es ih =>
      apply C.bind (hes e (by simp))
      intro v
      apply C.bind (ih fun x hx => hes x (by simp [hx]))
      intro vs
      exact C.pure (v :: vs)

theorem apply (hcall : ∀ p args, C.Holds fun i => callProcedure (limits i) (self i) p args)
    (callable : Value) (args : List Value) :
    C.Holds fun i => Evaluation.apply (limits i) (self i) callable args := by
  cases callable with
  | primitive p => exact C.primitive p args
  | procedure p => exact hcall p args
  | number n => exact C.fail _ rfl
  | symbol name => exact C.fail _ rfl
  | list elements => exact C.fail _ rfl

theorem operator {head : Value} (hhead : C.Holds fun i => self i head) :
    C.Holds fun i => Evaluation.operator (self i) head := by
  cases head with
  | symbol name =>
      apply C.bind (C.named name)
      intro found
      cases found with
      | none => exact C.fail _ rfl
      | some v => exact C.pure v
  | number n => exact hhead
  | list elements => exact hhead
  | primitive p => exact hhead
  | procedure p => exact hhead

theorem evaluateCall (hcall : ∀ p args, C.Holds fun i => callProcedure (limits i) (self i) p args)
    {head : Value} {operands : List Value}
    (hparts : ∀ e ∈ head :: operands, C.Holds fun i => self i e) :
    C.Holds fun i => Evaluation.evaluateCall (limits i) (self i) head operands := by
  simp only [evaluateCall_eq]
  apply C.bind (C.operator (hparts head (by simp)))
  intro callable
  cases hc : callable.isCallable with
  | false => exact C.fail _ rfl
  | true =>
      apply C.bind (C.evaluateAll fun e he => hparts e (by simp [he]))
      intro args
      exact C.apply hcall callable args

/-- Every form but the loop and the definition; what a loop does depends on the fuel it is given. -/
theorem evaluateForm {fuel : ι → Nat} {form : Form}
    (hparts : ∀ e ∈ form.evaluated, C.Holds fun i => self i e)
    (hloop : ∀ test body, form = .loop test body →
      C.Holds fun i => repeatWhile (limits i) (self i) test body (fuel i) 0)
    (hdefine : ∀ name parameters body, form = .define name parameters body →
      C.Holds fun i => Evaluation.define (limits i) name parameters body) :
    C.Holds fun i => Evaluation.evaluateForm (limits i) (fuel i) (self i) form := by
  have htest : ∀ (passes : Value → Bool) (e : Value), (C.Holds fun i => self i e) →
      C.Holds fun i => Evaluation.test (self i) passes e := by
    intro passes e he
    exact C.bind he fun v => C.pure _
  cases form with
  | branch test consequent alternative =>
      apply C.bind (hparts test (by simp [Form.evaluated]))
      intro condition
      cases condition.isTruth with
      | false => exact hparts alternative (by simp [Form.evaluated])
      | true => exact hparts consequent (by simp [Form.evaluated])
  | loop test body => exact hloop test body rfl
  | assign target expression =>
      apply C.bind (C.ofMismatch _)
      intro name
      apply C.bind (hparts expression (by simp [Form.evaluated]))
      intro value
      apply C.bind (C.note _ rfl rfl)
      intro _
      apply C.bind (C.assign name value)
      intro _
      exact C.pure value
  | first expression =>
      apply C.bind (hparts expression (by simp [Form.evaluated]))
      intro v
      apply C.bind (C.ofMismatch _)
      intro elements
      cases elements with
      | nil => exact C.fail _ rfl
      | cons element rest => exact C.pure element
  | rest expression =>
      apply C.bind (hparts expression (by simp [Form.evaluated]))
      intro v
      apply C.bind (C.ofMismatch _)
      intro elements
      exact C.pure _
  | pair left right =>
      apply C.bind (hparts left (by simp [Form.evaluated]))
      intro a
      apply C.bind (hparts right (by simp [Form.evaluated]))
      intro b
      exact C.pure _
  | isList expression => exact htest _ _ (hparts expression (by simp [Form.evaluated]))
  | isNumber expression => exact htest _ _ (hparts expression (by simp [Form.evaluated]))
  | isSymbol expression => exact htest _ _ (hparts expression (by simp [Form.evaluated]))
  | define name parameters body => exact hdefine name parameters body rfl
  | truth => exact C.pure _

variable (self) in
/-- One level of evaluation: the property passes from the elements of a list to the list. -/
theorem step (fuel : ι → Nat) {e : Value}
    (hcall : ∀ p args, C.Holds fun i => callProcedure (limits i) (self i) p args)
    (hparts : ∀ elements, e = .list elements → ∀ x ∈ elements, C.Holds fun i => self i x)
    (hloop : ∀ test body, (C.Holds fun i => self i test) → (C.Holds fun i => self i body) →
      C.Holds fun i => repeatWhile (limits i) (self i) test body (fuel i) 0)
    (hdefine : ∀ head name parameters body, e = .list [head, name, parameters, body] →
      keyword? head = some .define →
      C.Holds fun i => Evaluation.define (limits i) name parameters body) :
    C.Holds fun i => Evaluation.step (limits i) (fuel i) (self i) e := by
  apply C.bind (C.note _ rfl rfl)
  intro _
  cases e with
  | symbol name => exact C.valueOf name
  | list elements =>
      cases elements with
      | nil => exact C.pure _
      | cons head operands =>
          have hall := hparts _ rfl
          cases hk : keyword? head with
          | none =>
              simp only [evaluateList, hk]
              exact C.evaluateCall hcall hall
          | some keyword =>
              simp only [evaluateList, hk]
              apply C.bind (C.note _ rfl rfl)
              intro _
              cases hf : Form.ofOperands? keyword operands with
              | none => exact C.fail _ rfl
              | some form =>
                  have hsub : ∀ x ∈ form.evaluated, C.Holds fun i => self i x := fun x hx =>
                    hall x (List.mem_cons_of_mem _ (Form.mem_operands_of_evaluated hf hx))
                  apply C.evaluateForm hsub
                  · rintro test body rfl
                    exact hloop test body (hsub test (by simp [Form.evaluated]))
                      (hsub body (by simp [Form.evaluated]))
                  · rintro name parameters body rfl
                    obtain ⟨rfl, rfl⟩ := Form.of_define hf
                    exact hdefine head name parameters body rfl hk
  | number n => exact C.pure _
  | primitive p => exact C.pure _
  | procedure p => exact C.pure _

variable (self) in
/-- Unfolding a loop once: test, check of the limit, body, and the passes that remain. -/
theorem repeatWhile_succ (fuel : ι → Nat) {test body : Value} {passes : Nat}
    (htest : C.Holds fun i => self i test) (hbody : C.Holds fun i => self i body)
    (hrest : C.Holds fun i =>
      repeatWhile (limits i) (self i) test body (fuel i) (passes + 1)) :
    C.Holds fun i => repeatWhile (limits i) (self i) test body (fuel i + 1) passes := by
  apply C.bind htest
  intro condition
  cases condition.isTruth with
  | false => exact C.bind (C.note _ rfl rfl) fun _ => C.pure _
  | true => exact C.pass _ (C.bind hbody fun _ => hrest)

theorem repeatWhile (hexhausted : C.Holds fun _ => (Run.outOfFuel : Run Value))
    {test body : Value} (htest : C.Holds fun i => self i test)
    (hbody : C.Holds fun i => self i body) (fuel passes : Nat) :
    C.Holds fun i => Evaluation.repeatWhile (limits i) (self i) test body fuel passes := by
  induction fuel generalizing passes with
  | zero => exact hexhausted
  | succ fuel ih => exact C.repeatWhile_succ self (fun _ => fuel) htest hbody (ih (passes + 1))

end PartialCongruence

namespace Congruence

variable {ι : Type} {limits : ι → Limits} (C : Congruence limits) {self : ι → Value → Run Value}

theorem define (name parameters body : Value) :
    C.Holds fun i => Evaluation.define (limits i) name parameters body := by
  apply C.bind (C.ofMismatch _)
  intro name
  apply C.bind (C.ofMismatch _)
  intro operands
  apply C.bind (C.ofMismatch _)
  intro parameters
  apply C.bind C.registry
  intro registry
  apply C.policy
  have hrest : C.Holds fun _ => show Run Value from do
      Run.record (.defining (registry.fresh name parameters body))
      Run.modify (·.define name parameters body)
      return .symbol name := by
    apply C.bind (C.record _ rfl)
    intro _
    apply C.bind (C.register name parameters body)
    intro _
    exact C.pure _
  cases registry.contains name with
  | false => exact hrest
  | true => exact C.bind (C.record _ rfl) fun _ => hrest

variable (self) in
theorem step (fuel : ι → Nat) {e : Value}
    (hcall : ∀ p args, C.Holds fun i => callProcedure (limits i) (self i) p args)
    (hparts : ∀ elements, e = .list elements → ∀ x ∈ elements, C.Holds fun i => self i x)
    (hloop : ∀ test body, (C.Holds fun i => self i test) → (C.Holds fun i => self i body) →
      C.Holds fun i => repeatWhile (limits i) (self i) test body (fuel i) 0) :
    C.Holds fun i => Evaluation.step (limits i) (fuel i) (self i) e :=
  C.toPartialCongruence.step self fuel hcall hparts hloop fun _ _ _ _ _ _ => C.define _ _ _

/-- With the same fuel for every index, the property holds of every expression as soon as it passes
from a body to its calls. -/
theorem evaluate (hexhausted : C.Holds fun _ => (Run.outOfFuel : Run Value))
    (hcall : ∀ fuel (p : Procedure Value) args,
      (C.Holds fun i => PocketLisp.evaluate (limits i) fuel p.body) →
      C.Holds fun i => call (limits i) fuel p args)
    (fuel : Nat) (e : Value) : C.Holds fun i => PocketLisp.evaluate (limits i) fuel e := by
  induction fuel generalizing e with
  | zero => exact hexhausted
  | succ fuel ih =>
      apply C.step (fun i => PocketLisp.evaluate (limits i) fuel) fun _ => fuel
      · intro p args
        exact hcall fuel p args (ih p.body)
      · intro elements _ x _
        exact ih x
      · intro test body htest hbody
        exact C.repeatWhile hexhausted htest hbody fuel 0

end Congruence

end PocketLisp
