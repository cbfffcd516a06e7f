import PocketLisp.Proofs.Contents

/-!
# What a definition does

A list with the keyword of definitions at its head registers a procedure or is refused. It evaluates
nothing, so that the least fuel is enough for it and no parts of it matter. A refusal leaves no
trace but in the journal: all checks come before the change.
-/

namespace PocketLisp

open Evaluation

namespace Value

/-- A list with the keyword at its head, whatever its operands. -/
def IsDefinition (e : Value) : Prop :=
  ∃ head operands, e = .list (head :: operands) ∧ keyword? head = some .define

/-- A list with the keyword, a name, a list of symbols and a body: a well-formed definition. -/
def IsDefinitionOf (name : Symbol) (e : Value) : Prop :=
  ∃ (head : Value) (parameters : List Symbol) (body : Value),
    e = .list [head, .symbol name, .list (parameters.map .symbol), body] ∧
    keyword? head = some .define

theorem IsDefinitionOf.isDefinition {name : Symbol} {e : Value} (h : e.IsDefinitionOf name) :
    e.IsDefinition := by
  obtain ⟨head, parameters, body, rfl, hk⟩ := h
  exact ⟨head, _, rfl, hk⟩

end Value

namespace Machine

/-- The machine in which a definition is checked: two events are noted. -/
def begun (m : Machine) (e : Value) : Machine :=
  (m.record (.evaluating e)).record (.specialForm .define)

/-- The machine after a definition that passes the checks. -/
def registering (m : Machine) (name : Symbol) (parameters : List Symbol) (body : Value) : Machine :=
  ((if m.registry.contains name then m.record (.redefining name) else m).record
    (.defining (m.registry.fresh name parameters body))).define name parameters body

theorem begun_twin (m : Machine) (e : Value) : (m.begun e).Twin m :=
  ⟨rfl, rfl, rfl⟩

theorem registering_twin (m : Machine) (name : Symbol) (parameters : List Symbol) (body : Value) :
    (m.registering name parameters body).Twin (m.define name parameters body) := by
  unfold registering
  split
  · exact ⟨rfl, rfl, rfl⟩
  · exact ⟨rfl, rfl, rfl⟩

end Machine

/-- A procedure is registered if it has parameters to read and may be registered. -/
theorem define_of_asSymbols {limits : Limits} {name : Symbol} {operands : List Value}
    {parameters : List Symbol} (h : Value.asSymbols operands = .ok parameters) (body : Value)
    (m : Machine) :
    define limits (.symbol name) (.list operands) body m =
      if m.registry.contains name && !limits.allowRedefinition then .failed (.redefinition name) m
      else .returned (.symbol name) (m.registering name parameters body) := by
  simp only [define, Value.asSymbol, Value.asList, h, Run.ofMismatch, Run.bind_apply, Run.pure,
    Run.gets, Machine.registering]
  cases hcontains : m.registry.contains name with
  | false => rfl
  | true =>
      cases limits.allowRedefinition with
      | false => rfl
      | true => rfl

/-- Of a definition nothing is evaluated: not what its parts would give, nor how much fuel is left
for them, makes a difference. -/
theorem step_definition {e : Value} (he : e.IsDefinition) (limits : Limits) (fuel : Nat)
    (self : Value → Run Value) : step limits fuel self e = evaluate limits 1 e := by
  obtain ⟨head, operands, rfl, hk⟩ := he
  show step limits fuel self _ = step limits 0 (evaluate limits 0) _
  simp only [step, evaluateList, hk]
  cases hform : Form.ofOperands? .define operands with
  | none => rfl
  | some form =>
      obtain ⟨name, parameters, body, rfl, rfl⟩ := Form.exists_of_define hform
      rfl

theorem evaluate_definition {e : Value} (he : e.IsDefinition) (limits : Limits) (fuel : Nat) :
    evaluate limits (fuel + 1) e = evaluate limits 1 e :=
  step_definition he limits fuel (evaluate limits fuel)

theorem evaluate_definition_eq {head : Value} (hk : keyword? head = some .define) (limits : Limits)
    (operands : List Value) (m : Machine) :
    evaluate limits 1 (.list (head :: operands)) m =
      (match Form.ofOperands? .define operands with
        | none => Run.fail (.wrongCount Keyword.define.name Keyword.define.arity operands.length)
        | some form => evaluateForm limits 0 (evaluate limits 0) form)
        (m.begun (.list (head :: operands))) := by
  show step limits 0 (evaluate limits 0) _ m = _
  simp only [step, evaluateList, hk]
  rfl

/-- All that a definition can do: fail and leave the machine as it was, but for the journal, or
register a procedure that may be registered. -/
theorem definition_cases {head : Value} (hk : keyword? head = some .define) (limits : Limits)
    (operands : List Value) (m : Machine) :
    (∃ fault, evaluate limits 1 (.list (head :: operands)) m =
      .failed fault (m.begun (.list (head :: operands)))) ∨
    ∃ name parameters body, operands = [.symbol name, .list (parameters.map .symbol), body] ∧
      (m.registry.contains name = true → limits.allowRedefinition = true) ∧
      evaluate limits 1 (.list (head :: operands)) m = .returned (.symbol name)
        ((m.begun (.list (head :: operands))).registering name parameters body) := by
  rw [evaluate_definition_eq hk]
  cases hform : Form.ofOperands? .define operands with
  | none => exact Or.inl ⟨_, rfl⟩
  | some form =>
      obtain ⟨name, parameters, body, rfl, rfl⟩ := Form.exists_of_define hform
      cases name with
      | symbol name =>
          cases parameters with
          | list operands =>
              cases hsymbols : Value.asSymbols operands with
              | error cause =>
                  left
                  refine ⟨.mismatch cause, ?_⟩
                  simp only [evaluateForm, define, Value.asSymbol, Value.asList, hsymbols,
                    Run.ofMismatch, Run.bind_apply, Run.pure, Run.fail]
              | ok parameters =>
                  obtain rfl := Value.asSymbols_eq_ok.mp hsymbols
                  simp only [evaluateForm, define_of_asSymbols hsymbols]
                  by_cases hrefused : m.registry.contains name && !limits.allowRedefinition
                  · exact Or.inl ⟨_, if_pos hrefused⟩
                  · refine Or.inr ⟨name, parameters, body, rfl, ?_, if_neg hrefused⟩
                    simpa using hrefused
          | _ => exact Or.inl ⟨_, rfl⟩
      | _ => exact Or.inl ⟨_, rfl⟩

/-- A definition of a registered name, where that is not allowed. -/
theorem definition_refused {name : Symbol} {e : Value} (he : e.IsDefinitionOf name)
    {limits : Limits} (hallow : limits.allowRedefinition = false) {m : Machine}
    (hname : m.registry.contains name = true) :
    evaluate limits 1 e m = .failed (.redefinition name) (m.begun e) := by
  obtain ⟨head, parameters, body, rfl, hk⟩ := he
  have hsymbols : Value.asSymbols (parameters.map .symbol) = .ok parameters :=
    Value.asSymbols_eq_ok.mpr rfl
  rw [evaluate_definition_eq hk]
  show define limits (.symbol name) (.list (parameters.map .symbol)) body (m.begun _) = _
  rw [define_of_asSymbols hsymbols]
  show (if m.registry.contains name && !limits.allowRedefinition then _ else _) = _
  rw [hname, hallow]
  rfl

end PocketLisp
