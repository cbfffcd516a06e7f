import PocketLisp.Proofs.Lockstep
import PocketLisp.Proofs.Replacement

/-!
# One program on two machines

Corresponding runs in which both sides have the same program and compute the same values; only the
machines may differ. What is known of the program is known of every expression that it evaluates,
and of the body of every procedure that it can get hold of. With one machine on both sides a
coincidence is an invariant of a single run.
-/

namespace PocketLisp

open Evaluation

/-- The expressions that a form evaluates, at once or in calls of the procedure that it defines. -/
def Form.code : Form → List Value
  | .define (.symbol _) (.list operands) body => if operands.all Value.isSymbol then [body] else []
  | .define _ _ _ => []
  | form => form.evaluated

theorem Form.mem_code_of_evaluated {form : Form} {e : Value} (h : e ∈ form.evaluated) :
    e ∈ form.code := by
  cases form with
  | define name parameters body => cases h
  | _ => exact h

theorem Form.mem_operands_of_code {k : Keyword} {operands : List Value} {form : Form}
    (hform : ofOperands? k operands = some form) {e : Value} (he : e ∈ form.code) :
    e ∈ operands := by
  unfold code at he
  split at he
  · obtain ⟨_, rfl⟩ := Form.of_define hform
    split at he
    · simp_all
    · cases he
  · cases he
  · exact mem_operands_of_evaluated hform he

theorem Value.isSymbol_of_asSymbols {operands : List Value} {parameters : List Symbol}
    (h : asSymbols operands = .ok parameters) : operands.all isSymbol = true := by
  rw [asSymbols_eq_ok.mp h]
  simp [isSymbol]

/-- The operands of a list, and its head unless it is a name, are evaluated by a call; of a special
form, what the form evaluates. -/
def Value.parts : Value → List Value
  | .list (head :: operands) =>
    match keyword? head with
    | none => if head.isSymbol then operands else head :: operands
    | some k => ((Form.ofOperands? k operands).map Form.code).getD []
  | _ => []

namespace Value

theorem mem_parts_of_form {k : Keyword} {head : Value} {operands : List Value} {form : Form}
    (hk : keyword? head = some k) (hform : Form.ofOperands? k operands = some form) {e : Value}
    (he : e ∈ form.code) : e ∈ (Value.list (head :: operands)).parts := by
  simp only [parts, hk, hform, Option.map_some, Option.getD_some]
  exact he

theorem mem_parts_of_call {head : Value} {operands : List Value} (hk : keyword? head = none)
    {e : Value} (he : e ∈ operands) : e ∈ (Value.list (head :: operands)).parts := by
  simp only [parts, hk]
  split
  · exact he
  · exact List.mem_cons_of_mem head he

theorem head_mem_parts {head : Value} {operands : List Value} (hk : keyword? head = none)
    (hsymbol : head.isSymbol = false) : head ∈ (Value.list (head :: operands)).parts := by
  simp [parts, hk, hsymbol]

theorem mem_elements_of_parts {elements : List Value} {e : Value}
    (h : e ∈ (Value.list elements).parts) : e ∈ elements := by
  cases elements with
  | nil => cases h
  | cons head operands =>
      cases hk : keyword? head with
      | none =>
          simp only [parts, hk] at h
          split at h
          · exact List.mem_cons_of_mem head h
          · exact h
      | some k =>
          simp only [parts, hk] at h
          cases hform : Form.ofOperands? k operands with
          | none =>
              rw [hform] at h
              cases h
          | some form =>
              rw [hform] at h
              exact List.mem_cons_of_mem head (Form.mem_operands_of_code hform h)

end Value

/-- What a coincidence has to say about the single actions of the language. -/
structure Coincidence (Place : Type) where
  /-- What is known of every expression that is evaluated. -/
  Code : Value → Prop
  Machines : Place → Machine → Machine → Prop
  source : ∀ {e}, Code e → e.IsSource
  parts : ∀ {e part}, Code e → part ∈ e.parts → Code part
  holds : ∀ {place m n}, Machines place m n → n.Holds (Value.Bodies Code)
  lookup : ∀ {place m n name}, Machines place m n → Code (.symbol name) →
    m.lookup? name = n.lookup? name
  named : ∀ {place m n name operands}, Machines place m n → keyword? (.symbol name) = none →
    Code (.list (.symbol name :: operands)) → operatorNamed? m name = operatorNamed? n name
  registry : ∀ {place m n}, Machines place m n → m.registry = n.registry
  sink : ∀ {place m n}, Machines place m n → m.sink = n.sink
  depth : ∀ {place m n}, Machines place m n → m.depth = n.depth
  record : ∀ {place m n} event event', Machines place m n →
    Machines place (m.record event) (n.record event')
  print : ∀ {place m n} s, Machines place m n → Machines place (m.withSink s) (n.withSink s)
  set : ∀ {place m n head name e v}, Machines place m n → keyword? head = some .assign →
    Code (.list [head, .symbol name, e]) → v.Bodies Code →
    Machines place (m.set name v) (n.set name v)
  define : ∀ {place m n head name operands parameters body}, Machines place m n →
    keyword? head = some .define → Code (.list [head, .symbol name, .list operands, body]) →
    Value.asSymbols operands = .ok parameters → Code body →
    Machines place (m.define name parameters body) (n.define name parameters body)
  call : ∀ {place m n args} (p : Procedure Value), Machines place m n →
    (∀ v ∈ args, v.Bodies Code) →
    ∃ inner, Machines inner (inCall p args m) (inCall p args n) ∧
      ∀ m' n', Machines inner m' n' → Machines place m'.pop n'.pop

namespace Coincidence

variable {Place : Type} (C : Coincidence Place)

/-- Every name stands in an expression of which something is known. -/
def reading : Reading Place where
  Code _ e e' := e' = e ∧ C.Code e
  Named _ name name' := name' = name ∧ keyword? (.symbol name) = none ∧
    ∃ operands, C.Code (.list (.symbol name :: operands))
  Target _ name name' := name' = name ∧
    ∃ head e, keyword? head = some .assign ∧ C.Code (.list [head, .symbol name, e])
  Definition _ name parameters body body' := body' = body ∧
    ∃ head, keyword? head = some .define ∧ C.Code (.list [head, name, parameters, body])
  Source := Eq

theorem view {e : Value} (he : C.Code e) (place : Place) : C.reading.View place e e := by
  apply Reading.view_refl (C.source he)
  · rintro head operands rfl hk
    refine ⟨?_, fun x hx => ⟨rfl, C.parts he (Value.mem_parts_of_call hk hx)⟩⟩
    cases head with
    | symbol name => exact .named ⟨rfl, hk, operands, he⟩
    | _ => exact .computed rfl rfl ⟨rfl, C.parts he (Value.head_mem_parts hk rfl)⟩
  · rintro k head operands form rfl hk hform
    refine Reading.forms_refl ?_ ?_ ?_ (fun _ => rfl)
    · intro x hx
      have hpart := Value.mem_parts_of_form hk hform (Form.mem_code_of_evaluated hx)
      exact ⟨rfl, C.parts he hpart⟩
    · rintro name x rfl
      obtain ⟨rfl, rfl⟩ := Form.of_assign hform
      exact ⟨rfl, head, x, hk, he⟩
    · rintro name parameters body rfl
      obtain ⟨rfl, rfl⟩ := Form.of_define hform
      exact ⟨rfl, head, hk, he⟩

theorem value_cases {a b : Option Value} (heq : a = b) (hb : ∀ v, b = some v → v.Bodies C.Code) :
    (∃ v v', a = some v ∧ b = some v' ∧ v' = v ∧ v.Bodies C.Code) ∨ (a = none ∧ b = none) := by
  subst heq
  cases a with
  | none => exact Or.inr ⟨rfl, rfl⟩
  | some v => exact Or.inl ⟨v, v, rfl, rfl, rfl, hb v rfl⟩

/-- The same program, the same values. -/
def correspondence : Correspondence Unit Place where
  toReading := C.reading
  Later _ _ := True
  Values _ v v' := v' = v ∧ v.Bodies C.Code
  Machines place _ := C.Machines place
  refl _ := trivial
  trans _ _ := trivial
  mono _ hv := hv
  similar := by
    rintro _ v _ ⟨rfl, hv⟩
    cases hv with
    | number n => exact .number n
    | symbol name => exact .symbol name
    | list all => exact .list (List.forall₂_same.mpr fun v hv => ⟨rfl, all v hv⟩)
    | primitive p => exact .primitive p
    | procedure _ => exact .procedure rfl rfl
  number _ n := ⟨rfl, .number n⟩
  truth _ := ⟨rfl, .symbol _⟩
  null _ := ⟨rfl, .null⟩
  pair := by
    rintro _ a _ b _ ⟨rfl, ha⟩ ⟨rfl, hb⟩
    exact ⟨rfl, ha.pair hb⟩
  tail := by
    rintro _ vs _ ⟨⟨⟩, hvs⟩
    exact ⟨rfl, hvs.tail⟩
  source _ := rfl
  view {place} := by
    rintro e _ ⟨rfl, he⟩
    exact C.view he place
  lookup {place _ m n name _} hm hcode := by
    obtain ⟨hname, hcode⟩ := hcode
    cases hname
    rcases C.value_cases (C.lookup hm hcode) fun v hv => (C.holds hm).lookup? hv with hv | hnone
    · exact Or.inl hv
    · exact Or.inr ⟨hnone.1, hnone.2, rfl⟩
  named {place _ m n name name'} hm hname := by
    obtain ⟨hname, hk, operands, hcode⟩ := hname
    rw [hname]
    have hbodies : ∀ v, operatorNamed? n name = some v → v.Bodies C.Code :=
      fun v hv => (C.holds hm).operatorNamed? .primitive hv
    rcases C.value_cases (C.named hm hk hcode) hbodies with hv | hnone
    · exact Or.inl hv
    · exact Or.inr ⟨hnone.1, hnone.2, rfl⟩
  sink hm := C.sink hm
  depth hm := C.depth hm
  record event event' hm := C.record event event' hm
  print s hm := C.print s hm
  set hm htarget hv := by
    obtain ⟨rfl, head, e, hk, hcode⟩ := htarget
    obtain ⟨rfl, hv⟩ := hv
    exact C.set hm hk hcode hv
  registered name hm := congrArg (Registry.contains · name) (C.registry hm)
  define {place w m n name operands parameters body body'} hm hdefinition hparameters := by
    obtain ⟨rfl, head, hk, hcode⟩ := hdefinition
    have hbody : C.Code body' := by
      apply C.parts hcode
      apply Value.mem_parts_of_form hk rfl
      simp [Form.code, Value.isSymbol_of_asSymbols hparameters]
    exact ⟨(), trivial, ⟨rfl, .symbol name⟩,
      C.define (C.record _ _ hm) hk hcode hparameters hbody⟩
  parameters hp := by
    cases hp.1
    rfl
  call {place w m n p p' args args'} hm hp hargs _ := by
    obtain ⟨hsame, hbodies⟩ := hp
    cases hsame
    obtain rfl : args' = args := by
      have hflip := List.Forall₂.imp (fun _ _ h => h.1.symm) hargs
      exact (List.forall₂_eq_eq_eq ▸ hflip).symm
    obtain ⟨inner, hinner, hpop⟩ := C.call p hm fun v hv => (List.forall₂_same.mp hargs v hv).2
    cases hbodies with
    | procedure hbody => exact ⟨inner, ⟨rfl, hbody⟩, hinner, fun _ m' n' _ h => hpop m' n' h⟩

variable {C} {place : Place} {m n : Machine} {e : Value} {limits : Limits}

/-- What the first machine answers, the second answers too. -/
theorem finishes_right (hm : C.Machines place m n) (he : C.Code e) {r : Except Fault Value}
    {m' : Machine} (h : Finishes (evaluate limits · e) m r m') :
    ∃ n', Finishes (evaluate limits · e) n r n' ∧ C.Machines place m' n' := by
  have hcode : C.correspondence.Code place e e := ⟨rfl, he⟩
  obtain ⟨r', n', _, hrun, hresult, hm'⟩ := Correspondence.finishes_right (w := ()) hcode hm h
  exact ⟨n', hresult.eq ▸ hrun, hm'⟩

theorem finishes_left (hm : C.Machines place m n) (he : C.Code e) {r : Except Fault Value}
    {n' : Machine} (h : Finishes (evaluate limits · e) n r n') :
    ∃ m', Finishes (evaluate limits · e) m r m' ∧ C.Machines place m' n' := by
  have hcode : C.correspondence.Code place e e := ⟨rfl, he⟩
  obtain ⟨r', m', _, hrun, hresult, hm'⟩ := Correspondence.finishes_left (w := ()) hcode hm h
  exact ⟨m', hresult.eq ▸ hrun, hm'⟩

end Coincidence

end PocketLisp
