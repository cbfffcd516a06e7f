import PocketLisp.Proofs.Lockstep
import PocketLisp.Proofs.Replacement

/-!
# Renaming a parameter

A parameter of a procedure is known to the body of that procedure only. With another name in the
parameter list and at every place of the body where the parameter is a variable, a call gives the
same, in a machine where the one procedure stands in place of the other. The new name may belong to
a global variable: inside the call it is shadowed, and the body does not mention it otherwise.

In a call of the procedure the two frames have corresponding values under different names; in all
other calls, under the same names. Which of the two it is decides what the names of an expression
correspond to.
-/

namespace PocketLisp

open Evaluation

namespace Value

/-- The second text is the first with other names for its variables: for the symbols that are
evaluated or assigned to. The operands of a definition stay, and where nothing can be evaluated or
assigned to it makes no difference. -/
inductive Renamed (f : Symbol → Symbol) : Value → Value → Prop
  | number (n : Number) : Renamed f (.number n) (.number n)
  | symbol (name : Symbol) : Renamed f (.symbol name) (.symbol (f name))
  | empty : Renamed f (.list []) (.list [])
  | call {head head' : Value} {operands operands' : List Value} (hk : keyword? head = none)
      (hhead : Renamed f head head') (hoperands : List.Forall₂ (Renamed f) operands operands') :
      Renamed f (.list (head :: operands)) (.list (head' :: operands'))
  | form {head : Value} {k : Keyword} {operands operands' : List Value}
      (hk : keyword? head = some k) (hne : k ≠ .define)
      (hoperands : List.Forall₂ (Renamed f) operands operands') :
      Renamed f (.list (head :: operands)) (.list (head :: operands'))
  | definition {head : Value} {operands : List Value} (hk : keyword? head = some .define) :
      Renamed f (.list (head :: operands)) (.list (head :: operands))
  | malformed {head : Value} {k : Keyword} {operands : List Value} (hk : keyword? head = some k)
      (hnone : Form.ofOperands? k operands = none) :
      Renamed f (.list (head :: operands)) (.list (head :: operands))
  | unassignable {head target e e' : Value} (hk : keyword? head = some .assign)
      (htarget : target.isSymbol = false) (he : Renamed f e e') :
      Renamed f (.list [head, target, e]) (.list [head, target, e'])

end Value

/-- The one name in place of the other. -/
def rename (x y name : Symbol) : Symbol :=
  if name = x then y else name

/-- Whether a call is one of the procedure whose parameter is renamed. -/
inductive Scope where
  | plain
  | renamed

namespace Scope

variable {x y : Symbol}

/-- What a name on the first side is called on the second. -/
def counterpart (x y : Symbol) : Scope → Symbol → Symbol
  | .plain => id
  | .renamed => rename x y

/-- The names that an expression on the first side can have. -/
def Allows (y : Symbol) : Scope → Symbol → Prop
  | .plain, _ => True
  | .renamed, name => name ≠ y

theorem counterpart_cases (x y : Symbol) (scope : Scope) (name : Symbol) :
    scope.counterpart x y name = name ∨
      (name = x ∧ scope.counterpart x y name = y) := by
  cases scope with
  | plain => exact Or.inl rfl
  | renamed =>
      by_cases h : name = x
      · exact Or.inr ⟨h, if_pos h⟩
      · exact Or.inl (if_neg h)

theorem counterpart_inj (scope : Scope) (a b : Symbol) (ha : scope.Allows y a)
    (hb : scope.Allows y b) (h : scope.counterpart x y a = scope.counterpart x y b) : a = b := by
  cases scope with
  | plain => exact h
  | renamed =>
      unfold counterpart rename at h
      dsimp only at h
      split at h <;> split at h
      · simp_all
      · exact absurd h.symm hb
      · exact absurd h ha
      · exact h

end Scope

/-- Program text in which no definition is of one of the two names. -/
structure Tame (x y : Symbol) (e : Value) : Prop where
  source : e.IsSource
  first : ¬ e.Defines x
  second : ¬ e.Defines y

theorem Tame.elements {x y : Symbol} {es : List Value} (h : Tame x y (.list es)) :
    ∀ e ∈ es, Tame x y e :=
  fun e he => ⟨h.source.elements e he, fun hx => h.first (.inside he hx),
    fun hy => h.second (.inside he hy)⟩

/-- What has the name of a variable, and neither of a special form nor of a primitive. -/
structure NamesVariable (name : Symbol) : Prop where
  keyword : Keyword.ofName? (Text.upperCase name) = none
  primitive : Primitive.ofName? (Text.upperCase name) = none

/-- The same procedure but for the name of one parameter, in the list of parameters and wherever it
is a variable of the body. -/
structure Procedure.Renamed (x y : Symbol) (p p' : Procedure Value) : Prop where
  id : p'.id = p.id
  name : p'.name = p.name
  parameters : p'.parameters = p.parameters.map (rename x y)
  body : p.body.Renamed (rename x y) p'.body

/-- What stands for a procedure once `p'` is in place of `p`: itself, if it is not `p` or was made
later, the definitions from number `born` on. -/
inductive Procedure.Exchanged (p p' : Procedure Value) (born : Nat) :
    Procedure Value → Procedure Value → Prop
  | exchanged : Exchanged p p' born p p'
  | kept {q : Procedure Value} (h : q ≠ p ∨ born ≤ q.id) : Exchanged p p' born q q

/-- The parameter `x` of the one procedure is a variable that the other calls `y`. -/
structure RenamesParameter (x y : Symbol) (p p' : Procedure Value) : Prop where
  renamed : p.Renamed x y p'
  parameter : x ∈ p.parameters
  fresh : y ∉ p.parameters
  unmentioned : ¬ p.body.Mentions y
  first : NamesVariable x
  second : NamesVariable y

section Renaming

variable (x y : Symbol) (R : Procedure Value → Procedure Value → Prop)

/-- The same values under the names that correspond; what has another name is a parameter. -/
structure FrameRenamed (scope : Scope) (frame frame' : Frame) : Prop where
  values : ∀ name, scope.Allows y name →
    Option.Rel (Value.Replaced R) (frame.get? name) (frame'.get? (scope.counterpart x y name))
  bound : ∀ name, scope.counterpart x y name ≠ name → frame.contains name = true

/-- The calls in progress since the start, the innermost first, and below them those of before. -/
inductive CallsRenamed : List Scope → List Frame → List Frame → Prop
  | before {calls calls' : List Frame}
      (h : List.Forall₂ (Table.Corresponds (Value.Replaced R)) calls calls') :
      CallsRenamed [] calls calls'
  | since {scope : Scope} {place : List Scope} {frame frame' : Frame} {calls calls' : List Frame}
      (h : FrameRenamed x y R scope frame frame') (outer : CallsRenamed place calls calls') :
      CallsRenamed (scope :: place) (frame :: calls) (frame' :: calls')

end Renaming

/-- The innermost call. -/
def Scope.current : List Scope → Scope
  | [] => .plain
  | scope :: _ => scope

section Renaming

variable {x y : Symbol} {R : Procedure Value → Procedure Value → Prop} {scope : Scope}
  {place : List Scope} {frame frame' : Frame}

theorem FrameRenamed.of_corresponds (h : frame.Corresponds (Value.Replaced R) frame') :
    FrameRenamed x y R .plain frame frame' :=
  ⟨fun name _ => h name, fun _ hne => absurd rfl hne⟩

theorem FrameRenamed.corresponds (h : FrameRenamed x y R .plain frame frame') :
    frame.Corresponds (Value.Replaced R) frame' :=
  fun name => h.values name trivial

/-- The frames of two calls of one procedure. -/
theorem FrameRenamed.of_args (q : Procedure Value) {args args' : List Value}
    (hargs : List.Forall₂ (Value.Replaced R) args args') :
    FrameRenamed x y R .plain (Table.ofList (q.parameters.zip args))
      (Table.ofList (q.parameters.zip args')) :=
  of_corresponds (Table.corresponds_ofList_zip q.parameters hargs)

theorem FrameRenamed.insert (h : FrameRenamed x y R scope frame frame') {name : Symbol}
    (hname : scope.Allows y name) {v v' : Value} (hv : v.Replaced R v') :
    FrameRenamed x y R scope (frame.insert name v)
      (frame'.insert (scope.counterpart x y name) v') where
  values other hother := by
    apply Table.rel_get?_insert (h.values other hother) hv
    exact ⟨fun heq => heq ▸ rfl, scope.counterpart_inj other name hother hname⟩
  bound other hother := by
    rw [Table.contains_insert, h.bound other hother, Bool.or_true]

/-- Only the frame of the innermost call can be seen, and only there the names may differ. -/
theorem CallsRenamed.cases {calls calls' : List Frame} (h : CallsRenamed x y R place calls calls') :
    (calls = [] ∧ calls' = [] ∧ Scope.current place = .plain) ∨
      ∃ frame outer frame' outer', calls = frame :: outer ∧ calls' = frame' :: outer' ∧
        FrameRenamed x y R (Scope.current place) frame frame' ∧
        ∀ other other', FrameRenamed x y R (Scope.current place) other other' →
          CallsRenamed x y R place (other :: outer) (other' :: outer') := by
  cases h with
  | before h =>
      cases h with
      | nil => exact Or.inl ⟨rfl, rfl, rfl⟩
      | cons head tail =>
          exact Or.inr ⟨_, _, _, _, rfl, rfl, .of_corresponds head,
            fun _ _ hother => .before (.cons hother.corresponds tail)⟩
  | since h outer =>
      exact Or.inr ⟨_, _, _, _, rfl, rfl, h, fun _ _ hother => .since hother outer⟩

theorem CallsRenamed.length_eq {calls calls' : List Frame}
    (h : CallsRenamed x y R place calls calls') : calls.length = calls'.length := by
  induction h with
  | before h => exact h.length_eq
  | since _ _ ih => exact congrArg Nat.succ ih

/-- The environments of corresponding machines. -/
structure EnvironmentRenamed (x y : Symbol) (R : Procedure Value → Procedure Value → Prop)
    (place : List Scope) (env env' : Environment) : Prop where
  globals : env.globals.Corresponds (Value.Replaced R) env'.globals
  calls : CallsRenamed x y R place env.calls env'.calls

namespace EnvironmentRenamed

variable {env env' : Environment} (h : EnvironmentRenamed x y R place env env') {name : Symbol}
  (hname : (Scope.current place).Allows y name)

include h hname

/-- A name that is not bound is the same on both sides: what has another name there is a parameter,
and that is always bound. -/
theorem get? :
    (∃ v v', env.get? name = some v ∧
      env'.get? ((Scope.current place).counterpart x y name) = some v' ∧ v.Replaced R v') ∨
    (env.get? name = none ∧ env'.get? ((Scope.current place).counterpart x y name) = none ∧
      (Scope.current place).counterpart x y name = name) := by
  have hglobal := exists_or_none_of_rel (h.globals name)
  unfold Environment.get?
  rcases h.calls.cases with ⟨hnil, hnil', hplain⟩ | ⟨frame, _, frame', _, hcons, hcons', hframe, _⟩
  · simp only [hnil, hnil', hplain]
    exact hglobal.imp_right fun hnone => ⟨hnone.1, hnone.2, rfl⟩
  · simp only [hcons, hcons']
    rcases exists_or_none_of_rel (hframe.values name hname) with ⟨v, v', hv, hv', hrel⟩ | hnone
    · exact Or.inl ⟨v, v', by rw [hv, Option.some_or], by rw [hv', Option.some_or], hrel⟩
    · have hsame : (Scope.current place).counterpart x y name = name := by
        by_contra hne
        have hbound := hframe.bound name hne
        rw [Table.contains, hnone.1] at hbound
        cases hbound
      rw [hnone.1, hnone.2, Option.none_or, Option.none_or, hsame]
      exact hglobal.imp_right fun hnone => ⟨hnone.1, hnone.2, rfl⟩

/-- An assignment goes to the innermost call on both sides, or to the globals on both. -/
theorem set {v v' : Value} (hv : v.Replaced R v') :
    EnvironmentRenamed x y R place (env.set name v)
      (env'.set ((Scope.current place).counterpart x y name) v') := by
  obtain ⟨globals, calls⟩ := env
  obtain ⟨globals', calls'⟩ := env'
  obtain ⟨hglobals, hcalls⟩ := h
  dsimp only at hglobals hcalls
  rcases hcalls.cases with ⟨rfl, rfl, hplain⟩ | ⟨frame, _, frame', _, rfl, rfl, hframe, hnew⟩
  · rw [hplain]
    exact ⟨hglobals.insert name hv, hcalls⟩
  · have hcontains := Table.contains_eq_of_rel (hframe.values name hname)
    unfold Environment.set
    dsimp only
    rw [← hcontains]
    by_cases hbound : frame.contains name = true
    · rw [if_pos hbound, if_pos hbound]
      exact ⟨hglobals, hnew _ _ (hframe.insert hname hv)⟩
    · have hsame : (Scope.current place).counterpart x y name = name := by
        by_contra hne
        exact hbound (hframe.bound name hne)
      rw [if_neg hbound, if_neg hbound, hsame]
      exact ⟨hglobals.insert name hv, hcalls⟩

end EnvironmentRenamed

end Renaming

structure TextRenamed (x y : Symbol) (e e' : Value) : Prop where
  renamed : e.Renamed (rename x y) e'
  unmentioned : ¬ e.Mentions y
  tame : Tame x y e

def Scope.Code (x y : Symbol) : Scope → Value → Value → Prop
  | .plain, e, e' => e' = e ∧ Tame x y e
  | .renamed, e, e' => TextRenamed x y e e'

/-- The names of an expression are those of the call in which it is evaluated. -/
def renamingReading (x y : Symbol) : Reading (List Scope) where
  Code place := (Scope.current place).Code x y
  Named place name name' :=
    name' = (Scope.current place).counterpart x y name ∧ (Scope.current place).Allows y name
  Target place name name' :=
    name' = (Scope.current place).counterpart x y name ∧ (Scope.current place).Allows y name
  Definition _ name _ body body' :=
    body' = body ∧ Tame x y body ∧ name ≠ .symbol x ∧ name ≠ .symbol y
  Source e e' := e' = e ∨ e.Renamed (rename x y) e'

section Reading

variable {x y : Symbol} {place : List Scope}

theorem Scope.counterpart_of_code {scope : Scope} {name name' : Symbol}
    (h : scope.Code x y (.symbol name) (.symbol name')) :
    name' = scope.counterpart x y name ∧ scope.Allows y name := by
  cases scope with
  | plain => exact ⟨Value.symbol.inj h.1, trivial⟩
  | renamed =>
      obtain ⟨hrenamed, hunmentioned, _⟩ := h
      cases hrenamed
      exact ⟨rfl, fun heq => hunmentioned (heq ▸ .symbol)⟩

/-- The operands of a definition are not of the two names. -/
theorem definition_of_tame {head name parameters body : Value}
    (hk : keyword? head = some .define) (h : Tame x y (.list [head, name, parameters, body])) :
    (renamingReading x y).Definition place name parameters body body := by
  refine ⟨rfl, h.elements body (by simp), ?_, ?_⟩
  · rintro rfl
    exact h.first (.here hk)
  · rintro rfl
    exact h.second (.here hk)

theorem view_plain {e : Value} (hplain : Scope.current place = .plain) (h : Tame x y e) :
    (renamingReading x y).View place e e := by
  have hcode : ∀ a, Tame x y a → (renamingReading x y).Code place a a := by
    intro a ha
    change (Scope.current place).Code x y a a
    rw [hplain]
    exact ⟨rfl, ha⟩
  have hname : ∀ name, name = (Scope.current place).counterpart x y name ∧
      (Scope.current place).Allows y name := by
    intro name
    rw [hplain]
    exact ⟨rfl, trivial⟩
  exact Reading.view_of_parts (fun _ ha => ha.source) (fun _ ha => ha.elements) hcode hname hname
    (fun _ _ _ _ hk ha => definition_of_tame hk ha) (fun _ => Or.inl rfl) h

namespace TextRenamed

theorem code (hplace : Scope.current place = .renamed) {e e' : Value} (h : TextRenamed x y e e') :
    (renamingReading x y).Code place e e' := by
  change (Scope.current place).Code x y e e'
  rw [hplace]
  exact h

theorem head {head head' e' : Value} {operands : List Value}
    (h : TextRenamed x y (.list (head :: operands)) e') (hhead : head.Renamed (rename x y) head') :
    TextRenamed x y head head' :=
  ⟨hhead, fun hm => h.unmentioned (.inside List.mem_cons_self hm),
    h.tame.elements head List.mem_cons_self⟩

theorem operands {head e' : Value} {operands operands' : List Value}
    (h : TextRenamed x y (.list (head :: operands)) e')
    (hoperands : List.Forall₂ (Value.Renamed (rename x y)) operands operands') :
    List.Forall₂ (TextRenamed x y) operands operands' := by
  have hparts : ∀ e ∈ operands, ¬ e.Mentions y ∧ Tame x y e := by
    intro e he
    have hmem := List.mem_cons_of_mem head he
    exact ⟨fun hm => h.unmentioned (.inside hmem hm), h.tame.elements e hmem⟩
  exact ((List.forall₂_and_left operands operands').mpr ⟨hparts, hoperands⟩).imp
    fun e e' he => ⟨he.2, he.1.1, he.1.2⟩

theorem target (hplace : Scope.current place = .renamed) {e e' : Value}
    (h : TextRenamed x y e e') : (renamingReading x y).Targets place e e' := by
  cases h.renamed with
  | symbol name => exact .symbol (Scope.counterpart_of_code (h.code hplace))
  | _ => exact .other rfl rfl (Or.inr h.renamed)

theorem heads (hplace : Scope.current place = .renamed) {e e' : Value}
    (h : TextRenamed x y e e') : (renamingReading x y).Heads place e e' := by
  cases h.renamed with
  | symbol name => exact .named (Scope.counterpart_of_code (h.code hplace))
  | _ => exact .computed rfl rfl (h.code hplace)

theorem keyword? (hy : NamesVariable y) {e e' : Value} (h : TextRenamed x y e e')
    (hk : Evaluation.keyword? e = none) : Evaluation.keyword? e' = none := by
  cases h.renamed with
  | symbol name =>
      change Keyword.ofName? (Text.upperCase (rename x y name)) = none
      unfold rename
      split
      · exact hy.keyword
      · exact hk
  | _ => rfl

/-- A special form other than a definition, with its operands renamed. -/
theorem forms (hplace : Scope.current place = .renamed) {k : Keyword}
    {operands operands' : List Value} {form : Form} (hne : k ≠ .define)
    (hform : Form.ofOperands? k operands = some form)
    (h : List.Forall₂ (TextRenamed x y) operands operands') :
    ∃ form', Form.ofOperands? k operands' = some form' ∧
      (renamingReading x y).Forms place form form' := by
  exact Reading.forms_of_forall₂ hne (fun he => he.code hplace) (fun _ _ _ he => he.target hplace)
    hform h

theorem view (hy : NamesVariable y) (hplace : Scope.current place = .renamed) {e e' : Value}
    (h : TextRenamed x y e e') : (renamingReading x y).View place e e' := by
  cases h.renamed with
  | number n => exact .number n
  | symbol name => exact .symbol
  | empty => exact .empty
  | call hk hhead hoperands =>
      have hhead := h.head hhead
      exact .call hk (hhead.keyword? hy hk) (hhead.heads hplace)
        ((h.operands hoperands).imp fun _ _ he => he.code hplace)
  | @form head k operands operands' hk hne hoperands =>
      cases hform : Form.ofOperands? k operands with
      | none => exact .refused hk hk hform hoperands.length_eq
      | some form =>
          obtain ⟨form', hform', hforms⟩ := forms hplace hne hform (h.operands hoperands)
          exact .form hk hk hform hform' hforms
  | @definition head operands hk =>
      cases hform : Form.ofOperands? .define operands with
      | none => exact .refused hk hk hform rfl
      | some form =>
          obtain ⟨name, parameters, body, rfl, rfl⟩ := Form.exists_of_define hform
          exact .form hk hk hform hform (.define (definition_of_tame hk h.tame))
  | malformed hk hnone => exact .refused hk hk hnone rfl
  | @unassignable head target e e' hk htarget he =>
      have hexpression : TextRenamed x y e e' :=
        ⟨he, fun hm => h.unmentioned (.inside (by simp) hm), h.tame.elements e (by simp)⟩
      exact .form hk hk rfl rfl
        (.assign (.other htarget htarget (Or.inl rfl)) (hexpression.code hplace))

end TextRenamed

end Reading

structure MachineRenamed (x y : Symbol) (p p' : Procedure Value) (born : Nat) (place : List Scope)
    (m n : Machine) : Prop where
  holds : m.Holds (Value.Bodies (Tame x y))
  environment : EnvironmentRenamed x y (p.Exchanged p' born) place m.environment n.environment
  procedures : m.registry.procedures.Corresponds (p.Exchanged p' born) n.registry.procedures
  made : m.registry.made = n.registry.made
  sink : m.sink = n.sink
  first : m.registry.contains x = false
  second : m.registry.contains y = false
  born : born ≤ m.registry.made

namespace MachineRenamed

variable {x y : Symbol} {p p' : Procedure Value} {born : Nat} {place : List Scope} {m n : Machine}
  (h : MachineRenamed x y p p' born place m n)

include h

theorem record (event event' : Event) :
    MachineRenamed x y p p' born place (m.record event) (n.record event') :=
  ⟨h.holds.record event, h.environment, h.procedures, h.made, h.sink, h.first, h.second, h.born⟩

theorem lookup? {name : Symbol} (hname : (Scope.current place).Allows y name) :
    (∃ v v', m.lookup? name = some v ∧
      n.lookup? ((Scope.current place).counterpart x y name) = some v' ∧
      v.Replaced (p.Exchanged p' born) v') ∨
    (m.lookup? name = none ∧ n.lookup? ((Scope.current place).counterpart x y name) = none ∧
      (Scope.current place).counterpart x y name = name) := by
  unfold Machine.lookup?
  rcases h.environment.get? hname with ⟨v, v', hv, hv', hrel⟩ | ⟨hnone, hnone', hsame⟩
  · exact Or.inl ⟨v, v', by rw [hv, Option.some_or], by rw [hv', Option.some_or], hrel⟩
  · rw [hnone, hnone', Option.none_or, Option.none_or, hsame]
    rcases exists_or_none_of_rel (h.procedures name) with ⟨q, q', hq, hq', hrel⟩ | ⟨hq, hq'⟩
    · exact Or.inl ⟨_, _, congrArg _ hq, congrArg _ hq', .procedure hrel⟩
    · exact Or.inr ⟨congrArg _ hq, congrArg _ hq', rfl⟩

/-- A name that is another one on the second side is an operator as a variable on both. -/
theorem operatorNamed? (hx : NamesVariable x) (hy : NamesVariable y) {name : Symbol}
    (hname : (Scope.current place).Allows y name) :
    (∃ v v', Evaluation.operatorNamed? m name = some v ∧
      Evaluation.operatorNamed? n ((Scope.current place).counterpart x y name) = some v' ∧
      v.Replaced (p.Exchanged p' born) v') ∨
    (Evaluation.operatorNamed? m name = none ∧
      Evaluation.operatorNamed? n ((Scope.current place).counterpart x y name) = none ∧
      (Scope.current place).counterpart x y name = name) := by
  have hlookup := h.lookup? hname
  unfold Evaluation.operatorNamed?
  rcases (Scope.current place).counterpart_cases x y name with hsame | ⟨rfl, hother⟩
  · rw [hsame] at hlookup ⊢
    rcases exists_or_none_of_rel (h.procedures name) with ⟨q, q', hq, hq', hrel⟩ | ⟨hq, hq'⟩
    · simp only [Registry.get?, hq, hq']
      exact Or.inl ⟨_, _, rfl, rfl, .procedure hrel⟩
    · simp only [Registry.get?, hq, hq']
      cases Primitive.ofName? (Text.upperCase name) with
      | some primitive => exact Or.inl ⟨_, _, rfl, rfl, .primitive primitive⟩
      | none => simpa only using hlookup
  · have hq := Registry.get?_eq_none h.first
    have hq' : n.registry.get? y = none := by
      apply Registry.get?_eq_none
      exact (Table.contains_eq_of_rel (h.procedures y)).symm.trans h.second
    rw [hother] at hlookup ⊢
    simpa only [hq, hq', hx.primitive, hy.primitive] using hlookup

theorem set {name : Symbol} (hname : (Scope.current place).Allows y name) {v v' : Value}
    (hbodies : v.Bodies (Tame x y)) (hv : v.Replaced (p.Exchanged p' born) v') :
    MachineRenamed x y p p' born place (m.set name v)
      (n.set ((Scope.current place).counterpart x y name) v') :=
  ⟨h.holds.set name hbodies, h.environment.set hname hv, h.procedures, h.made, h.sink, h.first,
    h.second, h.born⟩

/-- The procedure that a definition makes is the same on both sides. -/
theorem define {name : Symbol} (parameters : List Symbol) {body : Value} (hbody : Tame x y body)
    (hx : name ≠ x) (hy : name ≠ y) :
    MachineRenamed x y p p' born place (m.define name parameters body)
      (n.define name parameters body) where
  holds := h.holds.define (.procedure hbody)
  environment := h.environment
  procedures := by
    apply h.procedures.insert name
    rw [Registry.fresh, Registry.fresh, h.made]
    exact .kept (Or.inr (h.made ▸ h.born))
  made := congrArg Nat.succ h.made
  sink := h.sink
  first := (Registry.contains_define_of_ne _ hx.symm _ _).trans h.first
  second := (Registry.contains_define_of_ne _ hy.symm _ _).trans h.second
  born := Nat.le_succ_of_le h.born

theorem inCall {q q' : Procedure Value} {args args' : List Value} {scope : Scope}
    (hargs : ∀ v ∈ args, v.Bodies (Tame x y))
    (hframe : FrameRenamed x y (p.Exchanged p' born) scope (Table.ofList (q.parameters.zip args))
      (Table.ofList (q'.parameters.zip args'))) :
    MachineRenamed x y p p' born (scope :: place) (Evaluation.inCall q args m)
      (Evaluation.inCall q' args' n) :=
  ⟨h.holds.inCall q hargs, ⟨h.environment.globals, .since hframe h.environment.calls⟩,
    h.procedures, h.made, h.sink, h.first, h.second, h.born⟩

theorem replaced (hplace : place = []) : m.Replaced (p.Exchanged p' born) n := by
  subst hplace
  refine ⟨h.environment.globals, ?_, h.procedures, h.made, h.sink⟩
  cases h.environment.calls with
  | before hcalls => exact hcalls

end MachineRenamed

theorem MachineRenamed.pop {x y : Symbol} {p p' : Procedure Value} {born : Nat} {scope : Scope}
    {place : List Scope} {m n : Machine}
    (h : MachineRenamed x y p p' born (scope :: place) m n) :
    MachineRenamed x y p p' born place m.pop n.pop := by
  refine ⟨h.holds.pop, ⟨h.environment.globals, ?_⟩, h.procedures, h.made, h.sink, h.first, h.second,
    h.born⟩
  obtain ⟨⟨globals, calls⟩, registry, sink, journal⟩ := m
  obtain ⟨⟨globals', calls'⟩, registry', sink', journal'⟩ := n
  cases h.environment.calls with
  | since _ outer => exact outer

namespace RenamesParameter

variable {x y : Symbol} {p p' : Procedure Value} (h : RenamesParameter x y p p') (born : Nat)

include h

theorem exchanged (q q' : Procedure Value) (hq : p.Exchanged p' born q q') :
    q.id = q'.id ∧ q.name = q'.name := by
  cases hq with
  | exchanged => exact ⟨h.renamed.id.symm, h.renamed.name.symm⟩
  | kept _ => exact ⟨rfl, rfl⟩

/-- The frames of a call of the procedure and of a call of the other. -/
theorem frameRenamed {args args' : List Value}
    (hargs : List.Forall₂ (Value.Replaced (p.Exchanged p' born)) args args')
    (hlength : args.length = p.parameters.length) :
    FrameRenamed x y (p.Exchanged p' born) .renamed (Table.ofList (p.parameters.zip args))
      (Table.ofList (p'.parameters.zip args')) where
  values name hname := by
    rw [h.renamed.parameters]
    exact Table.rel_get?_ofList_zip (Scope.renamed.Allows y) Scope.renamed.counterpart_inj _
      (fun q hq heq => h.fresh (heq ▸ hq)) hargs name hname
  bound name hname := by
    rcases Scope.renamed.counterpart_cases x y name with hsame | ⟨rfl, _⟩
    · exact absurd hsame hname
    · apply Table.contains_ofList
      rw [List.map_fst_zip (Nat.le_of_eq hlength.symm)]
      exact h.parameter

theorem call {place : List Scope} {m n : Machine} {q q' : Procedure Value}
    {args args' : List Value} (hm : MachineRenamed x y p p' born place m n)
    (hbody : Tame x y q.body) (hq : p.Exchanged p' born q q')
    (hbodies : ∀ v ∈ args, v.Bodies (Tame x y))
    (hargs : List.Forall₂ (Value.Replaced (p.Exchanged p' born)) args args')
    (hlength : args.length = q.parameters.length) :
    ∃ scope, (renamingReading x y).Code (scope :: place) q.body q'.body ∧
      MachineRenamed x y p p' born (scope :: place) (inCall q args m) (inCall q' args' n) := by
  cases hq with
  | exchanged =>
      exact ⟨.renamed, ⟨h.renamed.body, h.unmentioned, hbody⟩,
        hm.inCall hbodies (h.frameRenamed born hargs hlength)⟩
  | kept _ => exact ⟨.plain, ⟨rfl, hbody⟩, hm.inCall hbodies (.of_args q hargs)⟩

end RenamesParameter

/-- The one procedure in place of the other, everywhere. -/
def parameterRenaming {x y : Symbol} {p p' : Procedure Value} (h : RenamesParameter x y p p')
    (born : Nat) : Correspondence Unit (List Scope) where
  toReading := renamingReading x y
  Later _ _ := True
  Values _ v v' := v.Bodies (Tame x y) ∧ v.Replaced (p.Exchanged p' born) v'
  Machines place _ := MachineRenamed x y p p' born place
  refl _ := trivial
  trans _ _ := trivial
  mono _ hv := hv
  similar _ _ hv := hv.2.similar (h.exchanged born) hv.1
  number _ n := ⟨.number n, .number n⟩
  truth _ := ⟨.symbol _, .symbol _⟩
  null _ := ⟨.list fun _ hv => absurd hv List.not_mem_nil, .list .nil⟩
  pair ha hb := ⟨ha.1.pair hb.1, .list (.cons ha.2 (.cons hb.2 .nil))⟩
  tail hv := ⟨hv.1.tail, hv.2.tail⟩
  source _ := Or.inl rfl
  view {place e e'} hcode := by
    change (Scope.current place).Code x y e e' at hcode
    cases hscope : Scope.current place with
    | plain =>
        rw [hscope] at hcode
        obtain ⟨rfl, htame⟩ := hcode
        exact view_plain hscope htame
    | renamed =>
        rw [hscope] at hcode
        exact TextRenamed.view h.second hscope hcode
  lookup hm hcode := by
    obtain ⟨rfl, hallowed⟩ := Scope.counterpart_of_code hcode
    rcases hm.lookup? hallowed with ⟨v, v', hv, hv', hrel⟩ | ⟨hnone, hnone', hsame⟩
    · exact Or.inl ⟨v, v', hv, hv', hm.holds.lookup? hv, hrel⟩
    · exact Or.inr ⟨hnone, hnone', hsame.symm⟩
  named hm hname := by
    obtain ⟨rfl, hallowed⟩ := hname
    rcases hm.operatorNamed? h.first h.second hallowed with
      ⟨v, v', hv, hv', hrel⟩ | ⟨hnone, hnone', hsame⟩
    · exact Or.inl ⟨v, v', hv, hv', hm.holds.operatorNamed? .primitive hv, hrel⟩
    · exact Or.inr ⟨hnone, hnone', hsame.symm⟩
  sink hm := hm.sink
  depth hm := hm.environment.calls.length_eq
  record event event' hm := hm.record event event'
  print s hm := ⟨hm.holds.withSink s, hm.environment, hm.procedures, hm.made, rfl, hm.first,
    hm.second, hm.born⟩
  set hm hname hv := by
    obtain ⟨rfl, hallowed⟩ := hname
    exact hm.set hallowed hv.1 hv.2
  registered name hm := Table.contains_eq_of_rel (hm.procedures name)
  define {place w m n name operands parameters body body'} hm hdefinition _ := by
    obtain ⟨rfl, hbody, hx, hy⟩ := hdefinition
    exact ⟨(), trivial, ⟨.symbol name, .symbol name⟩,
      (hm.record _ _).define parameters hbody (fun heq => hx (congrArg _ heq))
        (fun heq => hy (congrArg _ heq))⟩
  parameters hp := by
    cases hp.2 with
    | procedure hq =>
        cases hq with
        | exchanged => rw [h.renamed.parameters, List.length_map]
        | kept _ => rfl
  call hm hp hargs hlength := by
    obtain ⟨hbody, hreplaced⟩ := hp
    obtain ⟨hbodies, hargs⟩ := (List.forall₂_and_left _ _).mp hargs
    cases hbody with
    | procedure hbody =>
        cases hreplaced with
        | procedure hq =>
            obtain ⟨scope, hcode, hinner⟩ := h.call born hm hbody hq hbodies hargs hlength
            exact ⟨scope :: _, hcode, hinner, fun _ _ _ _ hm' => hm'.pop⟩

/-- In a machine where the one procedure is in place of the other, a call of the one answers what a
call of the other answers: the same value or fault, sink, globals and registry, but for the one
procedure in place of the other and for renamed text in a fault. No definition may be of one of the
two names, now or later; the new name may be that of a global. -/
theorem renaming_unobservable {x y : Symbol} {p p' : Procedure Value}
    (h : RenamesParameter x y p p') {m n : Machine} {name : Symbol}
    (hp : m.registry.get? name = some p) (hx : m.registry.contains x = false)
    (hy : m.registry.contains y = false) (hbodies : m.Holds (Value.Bodies (Tame x y)))
    {args args' : List Value} (hargsBodies : ∀ v ∈ args, v.Bodies (Tame x y))
    (hmachine : m.Replaced (p.Exchanged p' m.registry.made) n)
    (hargs : List.Forall₂ (Value.Replaced (p.Exchanged p' m.registry.made)) args args')
    (limits : Limits) :
    (∀ r m', Finishes (call limits · p args) m r m' →
      ∃ r' n', Finishes (call limits · p' args') n r' n' ∧
        Result.Similar (Value.Replaced (p.Exchanged p' m.registry.made))
          (fun e e' => e' = e ∨ e.Renamed (rename x y) e') r r' ∧
        m'.Replaced (p.Exchanged p' m.registry.made) n') ∧
    ∀ r' n', Finishes (call limits · p' args') n r' n' →
      ∃ r m', Finishes (call limits · p args) m r m' ∧
        Result.Similar (Value.Replaced (p.Exchanged p' m.registry.made))
          (fun e e' => e' = e ∨ e.Renamed (rename x y) e') r r' ∧
        m'.Replaced (p.Exchanged p' m.registry.made) n' := by
  let C := parameterRenaming h m.registry.made
  have hstart : C.Machines [] () m n :=
    { holds := hbodies
      environment := ⟨hmachine.globals, .before hmachine.calls⟩
      procedures := hmachine.procedures
      made := hmachine.made
      sink := hmachine.sink
      first := hx
      second := hy
      born := Nat.le_refl _ }
  have hargs' : List.Forall₂ (C.Values ()) args args' :=
    (List.forall₂_and_left _ _).mpr ⟨hargsBodies, hargs⟩
  have hcalled : C.Values () (.procedure p) (.procedure p') :=
    ⟨hbodies.procedures name p hp, .procedure .exchanged⟩
  have hagree : ∀ fuel, C.Agree [] () C.Values (call limits fuel p args m)
      (call limits fuel p' args' n) :=
    fun fuel => (C.follows_evaluate limits fuel).callProcedure hcalled hargs' m n hstart
  constructor
  · rintro r m' ⟨fuel, hrun⟩
    obtain ⟨r', n', _, hrun', _, hresult, hend⟩ := (hagree fuel).answer_right hrun
    exact ⟨r', n', ⟨fuel, hrun'⟩, hresult.imp fun _ _ hv => hv.2, hend.replaced rfl⟩
  · rintro r' n' ⟨fuel, hrun⟩
    obtain ⟨r, m', _, hrun', _, hresult, hend⟩ := (hagree fuel).answer_left hrun
    exact ⟨r, m', ⟨fuel, hrun'⟩, hresult.imp fun _ _ hv => hv.2, hend.replaced rfl⟩

/-- `(DEFINE F (name) (CONS (SET name (+ name 7)) F))` -/
def sevenMore (name : Symbol) : Procedure Value :=
  ⟨0, "F", [name], .list [.symbol "CONS",
    .list [.symbol "SET", .symbol name, .list [.symbol "+", .symbol name, seven]], .symbol "F"]⟩

/-- `F` is defined, and there is a global `G`. -/
def withGlobal (p : Procedure Value) : Machine :=
  ⟨⟨⟨[("G", .null)]⟩, []⟩, ⟨⟨[("F", p)]⟩, 1⟩, {}, {}⟩

/-- A procedure that assigns to its parameter and returns itself, before and after the parameter is
given the name of a global. -/
theorem renaming_unobservable_sevenMore :
    RenamesParameter "X" "G" (sevenMore "X") (sevenMore "G") ∧
    Finishes (call {} · (sevenMore "X") [seven]) (withGlobal (sevenMore "X"))
      (.ok (.list [.number (.integer 14), .procedure (sevenMore "X")]))
      (withGlobal (sevenMore "X")) ∧
    ∃ r' n', Finishes (call {} · (sevenMore "G") [seven]) (withGlobal (sevenMore "G")) r' n' ∧
      Result.Similar (Value.Replaced ((sevenMore "X").Exchanged (sevenMore "G") 1))
        (fun e e' => e' = e ∨ e.Renamed (rename "X" "G") e')
        (.ok (.list [.number (.integer 14), .procedure (sevenMore "X")])) r' ∧
      (withGlobal (sevenMore "X")).Replaced ((sevenMore "X").Exchanged (sevenMore "G") 1) n' := by
  have hplus : (Value.list [.symbol "+", .symbol "X", seven]).Renamed (rename "X" "G")
      (.list [.symbol "+", .symbol "G", seven]) :=
    .call (by decide +kernel) (.symbol "+") (.cons (.symbol "X") (.cons (.number _) .nil))
  have hset : (Value.list [.symbol "SET", .symbol "X",
      .list [.symbol "+", .symbol "X", seven]]).Renamed (rename "X" "G")
      (.list [.symbol "SET", .symbol "G", .list [.symbol "+", .symbol "G", seven]]) :=
    .form (k := .assign) (by decide +kernel) (by decide) (.cons (.symbol "X") (.cons hplus .nil))
  have h : RenamesParameter "X" "G" (sevenMore "X") (sevenMore "G") :=
    { renamed :=
        { id := rfl
          name := rfl
          parameters := rfl
          body := .form (k := .pair) (by decide +kernel) (by decide)
            (.cons hset (.cons (.symbol "F") .nil)) }
      parameter := List.mem_singleton_self _
      fresh := by decide
      unmentioned := by simp [sevenMore, seven]
      first := ⟨by decide +kernel, by decide +kernel⟩
      second := ⟨by decide +kernel, by decide +kernel⟩ }
  have hbody : Tame "X" "G" (sevenMore "X").body :=
    { source := by simp [sevenMore, seven]
      first := by simp [sevenMore, seven]
      second := by simp [sevenMore, seven] }
  have hnull : Value.null.Bodies (Tame "X" "G") := .list fun _ hv => absurd hv List.not_mem_nil
  have hnothing : ∀ {α : Type} (P : α → Prop), (Table.empty : Table α).All P :=
    fun _ _ _ ha => by cases ha
  have hbodies : (withGlobal (sevenMore "X")).Holds (Value.Bodies (Tame "X" "G")) :=
    { globals := (hnothing _).insert "G" hnull
      calls := fun _ hframe => absurd hframe List.not_mem_nil
      procedures := (hnothing _).insert "F" (.procedure hbody) }
  have hmachine : (withGlobal (sevenMore "X")).Replaced
      ((sevenMore "X").Exchanged (sevenMore "G") 1) (withGlobal (sevenMore "G")) :=
    { globals := Table.corresponds_empty.insert "G" (.list .nil)
      calls := .nil
      procedures := Table.corresponds_empty.insert "F" .exchanged
      made := rfl
      sink := rfl }
  have hp : (withGlobal (sevenMore "X")).registry.get? "F" = some (sevenMore "X") := rfl
  have hrun : Finishes (call {} · (sevenMore "X") [seven]) (withGlobal (sevenMore "X"))
      (.ok (.list [.number (.integer 14), .procedure (sevenMore "X")]))
      (withGlobal (sevenMore "X")) := ⟨5, rfl⟩
  refine ⟨h, hrun, ?_⟩
  exact (renaming_unobservable h hp rfl rfl hbodies (by simpa using .number _) hmachine
    (.cons (.number _) .nil) {}).1 _ _ hrun

end PocketLisp
