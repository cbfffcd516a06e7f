import PocketLisp.Proofs.Lockstep
import PocketLisp.Proofs.Replacement

/-!
# The spelling of keywords and primitives

Keywords are recognised in any mixture of cases, and before everything else. Primitives are too, but
after the registry, in which the case of a name counts. So the heads of lists may be spelled
otherwise in a program and in all procedures that a machine holds, if nothing is defined under a
name that spells a primitive in one of the two ways. Where a list is not code, in the target of an
assignment and in the name and the parameters of a definition, every letter counts.
-/

namespace PocketLisp

open Evaluation

/-- The operands that a special form takes as they are written, before those that it evaluates. -/
def Keyword.quoted : Keyword → Nat
  | .assign => 1
  | .define => 2
  | _ => 0

/-- The first `n` operands are the same, the others correspond. -/
inductive Operands (P : Value → Value → Prop) : Nat → List Value → List Value → Prop
  | nil (n : Nat) : Operands P n [] []
  | quoted {n : Nat} {e : Value} {es es' : List Value} (rest : Operands P n es es') :
      Operands P (n + 1) (e :: es) (e :: es')
  | evaluated {e e' : Value} {es es' : List Value} (first : P e e') (rest : Operands P 0 es es') :
      Operands P 0 (e :: es) (e' :: es')

namespace Operands

variable {P Q : Value → Value → Prop} {n : Nat} {es es' : List Value}

theorem length_eq (h : Operands P n es es') : es.length = es'.length := by
  induction h with
  | nil _ => rfl
  | quoted _ ih => exact congrArg Nat.succ ih
  | evaluated _ _ ih => exact congrArg Nat.succ ih

theorem imp (h : Operands P n es es') (himp : ∀ e ∈ es, ∀ e' ∈ es', P e e' → Q e e') :
    Operands Q n es es' := by
  induction h with
  | nil n => exact .nil n
  | quoted _ ih =>
      exact .quoted (ih fun e he e' he' =>
        himp e (List.mem_cons_of_mem _ he) e' (List.mem_cons_of_mem _ he'))
  | evaluated first _ ih =>
      refine .evaluated (himp _ List.mem_cons_self _ List.mem_cons_self first) ?_
      exact ih fun e he e' he' => himp e (List.mem_cons_of_mem _ he) e' (List.mem_cons_of_mem _ he')

theorem forall₂ (h : Operands P n es es') (hn : n = 0) : List.Forall₂ P es es' := by
  induction h with
  | nil _ => exact .nil
  | quoted _ _ => cases hn
  | evaluated first _ ih => exact .cons first (ih rfl)

end Operands

namespace Value

/-- The second text is the first with other spellings of keywords and primitives at the heads of
lists; of primitives only as `free` names. -/
inductive Respelled (free : Symbol → Prop) : Value → Value → Prop
  | number (n : Number) : Respelled free (.number n) (.number n)
  | symbol (name : Symbol) : Respelled free (.symbol name) (.symbol name)
  | empty : Respelled free (.list []) (.list [])
  | form {k : Keyword} {head head' : Value} {operands operands' : List Value}
      (hk : keyword? head = some k) (hk' : keyword? head' = some k)
      (hoperands : Operands (Respelled free) k.quoted operands operands') :
      Respelled free (.list (head :: operands)) (.list (head' :: operands'))
  | primitive {p : Primitive} {name name' : Symbol} {operands operands' : List Value}
      (hname : Primitive.ofName? (Text.upperCase name) = some p)
      (hname' : Primitive.ofName? (Text.upperCase name') = some p) (hfree : free name)
      (hfree' : free name') (hoperands : Operands (Respelled free) 0 operands operands') :
      Respelled free (.list (.symbol name :: operands)) (.list (.symbol name' :: operands'))
  | call {head head' : Value} {operands operands' : List Value} (hk : keyword? head = none)
      (hhead : Respelled free head head')
      (hoperands : Operands (Respelled free) 0 operands operands') :
      Respelled free (.list (head :: operands)) (.list (head' :: operands'))

end Value

/-- Two spellings of a text, neither of which defines a `free` name. -/
structure Respelling (free : Symbol → Prop) (e e' : Value) : Prop where
  respelled : e.Respelled free e'
  undefined : ∀ name, free name → ¬ e.Defines name
  undefined' : ∀ name, free name → ¬ e'.Defines name

/-- The same procedure, with two spellings of its body. -/
structure Procedure.Respelled (free : Symbol → Prop) (p p' : Procedure Value) : Prop where
  id : p.id = p'.id
  name : p.name = p'.name
  parameters : p.parameters = p'.parameters
  body : Respelling free p.body p'.body

/-- The machines are the same but for the spelling of the bodies of procedures, and no procedure is
registered under a `free` name. -/
structure Machine.Respelled (free : Symbol → Prop) (m n : Machine) : Prop
    extends Machine.Replaced (Procedure.Respelled free) m n where
  unregistered : ∀ name, free name → m.registry.contains name = false

/-- Different names stand for the same operator only if both spell one primitive. -/
def spellingReading (free : Symbol → Prop) : Reading Unit where
  Code _ := Respelling free
  Named _ name name' := name' = name ∨ (free name ∧ free name' ∧
    ∃ p, Primitive.ofName? (Text.upperCase name) = some p ∧
      Primitive.ofName? (Text.upperCase name') = some p)
  Target _ name name' := name' = name
  Definition _ name _ body body' := Respelling free body body' ∧
    ∀ other, free other → name ≠ .symbol other
  Source := Eq

namespace Respelling

variable {free : Symbol → Prop} {e e' : Value}

theorem elements {es es' : List Value} (h : Respelling free (.list es) (.list es')) (he : e ∈ es)
    (he' : e' ∈ es') (hrespelled : e.Respelled free e') : Respelling free e e' where
  respelled := hrespelled
  undefined name hname hdefines := h.undefined name hname (.inside he hdefines)
  undefined' name hname hdefines := h.undefined' name hname (.inside he' hdefines)

theorem operands {head head' : Value} {operands operands' : List Value} {n : Nat}
    (h : Respelling free (.list (head :: operands)) (.list (head' :: operands')))
    (hoperands : Operands (Value.Respelled free) n operands operands') :
    Operands (Respelling free) n operands operands' :=
  hoperands.imp fun _ he _ he' hrespelled =>
    h.elements (List.mem_cons_of_mem _ he) (List.mem_cons_of_mem _ he') hrespelled

theorem heads (h : Respelling free e e') (hk : keyword? e = none) :
    keyword? e' = none ∧ (spellingReading free).Heads () e e' := by
  cases h.respelled with
  | symbol name => exact ⟨hk, .named (Or.inl rfl)⟩
  | _ => exact ⟨rfl, .computed rfl rfl h⟩

/-- A special form, with what it takes as it is written left alone. -/
theorem forms {k : Keyword} {head head' : Value} {operands operands' : List Value} {form : Form}
    (hk : keyword? head = some k)
    (h : Respelling free (.list (head :: operands)) (.list (head' :: operands')))
    (hoperands : Operands (Respelling free) k.quoted operands operands')
    (hform : Form.ofOperands? k operands = some form) :
    ∃ form', Form.ofOperands? k operands' = some form' ∧
      (spellingReading free).Forms () form form' := by
  by_cases hassign : k = .assign
  · subst hassign
    obtain ⟨target, expression, rfl, rfl⟩ := Form.exists_of_assign hform
    obtain _ | ⟨_ | _ | ⟨hexpression, ⟨⟩⟩⟩ := hoperands
    refine ⟨_, rfl, .assign ?_ hexpression⟩
    cases target with
    | symbol name => exact .symbol rfl
    | _ => exact .other rfl rfl rfl
  · by_cases hdefine : k = .define
    · subst hdefine
      obtain ⟨name, parameters, body, rfl, rfl⟩ := Form.exists_of_define hform
      obtain _ | ⟨_ | ⟨_ | _ | ⟨hbody, ⟨⟩⟩⟩⟩ := hoperands
      refine ⟨_, rfl, .define ⟨hbody, ?_⟩⟩
      intro other hother hname
      subst hname
      exact h.undefined other hother (.here hk)
    · have hquoted : k.quoted = 0 := by
        cases k <;> simp_all [Keyword.quoted]
      exact Reading.forms_of_forall₂ hdefine id (fun heq => absurd heq hassign) hform
        (hoperands.forall₂ hquoted)

theorem view (h : Respelling free e e') : (spellingReading free).View () e e' := by
  cases h.respelled with
  | number n => exact .number n
  | symbol name => exact .symbol
  | empty => exact .empty
  | @form k head head' operands operands' hk hk' hoperands =>
      cases hform : Form.ofOperands? k operands with
      | none => exact .refused hk hk' hform hoperands.length_eq
      | some form =>
          obtain ⟨form', hform', hforms⟩ := forms hk h (h.operands hoperands) hform
          exact .form hk hk' hform hform' hforms
  | @primitive p name name' operands operands' hname hname' hfree hfree' hoperands =>
      exact .call (keyword?_of_primitive hname) (keyword?_of_primitive hname')
        (.named (Or.inr ⟨hfree, hfree', p, hname, hname'⟩)) ((h.operands hoperands).forall₂ rfl)
  | call hk hhead hoperands =>
      have hhead := h.elements List.mem_cons_self List.mem_cons_self hhead
      obtain ⟨hk', hheads⟩ := hhead.heads hk
      exact .call hk hk' hheads ((h.operands hoperands).forall₂ rfl)

end Respelling

namespace Machine.Respelled

variable {free : Symbol → Prop} {m n : Machine} (h : m.Respelled free n)

include h

theorem get?_eq_none {name : Symbol} (hname : free name) :
    m.registry.get? name = none ∧ n.registry.get? name = none := by
  have hcontains := h.unregistered name hname
  have hsame := Table.contains_eq_of_rel (h.procedures name)
  exact ⟨Registry.get?_eq_none hcontains, Registry.get?_eq_none (hsame.symm.trans hcontains)⟩

/-- A `free` name that spells a primitive stands for it: the registry does not have the name. -/
theorem operatorNamed?_of_free {name name' : Symbol} {p : Primitive}
    (hname : Primitive.ofName? (Text.upperCase name) = some p)
    (hname' : Primitive.ofName? (Text.upperCase name') = some p) (hfree : free name)
    (hfree' : free name') :
    Evaluation.operatorNamed? m name = some (.primitive p) ∧
      Evaluation.operatorNamed? n name' = some (.primitive p) := by
  unfold Evaluation.operatorNamed?
  rw [(h.get?_eq_none hfree).1, (h.get?_eq_none hfree').2, hname, hname']
  exact ⟨rfl, rfl⟩

theorem define {name : Symbol} (hname : ∀ other, free other → name ≠ other)
    (parameters : List Symbol) {body body' : Value} (hbody : Respelling free body body') :
    (m.define name parameters body).Respelled free (n.define name parameters body') where
  toReplaced := h.toReplaced.define ⟨h.made, rfl, rfl, hbody⟩
  unregistered other hother :=
    (Registry.contains_define_of_ne _ (hname other hother).symm _ _).trans
      (h.unregistered other hother)

end Machine.Respelled

/-- The same program in two spellings. -/
def respelling (free : Symbol → Prop) : Correspondence Unit Unit where
  toReading := spellingReading free
  Later _ _ := True
  Values _ := Value.Replaced (Procedure.Respelled free)
  Machines _ _ := Machine.Respelled free
  refl _ := trivial
  trans _ _ := trivial
  mono _ hv := hv
  similar v v' hv := by
    cases hv with
    | number n => exact .number n
    | symbol name => exact .symbol name
    | list elements => exact .list elements
    | primitive p => exact .primitive p
    | procedure hp => exact .procedure hp.id hp.name
  number _ n := .number n
  truth _ := .symbol _
  null _ := .list .nil
  pair ha hb := .list (.cons ha (.cons hb .nil))
  tail hv := hv.tail
  source _ := rfl
  view hcode := hcode.view
  lookup {_ _ m n name name'} hm hcode := by
    obtain rfl : name' = name := by
      cases hcode.respelled
      rfl
    rcases exists_or_none_of_rel (hm.lookup? name') with hv | hnone
    · exact Or.inl hv
    · exact Or.inr ⟨hnone.1, hnone.2, rfl⟩
  named {_ _ m n name name'} hm hname := by
    rcases hname with rfl | ⟨hfree, hfree', p, hp, hp'⟩
    · rcases exists_or_none_of_rel (hm.operatorNamed? name') with hv | hnone
      · exact Or.inl hv
      · exact Or.inr ⟨hnone.1, hnone.2, rfl⟩
    · obtain ⟨hv, hv'⟩ := hm.operatorNamed?_of_free hp hp' hfree hfree'
      exact Or.inl ⟨_, _, hv, hv', .primitive p⟩
  sink hm := hm.sink
  depth hm := hm.calls.length_eq
  record event event' hm := ⟨hm.toReplaced.record event event', hm.unregistered⟩
  print s hm := ⟨hm.toReplaced.withSink s, hm.unregistered⟩
  set {_ _ m n name name' v v'} hm hname hv := by
    cases hname
    exact ⟨hm.toReplaced.set name hv, hm.unregistered⟩
  registered name hm := Table.contains_eq_of_rel (hm.procedures name)
  define {_ w m n name operands parameters body body'} hm hdefinition _ := by
    obtain ⟨hbody, hname⟩ := hdefinition
    have hrecorded : (m.record (.defining (m.registry.fresh name parameters body))).Respelled free
        (n.record (.defining (n.registry.fresh name parameters body'))) :=
      ⟨hm.toReplaced.record _ _, hm.unregistered⟩
    have hne : ∀ other, free other → name ≠ other :=
      fun other hother heq => hname other hother (congrArg _ heq)
    exact ⟨(), trivial, .symbol name, hrecorded.define hne parameters hbody⟩
  parameters hp := by
    cases hp with
    | procedure hq => rw [hq.parameters]
  call hm hp hargs _ := by
    cases hp with
    | procedure hq =>
        exact ⟨(), hq.body, ⟨hm.toReplaced.inCall hq.parameters hargs, hm.unregistered⟩,
          fun _ _ _ _ hm' => ⟨hm'.toReplaced.pop, hm'.unregistered⟩⟩

/-- Two spellings of a program finish alike on machines that hold two spellings of their
procedures: with the same value or fault, but for the spelling of procedures in it, and on machines
of this kind again. -/
theorem spelling_unobservable {free : Symbol → Prop} {e e' : Value} (he : Respelling free e e')
    {m n : Machine} (hm : m.Respelled free n) (limits : Limits) :
    (∀ r m', Finishes (evaluate limits · e) m r m' →
      ∃ r' n', Finishes (evaluate limits · e') n r' n' ∧
        Result.Similar (Value.Replaced (Procedure.Respelled free)) Eq r r' ∧
        m'.Respelled free n') ∧
    ∀ r' n', Finishes (evaluate limits · e') n r' n' →
      ∃ r m', Finishes (evaluate limits · e) m r m' ∧
        Result.Similar (Value.Replaced (Procedure.Respelled free)) Eq r r' ∧
        m'.Respelled free n' := by
  have hcode : (respelling free).Code () e e' := he
  have hstart : (respelling free).Machines () () m n := hm
  constructor
  · intro r m' h
    obtain ⟨r', n', _, hrun, hresult, hend⟩ := Correspondence.finishes_right hcode hstart h
    exact ⟨r', n', hrun, hresult, hend⟩
  · intro r' n' h
    obtain ⟨r, m', _, hrun, hresult, hend⟩ := Correspondence.finishes_left hcode hstart h
    exact ⟨r, m', hrun, hresult, hend⟩

/-- `(BEGIN (DEFINE G () (ABS 7)) (F))`, with the given spellings. -/
def definesThenCalls (sequence define absolute : Symbol) : Value :=
  .list [.symbol sequence,
    .list [.symbol define, .symbol "G", .list [], .list [.symbol absolute, seven]],
    .list [.symbol "F"]]

/-- `(DEFINE F () (CONS 7 F))`, with the given spelling of `CONS`. -/
def pairsItself (pair : Symbol) : Procedure Value :=
  ⟨0, "F", [], .list [.symbol pair, seven, .symbol "F"]⟩

def knowsF (pair : Symbol) : Machine :=
  ⟨⟨⟨[]⟩, []⟩, ⟨⟨[("F", pairsItself pair)]⟩, 1⟩, {}, {}⟩

/-- The spellings that differ, of two primitives. -/
def spellings : List Symbol :=
  ["begin", "BEGIN", "abs", "Abs"]

/-- A program that defines a procedure and calls one that returns itself in a list, with two
spellings of everything that can have two. -/
theorem spelling_unobservable_definesThenCalls :
    Respelling (· ∈ spellings) (definesThenCalls "begin" "define" "abs")
      (definesThenCalls "BEGIN" "Define" "Abs") ∧
    (knowsF "cons").Respelled (· ∈ spellings) (knowsF "CONS") ∧
    ∃ m', Finishes (evaluate {} · (definesThenCalls "begin" "define" "abs")) (knowsF "cons")
        (.ok (.list [seven, .procedure (pairsItself "cons")])) m' ∧
      ∃ r' n', Finishes (evaluate {} · (definesThenCalls "BEGIN" "Define" "Abs")) (knowsF "CONS")
          r' n' ∧
        Result.Similar (Value.Replaced (Procedure.Respelled (· ∈ spellings))) Eq
          (.ok (.list [seven, .procedure (pairsItself "cons")])) r' ∧
        m'.Respelled (· ∈ spellings) n' := by
  have hbody : (Value.list [.symbol "abs", seven]).Respelled (· ∈ spellings)
      (.list [.symbol "Abs", seven]) :=
    .primitive (p := .abs) (by decide +kernel) (by decide +kernel) (by decide) (by decide)
      (.evaluated (.number _) (.nil 0))
  have hdefinition : (Value.list [.symbol "define", .symbol "G", .list [],
      .list [.symbol "abs", seven]]).Respelled (· ∈ spellings)
      (.list [.symbol "Define", .symbol "G", .list [], .list [.symbol "Abs", seven]]) :=
    .form (k := .define) (by decide +kernel) (by decide +kernel)
      (.quoted (.quoted (.evaluated hbody (.nil 0))))
  have hcall : (Value.list [.symbol "F"]).Respelled (· ∈ spellings) (.list [.symbol "F"]) :=
    .call (by decide +kernel) (.symbol "F") (.nil 0)
  have hprogram : (definesThenCalls "begin" "define" "abs").Respelled (· ∈ spellings)
      (definesThenCalls "BEGIN" "Define" "Abs") :=
    .primitive (p := .sequence) (by decide +kernel) (by decide +kernel) (by decide) (by decide)
      (.evaluated hdefinition (.evaluated hcall (.nil 0)))
  have hdefines : ∀ sequence define absolute name, name ∈ spellings →
      ¬ (definesThenCalls sequence define absolute).Defines name := by
    intro sequence define absolute name hname hdefines
    have hG : "G" = name ∧ keyword? (.symbol define) = some .define := by
      simpa [definesThenCalls, seven] using hdefines
    exact absurd (hG.1 ▸ hname) (by decide)
  have he : Respelling (· ∈ spellings) (definesThenCalls "begin" "define" "abs")
      (definesThenCalls "BEGIN" "Define" "Abs") :=
    ⟨hprogram, hdefines "begin" "define" "abs", hdefines "BEGIN" "Define" "Abs"⟩
  have hpair : Respelling (· ∈ spellings) (pairsItself "cons").body (pairsItself "CONS").body :=
    { respelled := .form (k := .pair) (by decide +kernel) (by decide +kernel)
        (.evaluated (.number _) (.evaluated (.symbol "F") (.nil 0)))
      undefined := by simp [pairsItself, seven]
      undefined' := by simp [pairsItself, seven] }
  have hm : (knowsF "cons").Respelled (· ∈ spellings) (knowsF "CONS") :=
    { globals := Table.corresponds_empty
      calls := .nil
      procedures := Table.corresponds_empty.insert "F" ⟨rfl, rfl, rfl, hpair⟩
      made := rfl
      sink := rfl
      unregistered := by decide }
  have hrun : Finishes (evaluate {} · (definesThenCalls "begin" "define" "abs")) (knowsF "cons")
      (.ok (.list [seven, .procedure (pairsItself "cons")]))
      ((knowsF "cons").define "G" [] (.list [.symbol "abs", seven])) := ⟨5, rfl⟩
  exact ⟨he, hm, _, hrun, (spelling_unobservable he hm {}).1 _ _ hrun⟩

end PocketLisp
