import PocketLisp.Proofs.Coincidence

/-!
# What a run can change is written in its program

A run changes a variable only if an assignment to its name occurs in the expression, or in the body
of a procedure that the machine carries at the start; and an entry of the registry only if a
definition of its name occurs there. The code that runs may come from procedures kept in lists, or
from definitions made on the way, but all of it is part of that text. Whether an assignment that
occurs is ever executed is not said.
-/

namespace PocketLisp

open Evaluation

namespace Value

/-- An assignment to the name, anywhere inside. -/
inductive Assigns (name : Symbol) : Value → Prop
  | here {head e : Value} (hk : keyword? head = some .assign) :
      Assigns name (.list [head, .symbol name, e])
  | inside {elements : List Value} {e : Value} (hmem : e ∈ elements) (h : Assigns name e) :
      Assigns name (.list elements)

/-- The procedure itself, or a list with it anywhere inside. -/
inductive Carries (p : Procedure Value) : Value → Prop
  | procedure : Carries p (.procedure p)
  | inside {elements : List Value} {v : Value} (hmem : v ∈ elements) (h : Carries p v) :
      Carries p (.list elements)

theorem bodies_of_carries {P : Value → Prop} :
    (v : Value) → (∀ p, v.Carries p → P p.body) → v.Bodies P
  | .number n, _ => .number n
  | .symbol name, _ => .symbol name
  | .list vs, h => .list fun v hv => bodies_of_carries v fun p hp => h p (.inside hv hp)
  | .primitive p, _ => .primitive p
  | .procedure p, h => .procedure (h p .procedure)

theorem Carries.body {P : Value → Prop} {p : Procedure Value} {v : Value} (h : v.Carries p)
    (hv : v.Bodies P) : P p.body := by
  induction h with
  | procedure =>
      cases hv with
      | procedure hp => exact hp
  | inside hmem _ ih =>
      cases hv with
      | list all => exact ih (all _ hmem)

end Value

/-- The procedure is in the registry, or in the value of a variable: a global one or one of a call
in progress. -/
inductive Machine.Carries (p : Procedure Value) (m : Machine) : Prop
  | registered {name : Symbol} (h : m.registry.get? name = some p)
  | global {name : Symbol} {v : Value} (h : m.environment.globals.get? name = some v)
      (hv : v.Carries p)
  | inCall {frame : Frame} {name : Symbol} {v : Value} (hframe : frame ∈ m.environment.calls)
      (h : frame.get? name = some v) (hv : v.Carries p)

/-- What a machine holds, said by the procedures that it carries. -/
theorem Machine.holds_bodies {P : Value → Prop} {m : Machine} :
    m.Holds (Value.Bodies P) ↔ ∀ p, m.Carries p → P p.body := by
  constructor
  · intro h p hp
    cases hp with
    | registered hp => exact Value.Carries.procedure.body (h.procedures _ p hp)
    | global hget hv => exact hv.body (h.globals _ _ hget)
    | inCall hframe hget hv => exact hv.body (h.calls _ hframe _ _ hget)
  · intro h
    exact {
      globals := fun _ v hv => v.bodies_of_carries fun p hp => h p (.global hv hp)
      calls := fun _ hframe _ v hv => v.bodies_of_carries fun p hp => h p (.inCall hframe hv hp)
      procedures := fun _ p hp => .procedure (h p (.registered hp)) }

namespace Table

variable {α : Type} {S : Symbol → Prop} {t t' : Table α}

/-- Under all other names the second table answers what the first does. -/
def ChangedWithin (S : Symbol → Prop) (t t' : Table α) : Prop :=
  ∀ name, t'.get? name ≠ t.get? name → S name

theorem ChangedWithin.refl (S : Symbol → Prop) (t : Table α) : t.ChangedWithin S t :=
  fun _ hne => absurd rfl hne

theorem ChangedWithin.insert (h : t.ChangedWithin S t') {name : Symbol} (hname : S name) (a : α) :
    t.ChangedWithin S (t'.insert name a) := by
  intro other hne
  rw [get?_insert] at hne
  by_cases heq : other = name
  · exact heq ▸ hname
  · rw [if_neg heq] at hne
    exact h other hne

end Table

/-- Program text whose assignments and definitions are of certain names only. -/
structure TextWithin (S D : Symbol → Prop) (e : Value) : Prop where
  source : e.IsSource
  assigned : ∀ name, e.Assigns name → S name
  defined : ∀ name, e.Defines name → D name

theorem TextWithin.elements {S D : Symbol → Prop} {es : List Value}
    (h : TextWithin S D (.list es)) {e : Value} (he : e ∈ es) : TextWithin S D e where
  source := h.source.elements e he
  assigned name hname := h.assigned name (.inside he hname)
  defined name hname := h.defined name (.inside he hname)

/-- The machine carries such text only, and differs under such names only from the globals, the
registry and the frames of the start. -/
structure Machine.ChangedWithin (S D : Symbol → Prop) (globals : Frame) (registry : Registry)
    (frames : List Frame) (m : Machine) : Prop where
  holds : m.Holds (Value.Bodies (TextWithin S D))
  globals : globals.ChangedWithin S m.environment.globals
  calls : List.Forall₂ (Table.ChangedWithin S) frames m.environment.calls
  registry : registry.procedures.ChangedWithin D m.registry.procedures

namespace Machine.ChangedWithin

variable {S D : Symbol → Prop} {globals : Frame} {registry : Registry} {frames : List Frame}
  {m : Machine} (h : ChangedWithin S D globals registry frames m)

include h

theorem set {name : Symbol} (hname : S name) {v : Value} (hv : v.Bodies (TextWithin S D)) :
    ChangedWithin S D globals registry frames (m.set name v) := by
  have hholds := h.holds.set name hv
  unfold Machine.set at hholds ⊢
  rcases m.environment.set_cases name v with heq | ⟨frame, outer, hcalls, _, heq⟩
  · rw [heq] at hholds ⊢
    exact ⟨hholds, h.globals.insert hname v, h.calls, h.registry⟩
  · have hframes := h.calls
    rw [hcalls] at hframes
    obtain _ | ⟨hframe, houter⟩ := hframes
    rw [heq] at hholds ⊢
    exact ⟨hholds, h.globals, .cons (hframe.insert hname v) houter, h.registry⟩

theorem inCall (p : Procedure Value) {args : List Value}
    (hargs : ∀ v ∈ args, v.Bodies (TextWithin S D)) :
    ChangedWithin S D globals registry (Table.ofList (p.parameters.zip args) :: frames)
      (Evaluation.inCall p args m) :=
  ⟨h.holds.inCall p hargs, h.globals, .cons (.refl S _) h.calls, h.registry⟩

end Machine.ChangedWithin

theorem Machine.ChangedWithin.pop {S D : Symbol → Prop} {globals frame : Frame}
    {registry : Registry} {frames : List Frame} {m : Machine}
    (h : ChangedWithin S D globals registry (frame :: frames) m) :
    ChangedWithin S D globals registry frames m.pop := by
  obtain ⟨frame', outer, _, houter, hcalls⟩ := List.forall₂_cons_left_iff.mp h.calls
  refine ⟨h.holds.pop, h.globals, ?_, h.registry⟩
  show List.Forall₂ _ frames m.environment.calls.tail
  rw [hcalls]
  exact houter

/-- One run, in which whatever assigns or defines is part of the text known at the start. -/
def footprint (S D : Symbol → Prop) (globals : Frame) (registry : Registry) :
    Coincidence (List Frame) where
  Code := TextWithin S D
  Machines frames m n := m.Twin n ∧ n.ChangedWithin S D globals registry frames
  source he := he.source
  parts {e part} he hpart := by
    cases e with
    | list elements => exact he.elements (Value.mem_elements_of_parts hpart)
    | _ => cases hpart
  holds hm := hm.2.holds
  lookup hm _ := hm.1.lookup? _
  named hm _ _ := hm.1.operatorNamed? _
  registry hm := hm.1.registry
  sink hm := hm.1.sink
  depth hm := congrArg Environment.depth hm.1.environment
  record event event' hm :=
    ⟨hm.1.record event event',
      ⟨hm.2.holds.record event', hm.2.globals, hm.2.calls, hm.2.registry⟩⟩
  print s hm :=
    ⟨hm.1.withSink s, ⟨hm.2.holds.withSink s, hm.2.globals, hm.2.calls, hm.2.registry⟩⟩
  set {frames m n head name e v} hm hk hcode hv := by
    have hname : S name := hcode.assigned name (.here hk)
    exact ⟨hm.1.set name v, hm.2.set hname hv⟩
  define {frames m n head name operands parameters body} hm hk hcode _ hbody := by
    have hname : D name := hcode.defined name (.here hk)
    exact ⟨hm.1.define name parameters body, hm.2.holds.define (.procedure hbody), hm.2.globals,
      hm.2.calls, hm.2.registry.insert hname _⟩
  call p hm hargs :=
    ⟨_, ⟨hm.1.inCall p _, hm.2.inCall p hargs⟩, fun _ _ hm' => ⟨hm'.1.pop, hm'.2.pop⟩⟩

/-- The value of a name in the innermost call. -/
def Environment.inner? (env : Environment) (name : Symbol) : Option Value :=
  env.calls.head?.bind (·.get? name)

/-- The text that can run: the expression, and the bodies of the procedures that the machine
carries. -/
def Machine.InText (P : Value → Prop) (m : Machine) (e : Value) : Prop :=
  P e ∨ ∃ p, m.Carries p ∧ P p.body

/-- A variable is changed only where an assignment to its name occurs in the text that can run, a
definition only where a definition of its name does. -/
theorem changes_written_in_text {limits : Limits} {e : Value} (he : e.IsSource) {m m' : Machine}
    (hm : ∀ p, m.Carries p → p.body.IsSource) {r : Except Fault Value}
    (h : Finishes (evaluate limits · e) m r m') :
    (∀ name, m'.environment.globals.get? name ≠ m.environment.globals.get? name ∨
        m'.environment.inner? name ≠ m.environment.inner? name →
      m.InText (Value.Assigns name) e) ∧
    ∀ name, m'.registry.get? name ≠ m.registry.get? name → m.InText (Value.Defines name) e := by
  let S := fun name => m.InText (Value.Assigns name) e
  let D := fun name => m.InText (Value.Defines name) e
  have hcode : TextWithin S D e := ⟨he, fun _ hname => Or.inl hname, fun _ hname => Or.inl hname⟩
  have hbodies : ∀ p, m.Carries p → TextWithin S D p.body :=
    fun p hp => ⟨hm p hp, fun _ hname => Or.inr ⟨p, hp, hname⟩, fun _ hname => Or.inr ⟨p, hp, hname⟩⟩
  have hstart : m.ChangedWithin S D m.environment.globals m.registry m.environment.calls :=
    { holds := Machine.holds_bodies.mpr hbodies
      globals := .refl S _
      calls := List.forall₂_same.mpr fun frame _ => .refl S frame
      registry := .refl D _ }
  obtain ⟨n', _, htwin, hend⟩ :=
    Coincidence.finishes_right (C := footprint S D m.environment.globals m.registry)
      (n := m) ⟨⟨rfl, rfl, rfl⟩, hstart⟩ hcode h
  rw [htwin.environment, htwin.registry]
  refine ⟨?_, hend.registry⟩
  intro name hchanged
  rcases hchanged with hglobal | hinner
  · exact hend.globals name hglobal
  · have hcalls := hend.calls
    unfold Environment.inner? at hinner
    generalize m.environment.calls = calls, n'.environment.calls = calls' at hinner hcalls
    cases hcalls with
    | nil => exact absurd rfl hinner
    | cons hframe _ => exact hframe name hinner

/-- `(DEFINE P () (BEGIN (SET Y 7) (DEFINE F () 7)))` -/
def busyBody : Procedure Value :=
  ⟨0, "P", [], .list [.symbol "BEGIN", .list [.symbol "SET", .symbol "Y", seven],
    .list [.symbol "DEFINE", .symbol "F", .list [], seven]]⟩

/-- The procedure is nowhere but in a list, which is the value of the global `L`. -/
def keepsInList : Machine :=
  ⟨⟨⟨[("L", .list [.procedure busyBody])]⟩, [⟨[("X", .null)]⟩]⟩, .empty, {}, {}⟩

/-- `((CAR L))` -/
def callFirst : Value :=
  .list [.list [.symbol "CAR", .symbol "L"]]

/-- The call of a procedure taken from a list assigns and defines: its text is in the list. -/
theorem changes_written_in_text_keepsInList :
    callFirst.IsSource ∧ (∀ p, keepsInList.Carries p → p.body.IsSource) ∧
    ∃ m', Finishes (evaluate {} · callFirst) keepsInList (.ok (.symbol "F")) m' ∧
      m'.environment.globals.get? "Y" ≠ keepsInList.environment.globals.get? "Y" ∧
      m'.registry.get? "F" ≠ keepsInList.registry.get? "F" ∧
      keepsInList.InText (Value.Assigns "Y") callFirst ∧
      keepsInList.InText (Value.Defines "F") callFirst := by
  have he : callFirst.IsSource := by simp [callFirst]
  have hbusy : busyBody.body.IsSource := by simp [busyBody, seven]
  have hlist : (Value.list [.procedure busyBody]).Bodies Value.IsSource :=
    .list (List.forall_mem_singleton.mpr (.procedure hbusy))
  have hm : ∀ p, keepsInList.Carries p → p.body.IsSource :=
    Machine.holds_bodies.mp
      { globals := Table.all_empty.insert "L" hlist
        calls := List.forall_mem_singleton.mpr (Table.all_empty.insert "X" .null)
        procedures := Table.all_empty }
  have hrun : Finishes (evaluate {} · callFirst) keepsInList (.ok (.symbol "F"))
      ((keepsInList.set "Y" seven).define "F" [] seven) := ⟨6, rfl⟩
  obtain ⟨hvariables, hdefinitions⟩ := changes_written_in_text he hm hrun
  have hY : ((keepsInList.set "Y" seven).define "F" [] seven).environment.globals.get? "Y" ≠
      keepsInList.environment.globals.get? "Y" := nofun
  have hF : ((keepsInList.set "Y" seven).define "F" [] seven).registry.get? "F" ≠
      keepsInList.registry.get? "F" := nofun
  exact ⟨he, hm, _, hrun, hY, hF, hvariables "Y" (Or.inl hY), hdefinitions "F" hF⟩

end PocketLisp
