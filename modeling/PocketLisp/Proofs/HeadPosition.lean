import Mathlib.Logic.Relation
import PocketLisp.Proofs.Footprint

/-!
# No variable captures a keyword or a primitive

The head of a list is looked up among the keywords first, then in the registry, then among the
primitives, and only then among the variables. A name that stands in the program as such a head
only may therefore have any value as a global variable, or none: no run can tell. Neither does any
run change that value.
-/

namespace PocketLisp

open Evaluation

namespace Value

/-- The part is the expression itself, or something that is evaluated along with it: at once, or in
calls of a procedure that is defined in it. -/
def Evaluates (e part : Value) : Prop :=
  Relation.ReflTransGen (fun e part => part ∈ e.parts) e part

theorem Evaluates.of_parts {e part sub : Value} (hpart : part ∈ e.parts) (h : part.Evaluates sub) :
    e.Evaluates sub :=
  Relation.ReflTransGen.head hpart h

/-- Program text in which a name is not a variable: it is neither evaluated nor assigned to, and
where it is the head of a list it spells a keyword or a primitive. -/
structure Spares (x : Symbol) (e : Value) : Prop where
  source : e.IsSource
  unread : ¬ e.Evaluates (.symbol x)
  unassigned : ∀ head value, e.Evaluates (.list [head, .symbol x, value]) →
    keyword? head ≠ some .assign
  head : ∀ operands, e.Evaluates (.list (.symbol x :: operands)) →
    (keyword? (.symbol x)).isSome ∨ (Primitive.ofName? (Text.upperCase x)).isSome

theorem Spares.parts {x : Symbol} {e part : Value} (h : e.Spares x) (hpart : part ∈ e.parts) :
    part.Spares x where
  source := by
    cases e with
    | list elements => exact h.source.elements part (mem_elements_of_parts hpart)
    | _ => cases hpart
  unread hread := h.unread (.of_parts hpart hread)
  unassigned head value hset := h.unassigned head value (.of_parts hpart hset)
  head operands hlist := h.head operands (.of_parts hpart hlist)

/-- What is to be checked of an expression whose parts spare the name. -/
theorem Spares.of_parts {x : Symbol} {e : Value} (hsource : e.IsSource) (hne : e ≠ .symbol x)
    (hset : ∀ head value, e = .list [head, .symbol x, value] → keyword? head ≠ some .assign)
    (hhead : ∀ operands, e = .list (.symbol x :: operands) →
      (keyword? (.symbol x)).isSome ∨ (Primitive.ofName? (Text.upperCase x)).isSome)
    (hparts : ∀ part ∈ e.parts, part.Spares x) : e.Spares x where
  source := hsource
  unread hread := by
    rcases Relation.ReflTransGen.cases_head hread with heq | ⟨part, hpart, hrest⟩
    · exact hne heq
    · exact (hparts part hpart).unread hrest
  unassigned head value hread := by
    rcases Relation.ReflTransGen.cases_head hread with heq | ⟨part, hpart, hrest⟩
    · exact hset head value heq
    · exact (hparts part hpart).unassigned head value hrest
  head operands hread := by
    rcases Relation.ReflTransGen.cases_head hread with heq | ⟨part, hpart, hrest⟩
    · exact hhead operands heq
    · exact (hparts part hpart).head operands hrest

theorem Spares.call {x name : Symbol} {operands : List Value}
    (hk : keyword? (.symbol name) = none)
    (hname : name = x → (Primitive.ofName? (Text.upperCase name)).isSome)
    (hoperands : ∀ e ∈ operands, e.Spares x) : (Value.list (.symbol name :: operands)).Spares x := by
  refine .of_parts ?_ (by simp) ?_ ?_ ?_
  · simpa using fun e he => (hoperands e he).source
  · intro head value heq hassign
    cases heq
    rw [hk] at hassign
    cases hassign
  · intro rest heq
    cases heq
    exact Or.inr (hname rfl)
  · intro part hpart
    simp only [Value.parts, hk, isSymbol, if_true] at hpart
    exact hoperands part hpart

end Value

namespace Machine

structure SameBut (x : Symbol) (m n : Machine) : Prop where
  globals : ∀ name, name ≠ x →
    m.environment.globals.get? name = n.environment.globals.get? name
  calls : m.environment.calls = n.environment.calls
  registry : m.registry = n.registry
  sink : m.sink = n.sink

namespace SameBut

variable {x : Symbol} {m n k : Machine}

theorem symm (h : m.SameBut x n) : n.SameBut x m :=
  ⟨fun name hne => (h.globals name hne).symm, h.calls.symm, h.registry.symm, h.sink.symm⟩

theorem trans (h : m.SameBut x n) (h' : n.SameBut x k) : m.SameBut x k :=
  ⟨fun name hne => (h.globals name hne).trans (h'.globals name hne), h.calls.trans h'.calls,
    h.registry.trans h'.registry, h.sink.trans h'.sink⟩

theorem lookup? (h : m.SameBut x n) {name : Symbol} (hne : name ≠ x) :
    m.lookup? name = n.lookup? name := by
  have henv : m.environment.get? name = n.environment.get? name := by
    unfold Environment.get?
    rw [h.calls, h.globals name hne]
  unfold Machine.lookup?
  rw [henv, h.registry]

/-- A name that spells a primitive is not looked up among the variables. -/
theorem operatorNamed? (h : m.SameBut x n) {name : Symbol}
    (hname : name = x → (Primitive.ofName? (Text.upperCase name)).isSome) :
    Evaluation.operatorNamed? m name = Evaluation.operatorNamed? n name := by
  unfold Evaluation.operatorNamed?
  rw [h.registry]
  by_cases heq : name = x
  · obtain ⟨p, hp⟩ := Option.isSome_iff_exists.mp (hname heq)
    rw [hp]
  · rw [h.lookup? heq]

theorem set (h : m.SameBut x n) (name : Symbol) (v : Value) :
    (m.set name v).SameBut x (n.set name v) := by
  have hglobals : ∀ other, other ≠ x → (m.environment.globals.insert name v).get? other =
      (n.environment.globals.insert name v).get? other := by
    intro other hne
    rw [Table.get?_insert, Table.get?_insert, h.globals other hne]
  obtain ⟨⟨globals, calls⟩, registry, sink, journal⟩ := m
  obtain ⟨⟨globals', calls'⟩, registry', sink', journal'⟩ := n
  obtain rfl : calls = calls' := h.calls
  cases calls with
  | nil => exact ⟨hglobals, rfl, h.registry, h.sink⟩
  | cons frame outer =>
      by_cases hcontains : frame.contains name = true
      · simp only [Machine.set, Environment.set, hcontains, if_true]
        exact ⟨h.globals, rfl, h.registry, h.sink⟩
      · simp only [Machine.set, Environment.set, hcontains]
        exact ⟨hglobals, rfl, h.registry, h.sink⟩

theorem define (h : m.SameBut x n) (name : Symbol) (parameters : List Symbol) (body : Value) :
    (m.define name parameters body).SameBut x (n.define name parameters body) :=
  ⟨h.globals, h.calls, congrArg (Registry.define · name parameters body) h.registry, h.sink⟩

theorem inCall (h : m.SameBut x n) (p : Procedure Value) (args : List Value) :
    (Evaluation.inCall p args m).SameBut x (Evaluation.inCall p args n) :=
  ⟨h.globals, congrArg (_ :: ·) h.calls, h.registry, h.sink⟩

theorem pop (h : m.SameBut x n) : m.pop.SameBut x n.pop :=
  ⟨h.globals, congrArg List.tail h.calls, h.registry, h.sink⟩

end SameBut

/-- An assignment to one name leaves the globals of the other names. -/
theorem global_set_of_ne (m : Machine) {x name : Symbol} (hne : x ≠ name) (v : Value) :
    (m.set name v).environment.globals.get? x = m.environment.globals.get? x := by
  show (m.environment.set name v).globals.get? x = _
  rcases m.environment.set_cases name v with heq | ⟨frame, outer, _, _, heq⟩
  · rw [heq]
    show (m.environment.globals.insert name v).get? x = _
    rw [Table.get?_insert, if_neg hne]
  · rw [heq]

/-- The machine with an empty list as the global variable. It carries what the machine carries
elsewhere than in that variable. -/
def cleared (x : Symbol) (m : Machine) : Machine :=
  { m with environment := { m.environment with
      globals := m.environment.globals.insert x .null } }

theorem sameBut_cleared (x : Symbol) (m : Machine) : m.SameBut x (m.cleared x) where
  globals name hne := by
    show _ = (m.environment.globals.insert x .null).get? name
    rw [Table.get?_insert, if_neg hne]
  calls := rfl
  registry := rfl
  sink := rfl

end Machine

/-- One machine beside another that has the same text and another value in the variable. The text
is followed on the second machine, since in the first the variable may hold any procedure. -/
def unread (x : Symbol) (value : Option Value) : Coincidence Unit where
  Code := Value.Spares x
  Machines _ m n := m.SameBut x n ∧ n.Holds (Value.Bodies (Value.Spares x)) ∧
    m.environment.globals.get? x = value
  source he := he.source
  parts he hpart := he.parts hpart
  holds hm := hm.2.1
  lookup hm he := by
    apply hm.1.lookup?
    rintro rfl
    exact he.unread .refl
  named {_ m n name operands} hm hk he := by
    apply hm.1.operatorNamed?
    rintro rfl
    rcases he.head operands .refl with hkeyword | hprimitive
    · rw [hk] at hkeyword
      cases hkeyword
    · exact hprimitive
  registry hm := hm.1.registry
  sink hm := hm.1.sink
  depth hm := congrArg List.length hm.1.calls
  record _ event' hm :=
    ⟨⟨hm.1.globals, hm.1.calls, hm.1.registry, hm.1.sink⟩, hm.2.1.record event', hm.2.2⟩
  print s hm := ⟨⟨hm.1.globals, hm.1.calls, hm.1.registry, rfl⟩, hm.2.1.withSink s, hm.2.2⟩
  set {_ m n head name e v} hm hk he hv := by
    have hne : x ≠ name := by
      rintro rfl
      exact he.unassigned head e .refl hk
    exact ⟨hm.1.set name v, hm.2.1.set name hv, (m.global_set_of_ne hne v).trans hm.2.2⟩
  define hm _ _ _ hbody :=
    ⟨hm.1.define _ _ _, hm.2.1.define (.procedure hbody), hm.2.2⟩
  call p hm hargs :=
    ⟨(), ⟨hm.1.inCall p _, hm.2.1.inCall p hargs, hm.2.2⟩,
      fun _ _ hm' => ⟨hm'.1.pop, hm'.2.1.pop, hm'.2.2⟩⟩

/-- The same answer from both machines, each of which keeps its own value of the variable. -/
theorem finishes_of_sameBut {x : Symbol} {limits : Limits} {e : Value} (he : e.Spares x)
    {m n k : Machine} (hm : m.SameBut x k) (hn : n.SameBut x k)
    (hk : k.Holds (Value.Bodies (Value.Spares x))) {r : Except Fault Value} {m' : Machine}
    (h : Finishes (evaluate limits · e) m r m') :
    ∃ n', Finishes (evaluate limits · e) n r n' ∧ m'.SameBut x n' ∧
      m'.environment.globals.get? x = m.environment.globals.get? x ∧
      n'.environment.globals.get? x = n.environment.globals.get? x := by
  have hstart : (unread x (m.environment.globals.get? x)).Machines () m k := ⟨hm, hk, rfl⟩
  have hstart' : (unread x (n.environment.globals.get? x)).Machines () n k := ⟨hn, hk, rfl⟩
  obtain ⟨k', hrun, hm', _, hx⟩ := Coincidence.finishes_right hstart he h
  obtain ⟨n', hrun', hn', _, hx'⟩ := Coincidence.finishes_left hstart' he hrun
  exact ⟨n', hrun', hm'.trans hn'.symm, hx, hx'⟩

/-- Where a name is not a variable in the program, the value of the global variable of that name
makes no difference, and is left as it is. -/
theorem heads_not_captured {x : Symbol} {e : Value} (he : e.Spares x) {m n : Machine}
    (hsame : m.SameBut x n) (hbodies : ∀ p, (m.cleared x).Carries p → p.body.Spares x)
    (limits : Limits) :
    (∀ r m', Finishes (evaluate limits · e) m r m' →
      ∃ n', Finishes (evaluate limits · e) n r n' ∧ m'.SameBut x n' ∧
        m'.environment.globals.get? x = m.environment.globals.get? x ∧
        n'.environment.globals.get? x = n.environment.globals.get? x) ∧
    ∀ r n', Finishes (evaluate limits · e) n r n' →
      ∃ m', Finishes (evaluate limits · e) m r m' ∧ m'.SameBut x n' ∧
        m'.environment.globals.get? x = m.environment.globals.get? x ∧
        n'.environment.globals.get? x = n.environment.globals.get? x := by
  have hm := m.sameBut_cleared x
  have hn := hsame.symm.trans hm
  have hk := Machine.holds_bodies.mpr hbodies
  constructor
  · intro r m' h
    exact finishes_of_sameBut he hm hn hk h
  · intro r n' h
    obtain ⟨m', hrun, hend, hx', hx⟩ := finishes_of_sameBut he hn hm hk h
    exact ⟨m', hrun, hend.symm, hx, hx'⟩

/-- `(begin 7)` -/
def beginSeven : Value :=
  .list [.symbol "begin", seven]

/-- `F` is defined, with the body `(begin 7)`. -/
def definesF (globals : Frame) : Machine :=
  ⟨⟨globals, []⟩, ⟨⟨[("F", ⟨0, "F", [], beginSeven⟩)]⟩, 1⟩, {}, {}⟩

/-- A procedure of one parameter, whose body is the symbol `begin`. -/
def reader : Procedure Value :=
  ⟨1, "Q", ["X"], .symbol "begin"⟩

/-- `(begin (F))` -/
def beginCall : Value :=
  .list [.symbol "begin", .list [.symbol "F"]]

/-- A variable `begin` with a procedure for its value does not get in the way of the primitive,
neither in the expression nor in the body that it calls. -/
theorem heads_not_captured_begin :
    beginCall.Spares "begin" ∧
    (definesF ⟨[("begin", .procedure reader)]⟩).SameBut "begin" (definesF ⟨[]⟩) ∧
    (∀ p, ((definesF ⟨[("begin", .procedure reader)]⟩).cleared "begin").Carries p →
      p.body.Spares "begin") ∧
    Finishes (evaluate {} · beginCall) (definesF ⟨[("begin", .procedure reader)]⟩) (.ok seven)
      (definesF ⟨[("begin", .procedure reader)]⟩) ∧
    ∃ n', Finishes (evaluate {} · beginCall) (definesF ⟨[]⟩) (.ok seven) n' ∧
      n'.environment.globals.get? "begin" = none := by
  have hprimitive : (Primitive.ofName? (Text.upperCase "begin")).isSome := by decide +kernel
  have hbegin : keyword? (.symbol "begin") = none := by decide +kernel
  have hF : keyword? (.symbol "F") = none := by decide +kernel
  have hseven : seven.Spares "begin" := by
    refine .of_parts (.number _) (by simp [seven]) (by simp [seven]) (by simp [seven]) ?_
    intro part hpart
    cases hpart
  have hbody : beginSeven.Spares "begin" :=
    .call hbegin (fun _ => hprimitive) (List.forall_mem_singleton.mpr hseven)
  have he : beginCall.Spares "begin" :=
    .call hbegin (fun _ => hprimitive)
      (List.forall_mem_singleton.mpr (.call hF (by decide) (List.forall_mem_nil _)))
  let m := definesF ⟨[("begin", .procedure reader)]⟩
  have hsame : m.SameBut "begin" (definesF ⟨[]⟩) := by
    refine ⟨?_, rfl, rfl, rfl⟩
    intro name hne
    exact if_neg (Ne.symm hne)
  have hbodies : ∀ p, (m.cleared "begin").Carries p → p.body.Spares "begin" :=
    Machine.holds_bodies.mp
      { globals := Table.all_empty.insert "begin" .null
        calls := List.forall_mem_nil _
        procedures := Table.all_empty.insert "F" (.procedure hbody) }
  have hrun : Finishes (evaluate {} · beginCall) m (.ok seven) m := ⟨4, rfl⟩
  obtain ⟨n', hrun', _, _, hkept⟩ := (heads_not_captured he hsame hbodies {}).1 _ _ hrun
  exact ⟨he, hsame, hbodies, hrun, n', hrun', hkept⟩

end PocketLisp
