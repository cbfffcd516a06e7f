import PocketLisp.Proofs.CallStack

/-!
# What a machine holds

A property of values that holds of everything in a machine: of its variables, the globals and those
of all calls in progress, and of the procedures in its registry. Looking up gives nothing else, and
every change to a machine keeps the property if what it puts in has it.
-/

namespace PocketLisp

namespace Table

variable {α : Type}

def All (P : α → Prop) (t : Table α) : Prop :=
  ∀ name a, t.get? name = some a → P a

variable {P Q : α → Prop} {t : Table α}

theorem all_empty : (empty : Table α).All P :=
  fun _ _ ha => by cases ha

theorem All.imp (h : t.All P) (himp : ∀ a, P a → Q a) : t.All Q :=
  fun name a ha => himp a (h name a ha)

theorem All.insert (h : t.All P) (name : Symbol) {a : α} (ha : P a) : (t.insert name a).All P := by
  intro other b hb
  rw [get?_insert] at hb
  split at hb
  · exact Option.some.inj hb ▸ ha
  · exact h other b hb

theorem ofList_eq_foldl (pairs : List (Symbol × α)) :
    ofList pairs = pairs.foldl (fun t pair => t.insert pair.1 pair.2) empty := rfl

theorem all_ofList {pairs : List (Symbol × α)} (h : ∀ pair ∈ pairs, P pair.2) :
    (ofList pairs).All P := by
  rw [ofList_eq_foldl]
  suffices hfold : ∀ t : Table α, t.All P →
      (pairs.foldl (fun t pair => t.insert pair.1 pair.2) t).All P from
    hfold empty all_empty
  induction pairs with
  | nil => exact fun _ ht => ht
  | cons pair pairs ih =>
      intro t ht
      rw [List.forall_mem_cons] at h
      exact ih h.2 _ (ht.insert pair.1 h.1)

end Table

/-- All that an assignment can do: bind the name globally, or where the innermost call has it. -/
theorem Environment.set_cases (env : Environment) (name : Symbol) (v : Value) :
    env.set name v = { env with globals := env.globals.insert name v } ∨
      ∃ frame outer, env.calls = frame :: outer ∧ frame.contains name = true ∧
        env.set name v = { env with calls := frame.insert name v :: outer } := by
  obtain ⟨globals, calls⟩ := env
  cases calls with
  | nil => exact Or.inl rfl
  | cons frame outer =>
      by_cases hcontains : frame.contains name = true
      · exact Or.inr ⟨frame, outer, rfl, hcontains, if_pos hcontains⟩
      · exact Or.inl (if_neg hcontains)

theorem Registry.get?_eq_none {r : Registry} {name : Symbol} (h : r.contains name = false) :
    r.get? name = none :=
  Option.isSome_eq_false_iff.mp h |> Option.isNone_iff_eq_none.mp

theorem Registry.contains_define (r : Registry) (name other : Symbol) (parameters : List Symbol)
    (body : Value) :
    (r.define name parameters body).contains other =
      (decide (other = name) || r.contains other) :=
  Table.contains_insert _ _ _ _

theorem Registry.contains_define_of_ne (r : Registry) {name other : Symbol} (hne : other ≠ name)
    (parameters : List Symbol) (body : Value) :
    (r.define name parameters body).contains other = r.contains other := by
  rw [contains_define, decide_eq_false hne, Bool.false_or]

theorem Journal.mem_record {j : Journal} {e e' : Event} (h : e' ∈ (j.record e).events) :
    e' ∈ j.events ∨ e' = e := by
  unfold record at h
  split at h
  · exact Array.mem_push.mp h
  · exact Or.inl h

namespace Machine

theorem mem_events_record {m : Machine} {event e : Event} (h : e ∈ m.journal.events) :
    e ∈ (m.record event).journal.events := by
  unfold record Journal.record
  split
  · exact Array.mem_push_of_mem event h
  · exact h

theorem mem_events_record_self {m : Machine} (h : m.journal.kept = true) (event : Event) :
    event ∈ (m.record event).journal.events := by
  simp only [record, Journal.record, h, if_true]
  exact Array.mem_push_self

theorem kept_record (m : Machine) (event : Event) :
    (m.record event).journal.kept = m.journal.kept := by
  unfold record Journal.record
  split <;> rfl

/-- The machines differ in their journals at most. -/
structure Twin (m n : Machine) : Prop where
  environment : m.environment = n.environment
  registry : m.registry = n.registry
  sink : m.sink = n.sink

namespace Twin

variable {m n : Machine} (h : m.Twin n)

include h

theorem symm : n.Twin m :=
  ⟨h.environment.symm, h.registry.symm, h.sink.symm⟩

theorem trans {k : Machine} (h' : n.Twin k) : m.Twin k :=
  ⟨h.environment.trans h'.environment, h.registry.trans h'.registry, h.sink.trans h'.sink⟩

theorem lookup? (name : Symbol) : m.lookup? name = n.lookup? name :=
  lookup?_congr name (by rw [h.environment]) (by rw [h.environment]) h.registry

theorem operatorNamed? (name : Symbol) :
    Evaluation.operatorNamed? m name = Evaluation.operatorNamed? n name :=
  operatorNamed?_congr name (by rw [h.environment]) (by rw [h.environment]) h.registry

theorem record (event event' : Event) : (m.record event).Twin (n.record event') :=
  ⟨h.environment, h.registry, h.sink⟩

theorem withSink (s : Sink) : (m.withSink s).Twin (n.withSink s) :=
  ⟨h.environment, h.registry, rfl⟩

theorem set (name : Symbol) (v : Value) : (m.set name v).Twin (n.set name v) :=
  ⟨congrArg (Environment.set · name v) h.environment, h.registry, h.sink⟩

theorem define (name : Symbol) (parameters : List Symbol) (body : Value) :
    (m.define name parameters body).Twin (n.define name parameters body) :=
  ⟨h.environment, congrArg (Registry.define · name parameters body) h.registry, h.sink⟩

theorem inCall (p : Procedure Value) (args : List Value) :
    (Evaluation.inCall p args m).Twin (Evaluation.inCall p args n) :=
  ⟨congrArg (Environment.push · _) h.environment, h.registry, h.sink⟩

theorem pop : m.pop.Twin n.pop :=
  ⟨congrArg Environment.pop h.environment, h.registry, h.sink⟩

end Twin

theorem twin_record (m : Machine) (event : Event) : (m.record event).Twin m :=
  ⟨rfl, rfl, rfl⟩

structure Holds (P : Value → Prop) (m : Machine) : Prop where
  globals : m.environment.globals.All P
  calls : ∀ frame ∈ m.environment.calls, frame.All P
  procedures : m.registry.procedures.All fun p => P (.procedure p)

namespace Holds

variable {P Q : Value → Prop} {m : Machine} (h : m.Holds P)

include h

theorem imp (himp : ∀ v, P v → Q v) : m.Holds Q where
  globals := h.globals.imp himp
  calls frame hframe := (h.calls frame hframe).imp himp
  procedures := h.procedures.imp fun _ => himp _

theorem lookup? {name : Symbol} {v : Value} (hv : m.lookup? name = some v) : P v := by
  rcases Option.or_eq_some_iff.mp hv with henv | ⟨_, hreg⟩
  · unfold Environment.get? at henv
    split at henv
    · exact h.globals name v henv
    · rename_i frame _ hcalls
      rcases Option.or_eq_some_iff.mp henv with hframe | ⟨_, hglobal⟩
      · exact h.calls frame (hcalls ▸ List.mem_cons_self) name v hframe
      · exact h.globals name v hglobal
  · obtain ⟨p, hp, rfl⟩ := Option.map_eq_some_iff.mp hreg
    exact h.procedures name p hp

theorem operatorNamed? (hprimitive : ∀ p, P (.primitive p)) {name : Symbol} {v : Value}
    (hv : Evaluation.operatorNamed? m name = some v) : P v := by
  unfold Evaluation.operatorNamed? at hv
  split at hv
  · rename_i p hp
    exact Option.some.inj hv ▸ h.procedures name p hp
  · split at hv
    · exact Option.some.inj hv ▸ hprimitive _
    · exact h.lookup? hv

theorem record (event : Event) : (m.record event).Holds P :=
  ⟨h.globals, h.calls, h.procedures⟩

theorem withSink (s : Sink) : (m.withSink s).Holds P :=
  ⟨h.globals, h.calls, h.procedures⟩

theorem set (name : Symbol) {v : Value} (hv : P v) : (m.set name v).Holds P := by
  unfold Machine.set
  rcases m.environment.set_cases name v with heq | ⟨frame, outer, hcalls, _, heq⟩
  · rw [heq]
    exact ⟨h.globals.insert name hv, h.calls, h.procedures⟩
  · have hframes := h.calls
    rw [hcalls, List.forall_mem_cons] at hframes
    rw [heq]
    exact ⟨h.globals, List.forall_mem_cons.mpr ⟨hframes.1.insert name hv, hframes.2⟩, h.procedures⟩

theorem define {name : Symbol} {parameters : List Symbol} {body : Value}
    (hfresh : P (.procedure (m.registry.fresh name parameters body))) :
    (m.define name parameters body).Holds P :=
  ⟨h.globals, h.calls, h.procedures.insert name hfresh⟩

theorem inCall (p : Procedure Value) {args : List Value} (hargs : ∀ v ∈ args, P v) :
    (Evaluation.inCall p args m).Holds P := by
  have hframe : (Table.ofList (p.parameters.zip args)).All P :=
    Table.all_ofList fun pair hpair => hargs pair.2 (List.of_mem_zip hpair).2
  exact ⟨h.globals, List.forall_mem_cons.mpr ⟨hframe, h.calls⟩, h.procedures⟩

theorem pop : m.pop.Holds P :=
  ⟨h.globals, fun frame hframe => h.calls frame (List.mem_of_mem_tail hframe), h.procedures⟩

end Holds

end Machine

/-- The sessions differ in the journals of their machines at most. -/
structure Session.Twin (s t : Session) : Prop where
  limits : s.limits = t.limits
  machine : s.machine.Twin t.machine

end PocketLisp
