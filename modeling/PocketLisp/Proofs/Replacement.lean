import PocketLisp.Proofs.Contents
import PocketLisp.Proofs.Sources

/-!
# Machines with other procedures

Values, tables and machines that are the same but for the procedures in them. What stands in place
of a procedure is left open; it has the same name and number, so that nobody can tell the values
apart by printing or comparing them.
-/

namespace PocketLisp

namespace Value

/-- The values are the same but for the procedures in them. -/
inductive Replaced (R : Procedure Value → Procedure Value → Prop) : Value → Value → Prop
  | number (n : Number) : Replaced R (.number n) (.number n)
  | symbol (name : Symbol) : Replaced R (.symbol name) (.symbol name)
  | list {vs vs' : List Value} (elements : List.Forall₂ (Replaced R) vs vs') :
      Replaced R (.list vs) (.list vs')
  | primitive (p : Primitive) : Replaced R (.primitive p) (.primitive p)
  | procedure {q q' : Procedure Value} (h : R q q') : Replaced R (.procedure q) (.procedure q')

theorem Bodies.null {P : Value → Prop} : null.Bodies P :=
  .list fun _ hv => absurd hv List.not_mem_nil

theorem Bodies.pair {P : Value → Prop} {u v : Value} (hu : u.Bodies P) (hv : v.Bodies P) :
    (Value.list [u, v]).Bodies P := by
  refine .list ?_
  simp only [List.mem_cons, List.not_mem_nil, or_false, forall_eq_or_imp, forall_eq]
  exact ⟨hu, hv⟩

theorem Bodies.tail {P : Value → Prop} {vs : List Value} (h : (Value.list vs).Bodies P) :
    (Value.list vs.tail).Bodies P := by
  cases h with
  | list all => exact .list fun v hv => all v (List.mem_of_mem_tail hv)

variable {R : Procedure Value → Procedure Value → Prop}

theorem Replaced.tail {vs vs' : List Value} (h : (Value.list vs).Replaced R (.list vs')) :
    (Value.list vs.tail).Replaced R (.list vs'.tail) := by
  cases h with
  | list elements =>
      cases elements with
      | nil => exact .list .nil
      | cons _ tail => exact .list tail

theorem Replaced.similar (hR : ∀ q q', R q q' → q.id = q'.id ∧ q.name = q'.name)
    {P : Value → Prop} {v v' : Value} (hbodies : v.Bodies P) (h : v.Replaced R v') :
    Similar (fun v v' => v.Bodies P ∧ v.Replaced R v') v v' := by
  cases h with
  | number n => exact .number n
  | symbol name => exact .symbol name
  | list elements =>
      cases hbodies with
      | list all => exact .list ((List.forall₂_and_left _ _).mpr ⟨all, elements⟩)
  | primitive p => exact .primitive p
  | procedure hq => exact .procedure (hR _ _ hq).1 (hR _ _ hq).2

end Value

theorem exists_or_none_of_rel {α β : Type} {R : α → β → Prop} {a : Option α} {b : Option β}
    (h : Option.Rel R a b) :
    (∃ u v, a = some u ∧ b = some v ∧ R u v) ∨ (a = none ∧ b = none) := by
  cases h with
  | some h => exact Or.inl ⟨_, _, rfl, rfl, h⟩
  | none => exact Or.inr ⟨rfl, rfl⟩

namespace Table

variable {α β : Type} {R : α → β → Prop}

/-- The same names, with corresponding values. -/
def Corresponds (R : α → β → Prop) (t : Table α) (u : Table β) : Prop :=
  ∀ name, Option.Rel R (t.get? name) (u.get? name)

theorem contains_eq_of_rel {t : Table α} {u : Table β} {name name' : Symbol}
    (h : Option.Rel R (t.get? name) (u.get? name')) : t.contains name = u.contains name' := by
  unfold contains
  generalize t.get? name = a, u.get? name' = b at h
  cases h <;> rfl

theorem rel_get?_insert {t : Table α} {u : Table β} {name name' other other' : Symbol} {a : α}
    {b : β} (h : Option.Rel R (t.get? other) (u.get? other')) (hab : R a b)
    (hsame : other = name ↔ other' = name') :
    Option.Rel R ((t.insert name a).get? other) ((u.insert name' b).get? other') := by
  rw [get?_insert, get?_insert]
  by_cases hname : other = name
  · rw [if_pos hname, if_pos (hsame.mp hname)]
    exact .some hab
  · rw [if_neg hname, if_neg (mt hsame.mpr hname)]
    exact h

theorem corresponds_empty : (empty : Table α).Corresponds R (empty : Table β) :=
  fun _ => .none

theorem Corresponds.insert {t : Table α} {u : Table β} (h : t.Corresponds R u) (name : Symbol)
    {a : α} {b : β} (hab : R a b) : (t.insert name a).Corresponds R (u.insert name b) :=
  fun other => rel_get?_insert (h other) hab Iff.rfl

/-- Arguments bound to parameters, on the one side under other names. Of a parameter that is listed
twice the last argument counts on both sides. -/
theorem rel_get?_ofList_zip (D : Symbol → Prop) {f : Symbol → Symbol}
    (hf : ∀ a b, D a → D b → f a = f b → a = b) (ps : List Symbol) (hps : ∀ p ∈ ps, D p)
    {as : List α} {bs : List β} (hargs : List.Forall₂ R as bs) (name : Symbol) (hname : D name) :
    Option.Rel R ((ofList (ps.zip as)).get? name) ((ofList ((ps.map f).zip bs)).get? (f name)) := by
  rw [ofList_eq_foldl, ofList_eq_foldl]
  suffices hfold : ∀ (t : Table α) (u : Table β), Option.Rel R (t.get? name) (u.get? (f name)) →
      Option.Rel R (((ps.zip as).foldl (fun t pair => t.insert pair.1 pair.2) t).get? name)
        ((((ps.map f).zip bs).foldl (fun u pair => u.insert pair.1 pair.2) u).get? (f name)) from
    hfold empty empty .none
  induction hargs generalizing ps with
  | nil =>
      intro t u htu
      simpa using htu
  | cons head tail ih =>
      intro t u htu
      cases ps with
      | nil => exact htu
      | cons p ps =>
          rw [List.forall_mem_cons] at hps
          apply ih ps hps.2
          exact rel_get?_insert htu head ⟨congrArg f, hf name p hname hps.1⟩

theorem corresponds_ofList_zip (ps : List Symbol) {as : List α} {bs : List β}
    (hargs : List.Forall₂ R as bs) : (ofList (ps.zip as)).Corresponds R (ofList (ps.zip bs)) := by
  intro name
  have hrel := rel_get?_ofList_zip (fun _ => True) (fun _ _ _ _ heq => heq) ps
    (fun _ _ => trivial) hargs name trivial
  rwa [List.map_id'] at hrel

theorem contains_ofList {pairs : List (Symbol × α)} {name : Symbol}
    (h : name ∈ pairs.map Prod.fst) : (ofList pairs).contains name = true := by
  rw [ofList_eq_foldl]
  suffices hfold : ∀ t : Table α, t.contains name = true ∨ name ∈ pairs.map Prod.fst →
      (pairs.foldl (fun t pair => t.insert pair.1 pair.2) t).contains name = true from
    hfold empty (Or.inr h)
  clear h
  induction pairs with
  | nil => exact fun t ht => ht.resolve_right List.not_mem_nil
  | cons pair pairs ih =>
      intro t ht
      apply ih
      rw [contains_insert]
      rw [List.map_cons, List.mem_cons] at ht
      rcases ht with ht | rfl | ht
      · simp [ht]
      · simp
      · exact Or.inr ht

end Table

/-- The machines are the same but for the procedures in them and for their journals. -/
structure Machine.Replaced (R : Procedure Value → Procedure Value → Prop) (m n : Machine) :
    Prop where
  globals : m.environment.globals.Corresponds (Value.Replaced R) n.environment.globals
  calls : List.Forall₂ (Table.Corresponds (Value.Replaced R)) m.environment.calls
    n.environment.calls
  procedures : m.registry.procedures.Corresponds R n.registry.procedures
  made : m.registry.made = n.registry.made
  sink : m.sink = n.sink

theorem rel_or {α β : Type} {R : α → β → Prop} {a a' : Option α} {b b' : Option β}
    (h : Option.Rel R a b) (h' : Option.Rel R a' b') : Option.Rel R (a.or a') (b.or b') := by
  cases h with
  | some h => exact .some h
  | none => exact h'

namespace Machine.Replaced

variable {R : Procedure Value → Procedure Value → Prop} {m n : Machine} (h : m.Replaced R n)

include h

theorem lookup? (name : Symbol) :
    Option.Rel (Value.Replaced R) (m.lookup? name) (n.lookup? name) := by
  have henvironment : Option.Rel (Value.Replaced R) (m.environment.get? name)
      (n.environment.get? name) := by
    have hcalls := h.calls
    unfold Environment.get?
    generalize m.environment.calls = calls, n.environment.calls = calls' at hcalls
    cases hcalls with
    | nil => exact h.globals name
    | cons hframe _ => exact rel_or (hframe name) (h.globals name)
  apply rel_or henvironment
  show Option.Rel _ (Option.map _ (m.registry.procedures.get? name)) (Option.map _ _)
  rcases exists_or_none_of_rel (h.procedures name) with ⟨q, q', hq, hq', hrel⟩ | ⟨hq, hq'⟩
  · rw [hq, Registry.get?, hq']
    exact .some (.procedure hrel)
  · rw [hq, Registry.get?, hq']
    exact .none

theorem operatorNamed? (name : Symbol) :
    Option.Rel (Value.Replaced R) (Evaluation.operatorNamed? m name)
      (Evaluation.operatorNamed? n name) := by
  unfold Evaluation.operatorNamed? Registry.get?
  rcases exists_or_none_of_rel (h.procedures name) with ⟨q, q', hq, hq', hrel⟩ | ⟨hq, hq'⟩
  · rw [hq, hq']
    exact .some (.procedure hrel)
  · rw [hq, hq']
    cases Primitive.ofName? (Text.upperCase name) with
    | some p => exact .some (.primitive p)
    | none => exact h.lookup? name

theorem record (event event' : Event) : (m.record event).Replaced R (n.record event') :=
  ⟨h.globals, h.calls, h.procedures, h.made, h.sink⟩

theorem withSink (s : Sink) : (m.withSink s).Replaced R (n.withSink s) :=
  ⟨h.globals, h.calls, h.procedures, h.made, rfl⟩

theorem set (name : Symbol) {v v' : Value} (hv : v.Replaced R v') :
    (m.set name v).Replaced R (n.set name v') := by
  obtain ⟨⟨globals, calls⟩, registry, sink, journal⟩ := m
  obtain ⟨⟨globals', calls'⟩, registry', sink', journal'⟩ := n
  obtain ⟨hglobals, hcalls, hprocedures, hmade, hsink⟩ := h
  have hinsert := hglobals.insert name hv
  cases hcalls with
  | nil => exact ⟨hinsert, .nil, hprocedures, hmade, hsink⟩
  | cons hframe houter =>
      simp only [Machine.set, Environment.set, Table.contains_eq_of_rel (hframe name)]
      split
      · exact ⟨hglobals, .cons (hframe.insert name hv) houter, hprocedures, hmade, hsink⟩
      · exact ⟨hinsert, .cons hframe houter, hprocedures, hmade, hsink⟩

theorem define {name : Symbol} {parameters : List Symbol} {body body' : Value}
    (hfresh : R (m.registry.fresh name parameters body) (n.registry.fresh name parameters body')) :
    (m.define name parameters body).Replaced R (n.define name parameters body') :=
  ⟨h.globals, h.calls, h.procedures.insert name hfresh, congrArg Nat.succ h.made, h.sink⟩

theorem inCall {p p' : Procedure Value} (hparameters : p.parameters = p'.parameters)
    {args args' : List Value} (hargs : List.Forall₂ (Value.Replaced R) args args') :
    (Evaluation.inCall p args m).Replaced R (Evaluation.inCall p' args' n) := by
  have hframe := Table.corresponds_ofList_zip p.parameters hargs
  refine ⟨h.globals, .cons ?_ h.calls, h.procedures, h.made, h.sink⟩
  rw [← hparameters]
  exact hframe

theorem pop : m.pop.Replaced R n.pop := by
  have htail := List.forall₂_drop 1 h.calls
  rw [List.drop_one, List.drop_one] at htail
  exact ⟨h.globals, htail, h.procedures, h.made, h.sink⟩

end Machine.Replaced

end PocketLisp
