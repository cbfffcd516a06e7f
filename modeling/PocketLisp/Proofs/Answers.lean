import PocketLisp.Proofs.Heads
import PocketLisp.Session

/-!
# Answers of runs

What a run answers, said once for every way of putting runs together. A program finishes with an
answer if some amount of fuel yields it. Nothing here says that a program finishes, or that more
fuel yields the same answer.
-/

namespace PocketLisp

namespace Machine

/-- The machine with another sink in place of its own. -/
def withSink (m : Machine) (s : Sink) : Machine :=
  { m with sink := s }

theorem depth_pop (m : Machine) : m.pop.depth = m.depth - 1 :=
  List.length_tail

/-- Lookup consults the globals, the innermost call and the registry, nothing else. -/
theorem lookup?_congr {m₁ m₂ : Machine} (name : Symbol)
    (hg : m₁.environment.globals = m₂.environment.globals)
    (hf : m₁.environment.calls.head? = m₂.environment.calls.head?)
    (hr : m₁.registry = m₂.registry) : m₁.lookup? name = m₂.lookup? name := by
  have he : m₁.environment.get? name = m₂.environment.get? name := by
    unfold Environment.get?
    rw [hg]
    cases h₁ : m₁.environment.calls <;> cases h₂ : m₂.environment.calls <;> simp_all
  unfold lookup?
  rw [he, hr]

theorem operatorNamed?_congr {m₁ m₂ : Machine} (name : Symbol)
    (hg : m₁.environment.globals = m₂.environment.globals)
    (hf : m₁.environment.calls.head? = m₂.environment.calls.head?)
    (hr : m₁.registry = m₂.registry) :
    Evaluation.operatorNamed? m₁ name = Evaluation.operatorNamed? m₂ name := by
  unfold Evaluation.operatorNamed?
  rw [hr, lookup?_congr name hg hf hr]

end Machine

namespace Run

variable {α β : Type}

@[simp] theorem answer?_fail (fault : Fault) (m : Machine) :
    ((fail fault : Run α) m).answer? = some (.error fault, m) := rfl

@[simp] theorem answer?_gets (f : Machine → α) (m : Machine) :
    (gets f m).answer? = some (.ok (f m), m) := rfl

/-- A sequence answers what its second run answers, or the fault of its first. -/
theorem answer?_bind {x : Run α} {f : α → Run β} {m m'' : Machine} {r : Except Fault β} :
    ((x >>= f) m).answer? = some (r, m'') ↔
      (∃ a m', (x m).answer? = some (.ok a, m') ∧ (f a m').answer? = some (r, m'')) ∨
        ∃ fault, (x m).answer? = some (.error fault, m'') ∧ r = .error fault := by
  rw [bind_apply]
  cases hx : x m with
  | returned a m' =>
      constructor
      · intro h
        exact Or.inl ⟨a, m', rfl, h⟩
      · rintro (⟨b, n, hb, h⟩ | ⟨fault, hf, _⟩)
        · cases hb
          exact h
        · cases hf
  | failed fault m' =>
      constructor
      · intro h
        cases h
        exact Or.inr ⟨fault, rfl, rfl⟩
      · rintro (⟨b, n, hb, _⟩ | ⟨fault, hf, rfl⟩)
        · cases hb
        · cases hf
          rfl
  | exhausted => simp [Outcome.answer?]

/-- What is answered inside a frame is answered outside, the frame dropped. -/
theorem answer?_inFrame {frame : Frame} {body : Run α} {m m' : Machine} {r : Except Fault α} :
    (inFrame frame body m).answer? = some (r, m') ↔
      ∃ n, (body (m.push frame)).answer? = some (r, n) ∧ m' = n.pop := by
  have hmap : (inFrame frame body m).answer? =
      (body (m.push frame)).answer?.map fun (r, n) => (r, n.pop) := by
    unfold inFrame
    cases body (m.push frame) <;> rfl
  rw [hmap, Option.map_eq_some_iff]
  constructor
  · rintro ⟨⟨r', n⟩, hn, he⟩
    cases he
    exact ⟨n, hn, rfl⟩
  · rintro ⟨n, hn, rfl⟩
    exact ⟨(r, n), hn, rfl⟩

end Run

namespace Evaluation

/-- No name spells a keyword and a primitive. -/
theorem keyword?_of_primitive {name : Symbol} {p : Primitive}
    (h : Primitive.ofName? (Text.upperCase name) = some p) : keyword? (.symbol name) = none := by
  have hname : p.name = Text.upperCase name := by simpa using List.find?_some h
  show Keyword.ofName? (Text.upperCase name) = none
  rw [← hname]
  cases p <;> decide

/-- What the journal says after a primitive has run. -/
def reported (p : Primitive) : Except Fault Value → Event
  | .ok v => .callReturned p.name v
  | .error fault => .callFailed p.name fault

/-- A primitive touches nothing but the sink and the journal. -/
theorem answer?_callPrimitive {p : Primitive} {args : List Value}
    {action : Sink → Except Fault Value × Sink}
    (h : p.operation.onArguments? args = some action) (m : Machine) :
    (callPrimitive p args m).answer? =
      some ((action m.sink).1, ((m.record (.calling p.name args)).withSink
        (action m.sink).2).record (reported p (action m.sink).1)) := by
  simp only [callPrimitive, h, Machine.usingSink, Machine.record]
  rcases action m.sink with ⟨_ | _, _⟩ <;> rfl

theorem answer?_callPrimitive_none {p : Primitive} {args : List Value}
    (h : p.operation.onArguments? args = none) (m : Machine) :
    (callPrimitive p args m).answer? =
      some (.error (.wrongCount p.name p.arity args.length), m) := by
  simp only [callPrimitive, h, Run.answer?_fail]

/-- The machine in which the body of a called procedure is evaluated. -/
def inCall (p : Procedure Value) (args : List Value) (m : Machine) : Machine :=
  ((m.record (.calling p.name args)).record (.pushed (m.depth + 1))).push
    (Table.ofList (p.parameters.zip args))

@[simp] theorem depth_inCall (p : Procedure Value) (args : List Value) (m : Machine) :
    (inCall p args m).depth = m.depth + 1 := rfl

/-- All that a procedure call can answer: the fault of one of its two checks, or what the body
answers in a frame of its own, which is dropped. -/
theorem answer?_callProcedure {limits : Limits} {self : Value → Run Value} {p : Procedure Value}
    {args : List Value} {m m' : Machine} {r : Except Fault Value} :
    (callProcedure limits self p args m).answer? = some (r, m') ↔
      (args.length ≠ p.parameters.length ∧
        r = .error (.wrongCount p.name p.arity args.length) ∧ m' = m) ∨
      (args.length = p.parameters.length ∧ ∃ limit, limits.brokenByCall m.depth = some limit ∧
        r = .error (.recursionLimit limit) ∧ m' = m) ∨
      (args.length = p.parameters.length ∧ limits.brokenByCall m.depth = none ∧
        ∃ n, (self p.body (inCall p args m)).answer? = some (r, n) ∧ m' = n.pop) := by
  unfold callProcedure
  rw [Run.bind_apply]
  simp only [Run.gets]
  by_cases hl : args.length = p.parameters.length
  · rw [if_neg (fun hne => hne hl)]
    cases hb : limits.brokenByCall m.depth with
    | some limit => simp [hl, eq_comm]
    | none =>
        change (Run.inFrame _ _ _).answer? = _ ↔ _
        rw [Run.answer?_inFrame]
        simp [hl, inCall]
  · rw [if_pos hl]
    simp [hl, eq_comm]

/-- A call depends on the evaluation of its body only in the machine of the call, and only if the
call is made. -/
theorem callProcedure_congr {limits : Limits} {self self' : Value → Run Value}
    {p : Procedure Value} {args : List Value} {m : Machine}
    (h : args.length = p.parameters.length → limits.brokenByCall m.depth = none →
      self p.body (inCall p args m) = self' p.body (inCall p args m)) :
    callProcedure limits self p args m = callProcedure limits self' p args m := by
  unfold callProcedure
  rw [Run.bind_apply, Run.bind_apply]
  simp only [Run.gets]
  by_cases hl : args.length = p.parameters.length
  · rw [if_neg (fun hne => hne hl), if_neg (fun hne => hne hl)]
    cases hb : limits.brokenByCall m.depth with
    | some limit => rfl
    | none =>
        have hbody := h hl hb
        change Run.inFrame _ _ _ = Run.inFrame _ _ _
        unfold Run.inFrame
        change self p.body (Machine.push _ _) = self' p.body (Machine.push _ _) at hbody
        rw [hbody]
  · rw [if_pos hl, if_pos hl]

end Evaluation

/-- Some amount of fuel lets the program answer `r` and leave the machine `m'`. -/
def Finishes {α : Type} (program : Nat → Run α) (m : Machine) (r : Except Fault α) (m' : Machine) :
    Prop :=
  ∃ fuel, (program fuel m).answer? = some (r, m')

/-- The call of a procedure, whose body is evaluated. -/
def call (limits : Limits) (fuel : Nat) (p : Procedure Value) (args : List Value) : Run Value :=
  Evaluation.callProcedure limits (evaluate limits fuel) p args

end PocketLisp
