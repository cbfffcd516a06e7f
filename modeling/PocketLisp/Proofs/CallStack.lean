import PocketLisp.Proofs.Sessions

/-!
# The discipline of the call stack

Every run that ends leaves as many calls in progress as it found, whatever it did in between and
however it ended. It changes values in the innermost frame, never its names; frames further out
and, across a procedure call, the caller's own frame are untouched. Globals are only gained.
-/

namespace PocketLisp

namespace Table

variable {α : Type}

theorem contains_insert (t : Table α) (name other : Symbol) (value : α) :
    (t.insert name value).contains other = (decide (other = name) || t.contains other) := by
  unfold contains
  rw [get?_insert]
  by_cases h : other = name <;> simp [h]

/-- Replacing an entry leaves the names as they are. -/
theorem contains_insert_of_contains {t : Table α} {name : Symbol} (h : t.contains name = true)
    (value : α) : (t.insert name value).contains = t.contains := by
  funext other
  rw [contains_insert]
  by_cases ho : other = name
  · simp [ho, h]
  · simp [ho]

end Table

namespace Environment

/-- What a run leaves of the environment it started in. -/
structure Kept (before after : Environment) : Prop where
  depth : after.depth = before.depth
  outer : after.calls.tail = before.calls.tail
  names : after.calls.head?.map Table.contains = before.calls.head?.map Table.contains
  globals : ∀ name, before.globals.contains name → after.globals.contains name

/-- What a call leaves of its caller's environment: all frames, values included. -/
structure Undisturbed (before after : Environment) : Prop where
  calls : after.calls = before.calls
  globals : ∀ name, before.globals.contains name → after.globals.contains name

theorem Kept.refl (env : Environment) : env.Kept env :=
  ⟨rfl, rfl, rfl, fun _ h => h⟩

theorem Kept.trans {a b c : Environment} (h : a.Kept b) (h' : b.Kept c) : a.Kept c :=
  ⟨h'.depth.trans h.depth, h'.outer.trans h.outer, h'.names.trans h.names,
    fun name hn => h'.globals name (h.globals name hn)⟩

theorem Undisturbed.kept {a b : Environment} (h : a.Undisturbed b) : a.Kept b := by
  refine ⟨?_, by rw [h.calls], by rw [h.calls], h.globals⟩
  unfold depth
  rw [h.calls]

theorem kept_setGlobal (env : Environment) (name : Symbol) (value : Value) :
    env.Kept { env with globals := env.globals.insert name value } := by
  refine ⟨rfl, rfl, rfl, ?_⟩
  intro other ho
  show (env.globals.insert name value).contains other = true
  rw [Table.contains_insert, ho, Bool.or_true]

/-- An assignment writes into a name that the innermost call has, or else into the globals. -/
theorem kept_set (env : Environment) (name : Symbol) (value : Value) :
    env.Kept (env.set name value) := by
  obtain ⟨globals, calls⟩ := env
  cases calls with
  | nil => exact kept_setGlobal _ name value
  | cons frame outer =>
      by_cases hf : frame.contains name = true
      · simp only [set, hf, ↓reduceIte]
        refine ⟨rfl, rfl, ?_, fun _ h => h⟩
        simp [Table.contains_insert_of_contains hf]
      · simp only [set, hf]
        exact kept_setGlobal _ name value

/-- Dropping the frame of a call whose body kept the environment restores the caller's calls. -/
theorem Kept.undisturbed_pop {env after : Environment} {frame : Frame}
    (h : (env.push frame).Kept after) : env.Undisturbed after.pop :=
  ⟨h.outer, h.globals⟩

end Environment

theorem effects_kept : Effects fun m m' => m.environment.Kept m'.environment where
  refl _ := .refl _
  trans h h' := h.trans h'
  record _ _ := .refl _
  set m name value := m.environment.kept_set name value
  define _ _ _ _ := .refl _
  print _ _ _ := .refl _
  frame h := h.undisturbed_pop.kept

/-- A call of a procedure leaves every frame of its caller as it was. -/
theorem undisturbed_callProcedure {limits : Limits} {fuel : Nat} {p : Procedure Value}
    {args : List Value} {m m' : Machine} {r : Except Fault Value}
    (h : (call limits fuel p args m).answer? = some (r, m')) :
    m.environment.Undisturbed m'.environment := by
  rcases Evaluation.answer?_callProcedure.mp h with
    ⟨_, _, rfl⟩ | ⟨_, _, _, _, rfl⟩ | ⟨_, _, n, hn, rfl⟩
  · exact ⟨rfl, fun _ h => h⟩
  · exact ⟨rfl, fun _ h => h⟩
  · have hin := effects_kept.evaluate limits fuel p.body _ _ _ hn
    exact hin.undisturbed_pop

theorem undisturbed_applyTo {limits : Limits} {fuel : Nat} {callable : Value} {args : List Value}
    {m m' : Machine} {r : Except Fault Value}
    (h : (applyTo limits fuel callable args m).answer? = some (r, m')) :
    m.environment.Undisturbed m'.environment := by
  cases callable with
  | procedure p => exact undisturbed_callProcedure h
  | primitive p =>
      change (Evaluation.callPrimitive p args m).answer? = some (r, m') at h
      cases ho : p.operation.onArguments? args with
      | none =>
          rw [Evaluation.answer?_callPrimitive_none ho] at h
          cases h
          exact ⟨rfl, fun _ h => h⟩
      | some action =>
          rw [Evaluation.answer?_callPrimitive ho] at h
          cases h
          exact ⟨rfl, fun _ h => h⟩
  | number n =>
      cases h
      exact ⟨rfl, fun _ h => h⟩
  | symbol name =>
      cases h
      exact ⟨rfl, fun _ h => h⟩
  | list elements =>
      cases h
      exact ⟨rfl, fun _ h => h⟩

/-- Evaluation keeps the call stack, calls leave their caller undisturbed, and between the texts of
a session no call is in progress. -/
theorem call_stack_discipline (limits : Limits) :
    (∀ e m r m', Finishes (evaluate limits · e) m r m' → m.environment.Kept m'.environment) ∧
    (∀ es m r m', Finishes (evaluateSequence limits · es) m r m' →
      m.environment.Kept m'.environment) ∧
    (∀ p args m r m', Finishes (call limits · p args) m r m' →
      m.environment.Undisturbed m'.environment) ∧
    (∀ callable args m r m', Finishes (applyTo limits · callable args) m r m' →
      m.environment.Undisturbed m'.environment) ∧
    ∀ sink journal s, (Session.start limits sink journal).Reaches s → s.machine.depth = 0 := by
  refine ⟨?_, ?_, ?_, ?_, ?_⟩
  · rintro e m r m' ⟨fuel, h⟩
    exact effects_kept.evaluate limits fuel e m r m' h
  · rintro es m r m' ⟨fuel, h⟩
    exact effects_kept.evaluateSequence limits fuel es m r m' h
  · rintro p args m r m' ⟨fuel, h⟩
    exact undisturbed_callProcedure h
  · rintro callable args m r m' ⟨fuel, h⟩
    exact undisturbed_applyTo h
  · intro sink journal s hs
    exact (effects_kept.reaches hs).2.depth

/-- `(DEFINE F (N) (CAR N))` -/
def firstOf : Procedure Value :=
  ⟨0, "F", ["N"], .list [.symbol "CAR", .symbol "N"]⟩

/-- Two calls are in progress, and `F` is defined. -/
def twoCalls : Machine :=
  ⟨⟨⟨[]⟩, [⟨[("X", .null)]⟩, ⟨[("Y", .null)]⟩]⟩, ⟨⟨[("F", firstOf)]⟩, 1⟩, {}, {}⟩

def seven : Value :=
  .number (.integer 7)

/-- The call `(F (SET X 7))`, which fails after the assignment. -/
def failingCall : Value :=
  .list [.symbol "F", .list [.symbol "SET", .symbol "X", seven]]

/-- A call that fails inside two others; the same after `(SET Y 7)`, which makes a global and leaves
the `Y` of the outer call alone; a call and an application that fail; and a program whose last
statement fails in a call. -/
theorem call_stack_discipline_failingCall :
    (∃ m', Finishes (evaluate {} · failingCall) twoCalls (.error (.mismatch (.notAList seven))) m' ∧
      m'.lookup? "X" = some seven ∧ twoCalls.environment.Kept m'.environment) ∧
    (∃ m', Finishes (evaluateSequence {} · [.list [.symbol "SET", .symbol "Y", seven], failingCall])
        twoCalls (.error (.mismatch (.notAList seven))) m' ∧
      m'.lookup? "Y" = some seven ∧ twoCalls.environment.Kept m'.environment) ∧
    (∃ m', Finishes (call {} · firstOf [seven]) twoCalls (.error (.mismatch (.notAList seven))) m' ∧
      twoCalls.environment.Undisturbed m'.environment) ∧
    (∃ m', Finishes (applyTo {} · (.procedure firstOf) []) twoCalls
        (.error (.wrongCount "F" (.exactly 1) 0)) m' ∧
      twoCalls.environment.Undisturbed m'.environment) ∧
    ∃ result s, (Session.start {} {} {}).runProgram 4 "(DEFINE F (N) (CAR N)) (F 7)" =
      some (result, s) ∧ s.machine.depth = 0 := by
  obtain ⟨hevaluate, hsequence, hcall, happly, hsession⟩ := call_stack_discipline {}
  refine ⟨?_, ?_, ?_, ?_, ?_⟩
  · have hrun : Finishes (evaluate {} · failingCall) twoCalls
        (.error (.mismatch (.notAList seven))) (twoCalls.set "X" seven) := ⟨4, rfl⟩
    exact ⟨_, hrun, rfl, hevaluate _ _ _ _ hrun⟩
  · have hrun : Finishes
        (evaluateSequence {} · [.list [.symbol "SET", .symbol "Y", seven], failingCall])
        twoCalls (.error (.mismatch (.notAList seven)))
        ((twoCalls.set "Y" seven).set "X" seven) := ⟨4, rfl⟩
    exact ⟨_, hrun, rfl, hsequence _ _ _ _ hrun⟩
  · have hrun : Finishes (call {} · firstOf [seven]) twoCalls
        (.error (.mismatch (.notAList seven))) twoCalls := ⟨4, rfl⟩
    exact ⟨_, hrun, hcall _ _ _ _ _ hrun⟩
  · have hrun : Finishes (applyTo {} · (.procedure firstOf) []) twoCalls
        (.error (.wrongCount "F" (.exactly 1) 0)) twoCalls := ⟨0, rfl⟩
    exact ⟨_, hrun, happly _ _ _ _ _ hrun⟩
  · have hprogram : ((Session.start {} {} {}).runProgram 4
        "(DEFINE F (N) (CAR N)) (F 7)").isSome := by decide +kernel
    obtain ⟨⟨result, s⟩, hs⟩ := Option.isSome_iff_exists.mp hprogram
    exact ⟨result, s, hs, hsession {} {} s (.program .refl hs)⟩

end PocketLisp
