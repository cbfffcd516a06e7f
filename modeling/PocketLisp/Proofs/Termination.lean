import PocketLisp.Proofs.CallStack
import PocketLisp.Proofs.Simulation

/-!
# Termination under limits

With a bound on the depth of calls and a bound on the passes of a loop, every evaluation ends. Call
bodies are arbitrary: they come from a registry that the program changes while it runs, so nothing
shrinks but the depth that is left. Within one depth the expression shrinks, and within one loop
the passes that are left. How much fuel is needed is not said.
-/

namespace PocketLisp

open Evaluation

/-- From some amount of fuel on, the answer is `a`. -/
def Settles {α : Type} (f : Nat → Option α) (a : α) : Prop :=
  ∃ fuel, ∀ more, fuel ≤ more → f more = some a

namespace Settles

variable {α β : Type}

theorem const (a : α) : Settles (fun _ => some a) a :=
  ⟨0, fun _ _ => rfl⟩

theorem map {f : Nat → Option α} {a : α} (h : Settles f a) (g : α → β) :
    Settles (fun n => (f n).map g) (g a) := by
  obtain ⟨fuel, h⟩ := h
  exact ⟨fuel, fun more hle => congrArg (Option.map g) (h more hle)⟩

theorem bind {f : Nat → Option α} {a : α} (h : Settles f a) {g : Nat → α → Option β} {b : β}
    (hg : Settles (fun n => g n a) b) : Settles (fun n => (f n).bind (g n)) b := by
  obtain ⟨n₁, h₁⟩ := h
  obtain ⟨n₂, h₂⟩ := hg
  refine ⟨max n₁ n₂, fun more hle => ?_⟩
  have ha := h₁ more (by omega)
  have hb := h₂ more (by omega)
  simp only [ha, Option.bind_some, hb]

end Settles

theorem Steady.settles {α : Type} {program : Nat → Run α} (h : Steady program) {m m' : Machine}
    {r : Except Fault α} (hf : Finishes program m r m') :
    Settles (fun n => (program n m).answer?) (r, m') := by
  obtain ⟨fuel, hf⟩ := hf
  exact ⟨fuel, fun more hle => h.answer? hle hf⟩

/-- With `d` calls in progress the program always ends, with `d` calls in progress again. -/
structure Terminates {α : Type} (d : Nat) (program : Nat → Run α) : Prop where
  steady : Steady program
  ends : ∀ m, m.depth = d → ∃ r m', Finishes program m r m' ∧ m'.depth = d

namespace Terminates

variable {α β : Type} {d : Nat}

theorem const {x : Run α}
    (h : ∀ m, ∃ r m', (x m).answer? = some (r, m') ∧ m'.depth = m.depth) :
    Terminates d fun _ => x := by
  refine ⟨.const x, fun m hm => ?_⟩
  obtain ⟨r, m', hx, hd⟩ := h m
  exact ⟨r, m', ⟨0, hx⟩, hd.trans hm⟩

theorem bind {program : Nat → Run α} {next : Nat → α → Run β} (h : Terminates d program)
    (hnext : ∀ a, Terminates d fun n => next n a) :
    Terminates d fun n => program n >>= next n := by
  refine ⟨h.steady.bind fun a => (hnext a).steady, fun m hm => ?_⟩
  obtain ⟨r, m', ⟨n₁, hr⟩, hd⟩ := h.ends m hm
  cases r with
  | error fault =>
      exact ⟨.error fault, m', ⟨n₁, Run.answer?_bind.mpr (Or.inr ⟨fault, hr, rfl⟩)⟩, hd⟩
  | ok a =>
      obtain ⟨r, m'', ⟨n₂, hr'⟩, hd'⟩ := (hnext a).ends m' hd
      have h₁ := h.steady.answer? (Nat.le_max_left n₁ n₂) hr
      have h₂ := (hnext a).steady.answer? (Nat.le_max_right n₁ n₂) hr'
      exact ⟨r, m'', ⟨max n₁ n₂, Run.answer?_bind.mpr (Or.inl ⟨a, m', h₁, h₂⟩)⟩, hd'⟩

theorem callPrimitive (p : Primitive) (args : List Value) :
    Terminates d fun _ => Evaluation.callPrimitive p args := by
  apply const
  intro m
  have hkept := effects_kept.callPrimitive p args m
  cases ho : p.operation.onArguments? args with
  | none =>
      have hrun := answer?_callPrimitive_none ho m
      exact ⟨_, _, hrun, (hkept _ _ hrun).depth⟩
  | some action =>
      have hrun := answer?_callPrimitive ho m
      exact ⟨_, _, hrun, (hkept _ _ hrun).depth⟩

/-- Ending is a property that every construct passes on. -/
def congruence (limits : Limits) (d : Nat) : Congruence fun _ : Nat => limits where
  Holds X := Terminates d X
  pure a := const fun m => ⟨_, m, rfl, rfl⟩
  fail fault _ := const fun m => ⟨_, m, rfl, rfl⟩
  bind h hnext := h.bind hnext
  lookup name := const fun m => ⟨_, m, rfl, rfl⟩
  named name := const fun m => ⟨_, m, rfl, rfl⟩
  registry := const fun m => ⟨_, m, rfl, rfl⟩
  record e _ := const fun m => ⟨_, m.record e, rfl, rfl⟩
  assign name value := const fun m =>
    ⟨_, m.set name value, rfl, (m.environment.kept_set name value).depth⟩
  register name parameters body := const fun m =>
    ⟨_, m.define name parameters body, rfl, rfl⟩
  primitive p args := callPrimitive p args
  pass n h := by
    cases limits.brokenByPass n with
    | none => exact h
    | some limit => exact const fun m => ⟨_, m, rfl, rfl⟩
  policy name registry h := by
    split
    · exact const fun m => ⟨_, m, rfl, rfl⟩
    · exact h

end Terminates

section Bounded

variable {limits : Limits} {L M : Nat} {d : Nat}

/-- With `left` passes left, a loop is done after as many more. -/
theorem terminates_passes (hM : limits.maxIterations = some M) {self : Nat → Value → Run Value}
    {test body : Value} (htest : Terminates d fun n => self n test)
    (hbody : Terminates d fun n => self n body) (left : Nat) :
    ∀ passes, M ≤ passes + left →
      Terminates d fun n => repeatWhile limits (self n) test body (n + left + 1) passes := by
  induction left with
  | zero =>
      intro passes hle
      apply htest.bind
      intro condition
      cases condition.isTruth with
      | false => exact .const fun m => ⟨_, m.record _, rfl, rfl⟩
      | true =>
          cases hb : limits.brokenByPass (passes + 1) with
          | none =>
              have hfits := Limits.brokenByPass_eq_none.mp hb M hM
              omega
          | some limit => exact .const fun m => ⟨_, m, rfl, rfl⟩
  | succ left ih =>
      intro passes hle
      have hrest := ih (passes + 1) (by omega)
      exact (Terminates.congruence limits d).repeatWhile_succ self (fun n => n + left + 1)
        htest hbody hrest

theorem terminates_repeatWhile (hM : limits.maxIterations = some M) {test body : Value}
    (htest : Terminates d (evaluate limits · test))
    (hbody : Terminates d (evaluate limits · body)) :
    Terminates d fun n => repeatWhile limits (evaluate limits n) test body n 0 := by
  have hpasses := terminates_passes hM htest hbody M 0 (by omega)
  refine ⟨?_, fun m hm => ?_⟩
  · intro n n' hle
    exact steady_repeatWhile limits (htest.steady n n' hle) (hbody.steady n n' hle) hle 0
  · obtain ⟨r, m', ⟨n, hr⟩, hd⟩ := hpasses.ends m hm
    have hle : n ≤ n + M + 1 := by omega
    obtain ⟨m₂, hr', rfl⟩ := steady_repeatWhile limits (htest.steady _ _ hle)
      (hbody.steady _ _ hle) (Nat.le_refl (n + M + 1)) 0 m m r m' rfl hr
    exact ⟨r, m', ⟨n + M + 1, hr'⟩, hd⟩

/-- A call ends if the bodies that it may still enter do: past the limit there are none. -/
theorem terminates_call (hL : limits.maxDepth = some L)
    (hdeeper : d < L → ∀ e, Terminates (d + 1) (evaluate limits · e)) (p : Procedure Value)
    (args : List Value) : Terminates d (call limits · p args) := by
  refine ⟨steady_call limits p args, fun m hm => ?_⟩
  by_cases hl : args.length = p.parameters.length
  · cases hb : limits.brokenByCall m.depth with
    | some limit =>
        exact ⟨_, m, ⟨0, answer?_callProcedure.mpr (Or.inr (Or.inl ⟨hl, limit, hb, rfl, rfl⟩))⟩, hm⟩
    | none =>
        have hlt : d < L := hm ▸ Limits.brokenByCall_eq_none.mp hb L hL
        have hin : (inCall p args m).depth = d + 1 := by rw [depth_inCall, hm]
        obtain ⟨r, n, ⟨fuel, hr⟩, hn⟩ := (hdeeper hlt p.body).ends _ hin
        have hrun := answer?_callProcedure.mpr (Or.inr (Or.inr ⟨hl, hb, n, hr, rfl⟩))
        refine ⟨r, n.pop, ⟨fuel, hrun⟩, ?_⟩
        rw [Machine.depth_pop, hn, Nat.add_sub_cancel]
  · exact ⟨_, m, ⟨0, answer?_callProcedure.mpr (Or.inl ⟨hl, rfl, rfl⟩)⟩, hm⟩

/-- Induction on the depth that is left, and within it on the expression. -/
theorem terminates_evaluate (hL : limits.maxDepth = some L) (hM : limits.maxIterations = some M)
    (left : Nat) : ∀ d, L - d = left → ∀ e, Terminates d (evaluate limits · e) := by
  induction left using Nat.strongRecOn with
  | ind left ih =>
      intro d hd e
      have hcall := terminates_call hL fun hlt : d < L => ih (L - (d + 1)) (by omega) (d + 1) rfl
      induction he : sizeOf e using Nat.strongRecOn generalizing e with
      | ind size ihe =>
          have hstep : Terminates d fun n => step limits n (evaluate limits n) e := by
            apply (Terminates.congruence limits d).step (evaluate limits) id hcall
            · rintro elements rfl x hx
              have hlt : sizeOf x < size := by
                have h₁ := List.sizeOf_lt_of_mem hx
                rw [← he, Value.list.sizeOf_spec]
                omega
              exact ihe (sizeOf x) hlt x rfl
            · intro test body htest hbody
              exact terminates_repeatWhile hM htest hbody
          refine ⟨steady_evaluate limits e, fun m hm => ?_⟩
          obtain ⟨r, m', ⟨n, hr⟩, hd'⟩ := hstep.ends m hm
          exact ⟨r, m', ⟨n + 1, hr⟩, hd'⟩

theorem evaluate_settles (hL : limits.maxDepth = some L) (hM : limits.maxIterations = some M)
    (e : Value) (m : Machine) :
    ∃ answer, Settles (fun fuel => (evaluate limits fuel e m).answer?) answer := by
  have h := terminates_evaluate hL hM (L - m.depth) m.depth rfl e
  obtain ⟨r, m', hf, _⟩ := h.ends m rfl
  exact ⟨(r, m'), h.steady.settles hf⟩

theorem session_evaluate_settles {s : Session} (hL : s.limits.maxDepth = some L)
    (hM : s.limits.maxIterations = some M) (e : Value) :
    ∃ result m', Settles (s.evaluate · e) (result, { s with machine := m' }) := by
  obtain ⟨⟨r, m'⟩, h⟩ := evaluate_settles hL hM e s.machine
  exact ⟨Session.flushed m'.sink.flush.1 r, m'.withSink m'.sink.flush.2, h.map _⟩

/-- Statement after statement: the limits stay, the machine is whatever the last one left. -/
theorem evaluateEach_settles (es : List Value) : ∀ s : Session, s.limits.maxDepth = some L →
    s.limits.maxIterations = some M → ∃ answer, Settles (s.evaluateEach · es) answer := by
  induction es with
  | nil =>
      intro s _ _
      exact ⟨([], s), .const _⟩
  | cons e es ih =>
      intro s hL hM
      obtain ⟨result, m', hfirst⟩ := session_evaluate_settles hL hM e
      obtain ⟨⟨results, s'⟩, hrest⟩ := ih { s with machine := m' } hL hM
      exact ⟨(result :: results, s'), hfirst.bind (hrest.bind (.const _))⟩

theorem evaluateText_settles {s : Session} (hL : s.limits.maxDepth = some L)
    (hM : s.limits.maxIterations = some M) (text : String) :
    ∃ answer, Settles (s.evaluateText · text) answer := by
  unfold Session.evaluateText
  cases Value.read text with
  | error cause => exact ⟨_, .const _⟩
  | ok e =>
      obtain ⟨result, m', h⟩ := session_evaluate_settles hL hM e
      exact ⟨_, h.map _⟩

theorem runProgram_settles {s : Session} (hL : s.limits.maxDepth = some L)
    (hM : s.limits.maxIterations = some M) (text : String) :
    ∃ answer, Settles (s.runProgram · text) answer := by
  unfold Session.runProgram
  cases Value.readAll text with
  | error cause => exact ⟨_, .const _⟩
  | ok forms =>
      obtain ⟨answer, h⟩ := evaluateEach_settles (Program.statements forms)
        (s.record (.runningStatements (Program.statements forms).length)) hL hM
      exact ⟨_, h.map _⟩

/-- Both bounds together make every evaluation end, from every machine, and with it every text and
every program of a session, whatever the session did before. -/
theorem bounded_runs_end {limits : Limits} {L M : Nat} (hL : limits.maxDepth = some L)
    (hM : limits.maxIterations = some M) :
    (∀ e m, ∃ answer, Settles (fun fuel => (evaluate limits fuel e m).answer?) answer) ∧
    ∀ s : Session, s.limits = limits → ∀ text,
      (∃ answer, Settles (s.evaluateText · text) answer) ∧
      ∃ answer, Settles (s.runProgram · text) answer := by
  refine ⟨evaluate_settles hL hM, ?_⟩
  rintro s rfl text
  exact ⟨evaluateText_settles hL hM text, runProgram_settles hL hM text⟩

/-- A procedure that replaces itself while it runs, by one that loops and calls it for ever. -/
theorem bounded_runs_end_replaced :
    ∃ answer, Settles ((Session.start ⟨some 9, some 7, true⟩ {} {}).runProgram ·
      "(DEFINE P () (BEGIN (DEFINE P () (WHILE T (P))) (P))) (P)") answer :=
  ((bounded_runs_end rfl rfl).2 (Session.start ⟨some 9, some 7, true⟩ {} {}) rfl _).2

end Bounded

end PocketLisp
