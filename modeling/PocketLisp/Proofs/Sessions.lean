import PocketLisp.Proofs.Simulation

/-!
# Histories of sessions

What a session answers does not depend on the fuel that yields the answer. One session leads to
another by texts and programs given in any order, failing or not. Whatever every run respects is
respected by every history, and the limits of a session never change.
-/

namespace PocketLisp

namespace Session

/-- The sessions that texts and programs given one after the other lead to. -/
inductive Reaches (s : Session) : Session → Prop
  | refl : Reaches s s
  | text {s' s'' : Session} {fuel : Nat} {text : String} {result : Except Failure Value} :
      Reaches s s' → s'.evaluateText fuel text = some (result, s'') → Reaches s s''
  | program {s' s'' : Session} {fuel : Nat} {text : String}
      {result : Except ReadError (List (Except Fault Value))} :
      Reaches s s' → s'.runProgram fuel text = some (result, s'') → Reaches s s''

theorem evaluate_eq_some {fuel : Nat} {s s' : Session} {e : Value} {result : Except Fault Value} :
    s.evaluate fuel e = some (result, s') ↔
      ∃ r m', (PocketLisp.evaluate s.limits fuel e s.machine).answer? = some (r, m') ∧
        result = flushed m'.sink.flush.1 r ∧
          s' = { s with machine := m'.withSink m'.sink.flush.2 } := by
  unfold evaluate
  rw [Option.map_eq_some_iff]
  constructor
  · rintro ⟨⟨r, m'⟩, h, he⟩
    cases he
    exact ⟨r, m', h, rfl, rfl⟩
  · rintro ⟨r, m', h, rfl, rfl⟩
    exact ⟨(r, m'), h, rfl⟩

/-- Expressions are evaluated from the first on. -/
theorem evaluateEach_cons {fuel : Nat} {s s'' : Session} {e : Value} {es : List Value}
    {results : List (Except Fault Value)} :
    s.evaluateEach fuel (e :: es) = some (results, s'') ↔
      ∃ result s' rest, s.evaluate fuel e = some (result, s') ∧
        s'.evaluateEach fuel es = some (rest, s'') ∧ results = result :: rest := by
  simp only [evaluateEach, Option.bind_eq_bind, Option.bind_eq_some_iff]
  constructor
  · rintro ⟨⟨result, s'⟩, hfirst, ⟨rest, t⟩, hrest, he⟩
    cases he
    exact ⟨result, s', rest, hfirst, hrest, rfl⟩
  · rintro ⟨result, s', rest, hfirst, hrest, rfl⟩
    exact ⟨(result, s'), hfirst, (rest, s''), hrest, rfl⟩

theorem runProgram_of_unread {text : String} {cause : ReadError}
    (hread : Value.readAll text = .error cause) (fuel : Nat) (s : Session) :
    s.runProgram fuel text = some (.error cause, s) := by
  unfold runProgram
  rw [hread]

/-- A program that reads answers what its statements answer, one after the other. -/
theorem runProgram_eq_some {text : String} {forms : List Value}
    (hread : Value.readAll text = .ok forms) {fuel : Nat} {s s' : Session}
    {result : Except ReadError (List (Except Fault Value))} :
    s.runProgram fuel text = some (result, s') ↔
      ∃ results, (s.record (.runningStatements (Program.statements forms).length)).evaluateEach fuel
        (Program.statements forms) = some (results, s') ∧ result = .ok results := by
  unfold runProgram
  rw [hread]
  constructor
  · intro h
    obtain ⟨⟨results, t⟩, hr, he⟩ := Option.map_eq_some_iff.mp h
    cases he
    exact ⟨results, hr, rfl⟩
  · rintro ⟨results, hr, rfl⟩
    exact Option.map_eq_some_iff.mpr ⟨(results, s'), hr, rfl⟩

theorem evaluate_mono {n n' : Nat} (hle : n ≤ n') {s s' : Session} {e : Value}
    {result : Except Fault Value} (h : s.evaluate n e = some (result, s')) :
    s.evaluate n' e = some (result, s') := by
  obtain ⟨r, m', hr, rfl, rfl⟩ := evaluate_eq_some.mp h
  exact evaluate_eq_some.mpr ⟨r, m', (steady_evaluate s.limits e).answer? hle hr, rfl, rfl⟩

theorem evaluateEach_mono {n n' : Nat} (hle : n ≤ n') {s s' : Session} {es : List Value}
    {results : List (Except Fault Value)} (h : s.evaluateEach n es = some (results, s')) :
    s.evaluateEach n' es = some (results, s') := by
  induction es generalizing s results with
  | nil => exact h
  | cons e es ih =>
      obtain ⟨result, t, rest, hfirst, hrest, rfl⟩ := evaluateEach_cons.mp h
      exact evaluateEach_cons.mpr ⟨result, t, rest, evaluate_mono hle hfirst, ih hrest, rfl⟩

theorem runProgram_mono {n n' : Nat} (hle : n ≤ n') {s s' : Session} {text : String}
    {result : Except ReadError (List (Except Fault Value))}
    (h : s.runProgram n text = some (result, s')) : s.runProgram n' text = some (result, s') := by
  cases hread : Value.readAll text with
  | error cause =>
      rw [runProgram_of_unread hread] at h ⊢
      exact h
  | ok forms =>
      obtain ⟨results, hr, rfl⟩ := (runProgram_eq_some hread).mp h
      exact (runProgram_eq_some hread).mpr ⟨results, evaluateEach_mono hle hr, rfl⟩

/-- Some amount of fuel lets the session answer, and leave the other session. -/
def Runs (s : Session) (text : String) (result : Except ReadError (List (Except Fault Value)))
    (s' : Session) : Prop :=
  ∃ fuel, s.runProgram fuel text = some (result, s')

end Session

namespace Effects

variable {R : Machine → Machine → Prop} (h : Effects R)

include h

theorem session_evaluate {fuel : Nat} {s s' : Session} {e : Value} {result : Except Fault Value}
    (hrun : s.evaluate fuel e = some (result, s')) :
    s'.limits = s.limits ∧ R s.machine s'.machine := by
  obtain ⟨r, m', hr, _, rfl⟩ := Session.evaluate_eq_some.mp hrun
  exact ⟨rfl, h.trans (h.evaluate _ _ _ _ _ _ hr) (h.print m' _ (.refl _))⟩

theorem evaluateEach {fuel : Nat} {es : List Value} {s s' : Session}
    {results : List (Except Fault Value)} (hrun : s.evaluateEach fuel es = some (results, s')) :
    s'.limits = s.limits ∧ R s.machine s'.machine := by
  induction es generalizing s results with
  | nil =>
      cases hrun
      exact ⟨rfl, h.refl _⟩
  | cons e es ih =>
      obtain ⟨result, t, rest, hfirst, hrest, rfl⟩ := Session.evaluateEach_cons.mp hrun
      have h₁ := h.session_evaluate hfirst
      have h₂ := ih hrest
      exact ⟨h₂.1.trans h₁.1, h.trans h₁.2 h₂.2⟩

theorem evaluateText {fuel : Nat} {text : String} {s s' : Session}
    {result : Except Session.Failure Value}
    (hrun : s.evaluateText fuel text = some (result, s')) :
    s'.limits = s.limits ∧ R s.machine s'.machine := by
  unfold Session.evaluateText at hrun
  split at hrun
  · cases hrun
    exact ⟨rfl, h.refl _⟩
  · rw [Option.map_eq_some_iff] at hrun
    obtain ⟨⟨r, t⟩, hr, he⟩ := hrun
    cases he
    exact h.session_evaluate hr

theorem runProgram {fuel : Nat} {text : String} {s s' : Session}
    {result : Except ReadError (List (Except Fault Value))}
    (hrun : s.runProgram fuel text = some (result, s')) :
    s'.limits = s.limits ∧ R s.machine s'.machine := by
  unfold Session.runProgram at hrun
  split at hrun
  · cases hrun
    exact ⟨rfl, h.refl _⟩
  · rw [Option.map_eq_some_iff] at hrun
    obtain ⟨⟨r, t⟩, hr, he⟩ := hrun
    cases he
    have hs := h.evaluateEach hr
    exact ⟨hs.1, h.trans (h.record _ _) hs.2⟩

/-- What every run respects holds between the ends of every history. -/
theorem reaches {s s' : Session} (hs : s.Reaches s') :
    s'.limits = s.limits ∧ R s.machine s'.machine := by
  induction hs with
  | refl => exact ⟨rfl, h.refl _⟩
  | text _ hrun ih =>
      have hlast := h.evaluateText hrun
      exact ⟨hlast.1.trans ih.1, h.trans ih.2 hlast.2⟩
  | program _ hrun ih =>
      have hlast := h.runProgram hrun
      exact ⟨hlast.1.trans ih.1, h.trans ih.2 hlast.2⟩

end Effects

end PocketLisp
