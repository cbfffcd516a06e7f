import PocketLisp.Proofs.Contents
import PocketLisp.Proofs.Simulation

/-!
# Journals make no difference

Nothing in the language reads the journal. Machines and sessions that differ in their journals at
most answer alike, and differ in their journals at most afterwards; so a run can be followed in a
journal without being disturbed. The contents of journals are not spoken of here.
-/

namespace PocketLisp

open Evaluation

/-- The machine with a new journal that is kept. -/
def Machine.withJournal (m : Machine) : Machine :=
  { m with journal := ⟨true, #[]⟩ }

theorem Machine.twin_withJournal (m : Machine) : m.Twin m.withJournal :=
  ⟨rfl, rfl, rfl⟩

theorem matching_twin : Matching Machine.Twin where
  lookup name h := h.lookup? name
  named name h := h.operatorNamed? name
  registry h := h.registry
  sink h := h.sink
  record e h := h.record e e
  set name value h := h.set name value
  define name parameters body h := h.define name parameters body
  print s h := h.withSink s

theorem twin_callProcedure (limits : Limits) {self : Value → Run Value} {p : Procedure Value}
    (hbody : (self p.body).Simulates Machine.Twin (self p.body)) (args : List Value) :
    (callProcedure limits self p args).Simulates Machine.Twin
      (callProcedure limits self p args) := by
  apply hbody.callProcedure
  · intro m₁ m₂ h
    unfold Machine.depth
    rw [h.environment]
  · exact fun h => h.inCall p args
  · exact fun h => h.pop

/-- Machines that differ in their journals evaluate alike. -/
theorem twin_evaluate (limits : Limits) (fuel : Nat) (e : Value) :
    (evaluate limits fuel e).Simulates Machine.Twin (evaluate limits fuel e) := by
  apply (matching_twin.congruence limits).evaluate
  · intro m₁ m₂ r m₁' _ hrun
    cases hrun
  · intro fuel p args hbody
    exact twin_callProcedure limits hbody args

namespace Session

theorem twin_record (s : Session) (event : Event) : (s.record event).Twin s :=
  ⟨rfl, s.machine.twin_record event⟩

namespace Twin

variable {s t : Session} (h : s.Twin t)

include h

theorem symm : t.Twin s :=
  ⟨h.limits.symm, h.machine.symm⟩

theorem trans {u : Session} (h' : t.Twin u) : s.Twin u :=
  ⟨h.limits.trans h'.limits, h.machine.trans h'.machine⟩

theorem record (event event' : Event) : (s.record event).Twin (t.record event') :=
  ⟨h.limits, h.machine.record event event'⟩

theorem evaluate {fuel : Nat} {e : Value} {result : Except Fault Value} {s' : Session}
    (hrun : s.evaluate fuel e = some (result, s')) :
    ∃ t', t.evaluate fuel e = some (result, t') ∧ s'.Twin t' := by
  obtain ⟨r, m', hanswer, rfl, rfl⟩ := evaluate_eq_some.mp hrun
  obtain ⟨n', hanswer', htwin⟩ := twin_evaluate s.limits fuel e _ _ r m' h.machine hanswer
  refine ⟨{ t with machine := n'.withSink m'.sink.flush.2 }, ?_, h.limits, htwin.withSink _⟩
  exact evaluate_eq_some.mpr
    ⟨r, n', h.limits ▸ hanswer', by rw [htwin.sink], by rw [htwin.sink]⟩

theorem evaluateEach {fuel : Nat} {es : List Value} {results : List (Except Fault Value)}
    {s' : Session} (hrun : s.evaluateEach fuel es = some (results, s')) :
    ∃ t', t.evaluateEach fuel es = some (results, t') ∧ s'.Twin t' := by
  induction es generalizing s t results with
  | nil =>
      cases hrun
      exact ⟨t, rfl, h⟩
  | cons e es ih =>
      obtain ⟨result, s₁, rest, hfirst, hrest, rfl⟩ := evaluateEach_cons.mp hrun
      obtain ⟨t₁, hfirst', htwin₁⟩ := h.evaluate hfirst
      obtain ⟨t₂, hrest', htwin₂⟩ := ih htwin₁ hrest
      exact ⟨t₂, evaluateEach_cons.mpr ⟨result, t₁, rest, hfirst', hrest', rfl⟩, htwin₂⟩

theorem runProgram {fuel : Nat} {text : String}
    {result : Except ReadError (List (Except Fault Value))} {s' : Session}
    (hrun : s.runProgram fuel text = some (result, s')) :
    ∃ t', t.runProgram fuel text = some (result, t') ∧ s'.Twin t' := by
  cases hread : Value.readAll text with
  | error cause =>
      rw [runProgram_of_unread hread] at hrun ⊢
      cases hrun
      exact ⟨t, rfl, h⟩
  | ok forms =>
      obtain ⟨results, hr, rfl⟩ := (runProgram_eq_some hread).mp hrun
      obtain ⟨t', hr', htwin⟩ := (h.record _ _).evaluateEach hr
      exact ⟨t', (runProgram_eq_some hread).mpr ⟨results, hr', rfl⟩, htwin⟩

theorem runs {text : String} {result : Except ReadError (List (Except Fault Value))} {s' : Session}
    (hruns : s.Runs text result s') : ∃ t', t.Runs text result t' ∧ s'.Twin t' := by
  obtain ⟨fuel, hrun⟩ := hruns
  obtain ⟨t', hrun', htwin⟩ := h.runProgram hrun
  exact ⟨t', ⟨fuel, hrun'⟩, htwin⟩

end Twin

end Session

end PocketLisp
