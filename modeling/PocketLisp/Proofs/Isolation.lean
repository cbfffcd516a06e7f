import PocketLisp.Proofs.CallStack
import PocketLisp.Proofs.Simulation

/-!
# A callee is isolated from its caller

There is no dynamic scoping: what a call answers, prints, assigns and defines is decided by the
globals, the registry and the sink, not by the frames of the calls around it. The height of the
stack counts only where a limit is set on it. Journals may differ; they record the height.
-/

namespace PocketLisp

open Evaluation

/-- The machines agree on all that a called procedure can reach. Their frames may differ, and their
numbers of frames too if no limit looks at them. -/
structure SameWorld (limits : Limits) (m₁ m₂ : Machine) : Prop where
  globals : m₁.environment.globals = m₂.environment.globals
  registry : m₁.registry = m₂.registry
  sink : m₁.sink = m₂.sink
  depth : limits.maxDepth = none ∨ m₁.depth = m₂.depth

/-- The machines agree on all that an expression can reach: the innermost frame as well. -/
structure Alike (limits : Limits) (m₁ m₂ : Machine) : Prop extends SameWorld limits m₁ m₂ where
  innermost : m₁.environment.calls.head? = m₂.environment.calls.head?

theorem SameWorld.brokenByCall {limits : Limits} {m₁ m₂ : Machine} (h : SameWorld limits m₁ m₂) :
    limits.brokenByCall m₁.depth = limits.brokenByCall m₂.depth := by
  rcases h.depth with hnone | hd
  · unfold Limits.brokenByCall
    rw [hnone, Option.filter_none, Option.filter_none]
  · rw [hd]

/-- The bodies of the two calls start alike: in frames made of the arguments. -/
theorem SameWorld.inCall {limits : Limits} {m₁ m₂ : Machine} (h : SameWorld limits m₁ m₂)
    (p : Procedure Value) (args : List Value) :
    Alike limits (inCall p args m₁) (inCall p args m₂) where
  globals := h.globals
  registry := h.registry
  sink := h.sink
  depth := by
    rcases h.depth with hnone | hd
    · exact Or.inl hnone
    · rw [depth_inCall, depth_inCall, hd]
      exact Or.inr rfl
  innermost := rfl

theorem SameWorld.pop {limits : Limits} {m₁ m₂ : Machine} (h : SameWorld limits m₁ m₂) :
    SameWorld limits m₁.pop m₂.pop where
  globals := h.globals
  registry := h.registry
  sink := h.sink
  depth := by
    rcases h.depth with hnone | hd
    · exact Or.inl hnone
    · rw [Machine.depth_pop, Machine.depth_pop, hd]
      exact Or.inr rfl

theorem SameWorld.depth_of_kept {limits : Limits} {m₁ m₂ m₁' m₂' : Machine}
    (h : SameWorld limits m₁ m₂) (h₁ : m₁.environment.Kept m₁'.environment)
    (h₂ : m₂.environment.Kept m₂'.environment) :
    limits.maxDepth = none ∨ m₁'.depth = m₂'.depth := by
  rcases h.depth with hnone | hd
  · exact Or.inl hnone
  · right
    calc m₁'.depth = m₁.depth := h₁.depth
      _ = m₂.depth := hd
      _ = m₂'.depth := h₂.depth.symm

/-- An assignment looks at the innermost frame only. -/
theorem Alike.set {limits : Limits} {m₁ m₂ : Machine} (h : Alike limits m₁ m₂) (name : Symbol)
    (value : Value) : Alike limits (m₁.set name value) (m₂.set name value) := by
  have hdepth := h.depth_of_kept (effects_kept.set m₁ name value) (effects_kept.set m₂ name value)
  have hinner := h.innermost
  have hglobals := h.globals
  obtain ⟨⟨globals₁, calls₁⟩, registry₁, sink₁, journal₁⟩ := m₁
  obtain ⟨⟨globals₂, calls₂⟩, registry₂, sink₂, journal₂⟩ := m₂
  cases hglobals
  cases calls₁ with
  | nil =>
      cases calls₂ with
      | nil => exact ⟨⟨rfl, h.registry, h.sink, hdepth⟩, rfl⟩
      | cons frame₂ outer₂ => cases hinner
  | cons frame outer₁ =>
      cases calls₂ with
      | nil => cases hinner
      | cons frame₂ outer₂ =>
          cases hinner
          refine ⟨⟨?_, h.registry, h.sink, hdepth⟩, ?_⟩
          · simp only [Machine.set, Environment.set]
            split <;> rfl
          · simp only [Machine.set, Environment.set]
            split <;> rfl

theorem matching_alike (limits : Limits) : Matching (Alike limits) where
  lookup name h := Machine.lookup?_congr name h.globals h.innermost h.registry
  named name h := Machine.operatorNamed?_congr name h.globals h.innermost h.registry
  registry h := h.registry
  sink h := h.sink
  record _ h := ⟨⟨h.globals, h.registry, h.sink, h.depth⟩, h.innermost⟩
  set name value h := h.set name value
  define name parameters body h := by
    refine ⟨⟨h.globals, ?_, h.sink, h.depth⟩, h.innermost⟩
    unfold Machine.define
    rw [h.registry]
  print _ h := ⟨⟨h.globals, h.registry, rfl, h.depth⟩, h.innermost⟩

/-- Callers that share the world see the same call, if the body cannot tell its two frames apart. -/
theorem sameWorld_call {limits : Limits} {fuel : Nat} {p : Procedure Value}
    (hbody : (evaluate limits fuel p.body).Simulates (Alike limits) (evaluate limits fuel p.body))
    (args : List Value) :
    (call limits fuel p args).Simulates (SameWorld limits) (call limits fuel p args) :=
  hbody.callProcedure (fun hw => hw.brokenByCall) (fun hw => hw.inCall p args)
    (fun halike => halike.toSameWorld.pop)

/-- Alike machines answer alike. After a call they are alike again because each caller gets its own
frames back. -/
theorem alike_evaluate (limits : Limits) (fuel : Nat) (e : Value) :
    (evaluate limits fuel e).Simulates (Alike limits) (evaluate limits fuel e) := by
  apply ((matching_alike limits).congruence limits).evaluate
  · intro m₁ m₂ r m₁' _ hrun
    cases hrun
  · intro fuel p args hbody m₁ m₂ r m₁' h hrun
    obtain ⟨m₂', hrun₂, hw⟩ := sameWorld_call hbody args m₁ m₂ r m₁' h.toSameWorld hrun
    refine ⟨m₂', hrun₂, hw, ?_⟩
    rw [(undisturbed_callProcedure hrun).calls, (undisturbed_callProcedure hrun₂).calls]
    exact h.innermost

/-- Of two callers with the same globals, registry and sink, and as many calls in progress where
the depth is limited, the one finishes a call exactly as the other does, and both keep the frames
they had. -/
theorem callee_isolated (limits : Limits) (p : Procedure Value) (args : List Value)
    (globals : Frame) (registry : Registry) (sink : Sink) (calls₁ calls₂ : List Frame)
    (journal₁ journal₂ : Journal)
    (hd : limits.maxDepth = none ∨ calls₁.length = calls₂.length)
    {r : Except Fault Value} {m₁' : Machine}
    (h : Finishes (call limits · p args) ⟨⟨globals, calls₁⟩, registry, sink, journal₁⟩ r m₁') :
    ∃ m₂', Finishes (call limits · p args) ⟨⟨globals, calls₂⟩, registry, sink, journal₂⟩ r m₂' ∧
      m₂'.environment.globals = m₁'.environment.globals ∧ m₂'.registry = m₁'.registry ∧
      m₂'.sink = m₁'.sink ∧ m₁'.environment.calls = calls₁ ∧ m₂'.environment.calls = calls₂ := by
  obtain ⟨fuel, hrun⟩ := h
  have hw : SameWorld limits ⟨⟨globals, calls₁⟩, registry, sink, journal₁⟩
      ⟨⟨globals, calls₂⟩, registry, sink, journal₂⟩ := ⟨rfl, rfl, rfl, hd⟩
  obtain ⟨m₂', hrun₂, hw'⟩ :=
    sameWorld_call (alike_evaluate limits fuel p.body) args _ _ r m₁' hw hrun
  exact ⟨m₂', ⟨fuel, hrun₂⟩, hw'.globals.symm, hw'.registry.symm, hw'.sink.symm,
    (undisturbed_callProcedure hrun).calls, (undisturbed_callProcedure hrun₂).calls⟩

/-- `(DEFINE P (X) (SET Y X))` -/
def assigner : Procedure Value :=
  ⟨0, "P", ["X"], .list [.symbol "SET", .symbol "Y", .symbol "X"]⟩

/-- One caller has a variable `Y` of its own, the other has none: both times the global is set. -/
theorem callee_isolated_assigner :
    ∃ m₁' m₂',
      Finishes (call {} · assigner [.null]) ⟨⟨⟨[]⟩, [⟨[("Y", .truth)]⟩]⟩, .empty, {}, {}⟩
        (.ok .null) m₁' ∧
      Finishes (call {} · assigner [.null]) ⟨⟨⟨[]⟩, [⟨[("X", .truth)]⟩]⟩, .empty, {}, {}⟩
        (.ok .null) m₂' ∧
      m₁'.environment.globals = ⟨[("Y", .null)]⟩ ∧
      m₂'.environment.globals = ⟨[("Y", .null)]⟩ := by
  have h₁ : Finishes (call {} · assigner [.null]) ⟨⟨⟨[]⟩, [⟨[("Y", .truth)]⟩]⟩, .empty, {}, {}⟩
      (.ok .null) ⟨⟨⟨[("Y", .null)]⟩, [⟨[("Y", .truth)]⟩]⟩, .empty, {}, {}⟩ := ⟨2, rfl⟩
  obtain ⟨m₂', h₂, hglobals, _⟩ := callee_isolated {} assigner [.null] ⟨[]⟩ .empty {}
    [⟨[("Y", .truth)]⟩] [⟨[("X", .truth)]⟩] {} {} (Or.inr rfl) h₁
  exact ⟨_, m₂', h₁, h₂, rfl, hglobals⟩

end PocketLisp
