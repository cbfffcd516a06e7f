import PocketLisp.Proofs.Effects

/-!
# One run following another

Two runs under the same limits, from machines that no single action can tell apart, answer the
same. The first application is to fuel: more of it keeps every answer, so an answer does not depend
on the fuel that yields it. Whether there is an answer at all is not decided here.
-/

namespace PocketLisp

open Evaluation

/-- The two runs of a comparison. -/
inductive Side where
  | first
  | second

/-- One value for each side. -/
def Side.pick {α : Type} (a b : α) : Side → α
  | .first => a
  | .second => b

/-- From related machines, every answer of the first run is one of the second, and the machines are
related again. -/
def Run.Simulates {α : Type} (R : Machine → Machine → Prop) (x y : Run α) : Prop :=
  ∀ m₁ m₂ r m₁', R m₁ m₂ → (x m₁).answer? = some (r, m₁') →
    ∃ m₂', (y m₂).answer? = some (r, m₂') ∧ R m₁' m₂'

/-- No single action tells related machines apart, and every action leaves them related. -/
structure Matching (R : Machine → Machine → Prop) : Prop where
  lookup : ∀ {m₁ m₂} name, R m₁ m₂ → m₁.lookup? name = m₂.lookup? name
  named : ∀ {m₁ m₂} name, R m₁ m₂ → operatorNamed? m₁ name = operatorNamed? m₂ name
  registry : ∀ {m₁ m₂}, R m₁ m₂ → m₁.registry = m₂.registry
  sink : ∀ {m₁ m₂}, R m₁ m₂ → m₁.sink = m₂.sink
  record : ∀ {m₁ m₂} e, R m₁ m₂ → R (m₁.record e) (m₂.record e)
  set : ∀ {m₁ m₂} name value, R m₁ m₂ → R (m₁.set name value) (m₂.set name value)
  define : ∀ {m₁ m₂} name parameters body, R m₁ m₂ →
    R (m₁.define name parameters body) (m₂.define name parameters body)
  print : ∀ {m₁ m₂} s, R m₁ m₂ → R (m₁.withSink s) (m₂.withSink s)

namespace Matching

variable {R : Machine → Machine → Prop} (h : Matching R)

theorem bind {α β : Type} {x y : Run α} {f g : α → Run β} (hx : x.Simulates R y)
    (hf : ∀ a, (f a).Simulates R (g a)) : (x >>= f).Simulates R (y >>= g) := by
  intro m₁ m₂ r m₁'' hR hrun
  rcases Run.answer?_bind.mp hrun with ⟨a, m₁', ha, hb⟩ | ⟨fault, hfault, rfl⟩
  · obtain ⟨m₂', hy, hR'⟩ := hx m₁ m₂ _ m₁' hR ha
    obtain ⟨m₂'', hg, hR''⟩ := hf a m₁' m₂' r m₁'' hR' hb
    exact ⟨m₂'', Run.answer?_bind.mpr (Or.inl ⟨a, m₂', hy, hg⟩), hR''⟩
  · obtain ⟨m₂', hy, hR'⟩ := hx m₁ m₂ _ m₁'' hR hfault
    exact ⟨m₂', Run.answer?_bind.mpr (Or.inr ⟨fault, hy, rfl⟩), hR'⟩

theorem gets {α : Type} {f : Machine → α} (hf : ∀ {m₁ m₂}, R m₁ m₂ → f m₁ = f m₂) :
    (Run.gets f).Simulates R (Run.gets f) := by
  intro m₁ m₂ r m₁' hR hrun
  cases hrun
  exact ⟨m₂, by rw [Run.answer?_gets, hf hR], hR⟩

theorem modify {f : Machine → Machine} (hf : ∀ {m₁ m₂}, R m₁ m₂ → R (f m₁) (f m₂)) :
    (Run.modify f).Simulates R (Run.modify f) := by
  intro m₁ m₂ r m₁' hR hrun
  cases hrun
  exact ⟨f m₂, rfl, hf hR⟩

theorem fail {α : Type} (fault : Fault) :
    (Run.fail fault : Run α).Simulates R (Run.fail fault) := by
  intro m₁ m₂ r m₁' hR hrun
  cases hrun
  exact ⟨m₂, rfl, hR⟩

include h

theorem callPrimitive (p : Primitive) (args : List Value) :
    (Evaluation.callPrimitive p args).Simulates R (Evaluation.callPrimitive p args) := by
  intro m₁ m₂ r m₁' hR hrun
  cases ho : p.operation.onArguments? args with
  | none =>
      rw [answer?_callPrimitive_none ho] at hrun ⊢
      cases hrun
      exact ⟨m₂, rfl, hR⟩
  | some action =>
      rw [answer?_callPrimitive ho] at hrun ⊢
      cases hrun
      rw [← h.sink hR]
      exact ⟨_, rfl, h.record _ (h.print _ (h.record _ hR))⟩

/-- Answering alike is a property that every construct passes on. -/
def congruence (limits : Limits) : Congruence fun _ : Side => limits where
  Holds X := (X .first).Simulates R (X .second)
  pure a := by
    intro m₁ m₂ r m₁' hR hrun
    cases hrun
    exact ⟨m₂, rfl, hR⟩
  fail fault _ := fail fault
  bind hx hf := bind hx hf
  lookup name := gets fun hR => h.lookup name hR
  named name := gets fun hR => h.named name hR
  registry := gets fun hR => h.registry hR
  record e _ := modify fun hR => h.record e hR
  assign name value := modify fun hR => h.set name value hR
  register name parameters body := modify fun hR => h.define name parameters body hR
  primitive p args := h.callPrimitive p args
  pass n hx :=
    pass_of_fail (P := fun X => (X Side.first).Simulates R (X Side.second)) fail hx limits n
  policy name r hx :=
    policy_of_fail (P := fun X => (X Side.first).Simulates R (X Side.second)) fail hx limits name r

end Matching

theorem matching_eq : Matching Eq where
  lookup _ hR := by rw [hR]
  named _ hR := by rw [hR]
  registry hR := by rw [hR]
  sink hR := by rw [hR]
  record _ hR := by rw [hR]
  set _ _ hR := by rw [hR]
  define _ _ _ hR := by rw [hR]
  print _ hR := by rw [hR]

/-- More fuel keeps every answer. -/
def Steady {α : Type} (program : Nat → Run α) : Prop :=
  ∀ n n', n ≤ n' → (program n).Simulates Eq (program n')

namespace Steady

variable {α : Type} {program : Nat → Run α}

theorem answer? (h : Steady program) {n n' : Nat} (hle : n ≤ n') {m m' : Machine}
    {r : Except Fault α} (hrun : (program n m).answer? = some (r, m')) :
    (program n' m).answer? = some (r, m') := by
  obtain ⟨m₂, hm, rfl⟩ := h n n' hle m m r m' rfl hrun
  exact hm

/-- The answer of a program is its only one, whatever the fuel. -/
theorem finishes_unique (h : Steady program) {m m₁ m₂ : Machine} {r₁ r₂ : Except Fault α}
    (h₁ : Finishes program m r₁ m₁) (h₂ : Finishes program m r₂ m₂) : r₁ = r₂ ∧ m₁ = m₂ := by
  obtain ⟨n₁, h₁⟩ := h₁
  obtain ⟨n₂, h₂⟩ := h₂
  have e₁ := h.answer? (Nat.le_max_left n₁ n₂) h₁
  have e₂ := h.answer? (Nat.le_max_right n₁ n₂) h₂
  have he := Option.some.inj (e₁.symm.trans e₂)
  exact ⟨congrArg Prod.fst he, congrArg Prod.snd he⟩

theorem const (x : Run α) : Steady fun _ => x := by
  rintro n n' _ m₁ m₂ r m' rfl hrun
  exact ⟨m', hrun, rfl⟩

theorem bind {β : Type} (h : Steady program) {next : Nat → α → Run β}
    (hnext : ∀ a, Steady fun n => next n a) : Steady fun n => program n >>= next n :=
  fun n n' hle => Matching.bind (h n n' hle) fun a => hnext a n n' hle

end Steady

/-- Calls follow one another if their bodies do in the frames of the calls, where the machines may
be related in another way than outside. -/
theorem Run.Simulates.callProcedure {R Q : Machine → Machine → Prop} {limits : Limits}
    {self self' : Value → Run Value} {p : Procedure Value} {args : List Value}
    (hbody : (self p.body).Simulates Q (self' p.body))
    (hbroken : ∀ {m₁ m₂}, R m₁ m₂ → limits.brokenByCall m₁.depth = limits.brokenByCall m₂.depth)
    (hcall : ∀ {m₁ m₂}, R m₁ m₂ → Q (inCall p args m₁) (inCall p args m₂))
    (hpop : ∀ {m₁ m₂ : Machine}, Q m₁ m₂ → R m₁.pop m₂.pop) :
    (Evaluation.callProcedure limits self p args).Simulates R
      (Evaluation.callProcedure limits self' p args) := by
  intro m₁ m₂ r m₁' hR hrun
  rcases answer?_callProcedure.mp hrun with
    ⟨hl, rfl, rfl⟩ | ⟨hl, limit, hb, rfl, rfl⟩ | ⟨hl, hb, n₁, hn, rfl⟩
  · exact ⟨m₂, answer?_callProcedure.mpr (Or.inl ⟨hl, rfl, rfl⟩), hR⟩
  · rw [hbroken hR] at hb
    exact ⟨m₂, answer?_callProcedure.mpr (Or.inr (Or.inl ⟨hl, limit, hb, rfl, rfl⟩)), hR⟩
  · rw [hbroken hR] at hb
    obtain ⟨n₂, hn₂, hQ⟩ := hbody _ _ r n₁ (hcall hR) hn
    exact ⟨n₂.pop, answer?_callProcedure.mpr (Or.inr (Or.inr ⟨hl, hb, n₂, hn₂, rfl⟩)), hpop hQ⟩

theorem simulates_callProcedure (limits : Limits) {self self' : Value → Run Value}
    {p : Procedure Value} (hbody : (self p.body).Simulates Eq (self' p.body)) (args : List Value) :
    (callProcedure limits self p args).Simulates Eq (callProcedure limits self' p args) :=
  hbody.callProcedure (fun h => by rw [h]) (fun h => by rw [h]) (fun h => by rw [h])

theorem steady_repeatWhile (limits : Limits) {self self' : Value → Run Value} {test body : Value}
    (htest : (self test).Simulates Eq (self' test))
    (hbody : (self body).Simulates Eq (self' body)) {n n' : Nat} (hle : n ≤ n') (passes : Nat) :
    (repeatWhile limits self test body n passes).Simulates Eq
      (repeatWhile limits self' test body n' passes) := by
  induction n generalizing n' passes with
  | zero =>
      intro m₁ m₂ r m' _ hrun
      cases hrun
  | succ n ih =>
      cases n' with
      | zero => omega
      | succ n' =>
          have hrest := ih (Nat.le_of_succ_le_succ hle) (passes + 1)
          exact (matching_eq.congruence limits).repeatWhile_succ (Side.pick self self')
            (Side.pick n n') htest hbody hrest

/-- One level of evaluation keeps its answers if the parts do and there is more fuel for loops. -/
theorem steady_step (limits : Limits) {self self' : Value → Run Value}
    (hself : ∀ e, (self e).Simulates Eq (self' e)) {n n' : Nat} (hle : n ≤ n') (e : Value) :
    (step limits n self e).Simulates Eq (step limits n' self' e) :=
  (matching_eq.congruence limits).step (Side.pick self self') (Side.pick n n')
    (fun p args => simulates_callProcedure limits (hself p.body) args)
    (fun _ _ x _ => hself x)
    (fun _ _ htest hbody => steady_repeatWhile limits htest hbody hle 0)

/-- A finished evaluation is finished at every larger amount of fuel. -/
theorem steady_evaluate (limits : Limits) (e : Value) : Steady (evaluate limits · e) := by
  intro n
  induction n generalizing e with
  | zero =>
      intro n' _ m₁ m₂ r m' _ hrun
      cases hrun
  | succ n ih =>
      intro n' hle
      cases n' with
      | zero => omega
      | succ n' =>
          have hself : ∀ x, (evaluate limits n x).Simulates Eq (evaluate limits n' x) :=
            fun x => ih x n' (Nat.le_of_succ_le_succ hle)
          exact steady_step limits hself (Nat.le_of_succ_le_succ hle) e

theorem steady_call (limits : Limits) (p : Procedure Value) (args : List Value) :
    Steady (call limits · p args) :=
  fun n n' hle => simulates_callProcedure limits (steady_evaluate limits p.body n n' hle) args

end PocketLisp
