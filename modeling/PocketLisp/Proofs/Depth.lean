import PocketLisp.Proofs.Faults
import PocketLisp.Proofs.Journals
import PocketLisp.Proofs.Timeline

/-!
# The depth limit

At every moment of an evaluation there are at least as many calls in progress as at its start, and
no more than the limit allows; that holds of evaluations that fail and of those that never end, too.
The fault of the limit is raised only after a call has been entered as the last one allowed, unless
the evaluation started inside of that many calls. Nothing is said about how deep calls get when the
limit is not reached.
-/

namespace PocketLisp

open Evaluation

/-- In the course of the evaluation a call is entered as the `n`-th one in progress: a journal that
starts with the evaluation shows it at some moment. -/
def Enters (limits : Limits) (e : Value) (m : Machine) (n : Nat) : Prop :=
  ComesUp (fun moment => .pushed n ∈ moment.machine.journal.events) limits e m.withJournal

namespace Machine

/-- The calls in progress are between those at the start and the limit, and so are the calls that
have been entered since. -/
structure Within (start : Machine) (limit : Nat) (m : Machine) : Prop where
  above : start.depth ≤ m.depth
  below : m.depth ≤ limit
  entered : ∀ n, .pushed n ∈ m.journal.events →
    .pushed n ∈ start.journal.events ∨ (start.depth < n ∧ n ≤ limit)

/-- The second machine is in as many calls as the first, and its journal shows what was shown. -/
structure Resumes (m m' : Machine) : Prop where
  depth : m'.depth = m.depth
  kept : m'.journal.kept = m.journal.kept
  shown : ∀ e, e ∈ m.journal.events → e ∈ m'.journal.events

namespace Within

variable {start m m' : Machine} {limit : Nat}

theorem refl (h : start.depth ≤ limit) : start.Within limit start :=
  ⟨Nat.le_refl _, h, fun _ hn => Or.inl hn⟩

theorem congr (h : start.Within limit m) (hdepth : m'.depth = m.depth)
    (hjournal : m'.journal = m.journal) : start.Within limit m' :=
  ⟨hdepth ▸ h.above, hdepth ▸ h.below, hjournal ▸ h.entered⟩

theorem record (h : start.Within limit m) {e : Event}
    (he : ∀ n, e = .pushed n → start.depth < n ∧ n ≤ limit) :
    start.Within limit (m.record e) := by
  refine ⟨h.above, h.below, ?_⟩
  intro n hn
  rcases Journal.mem_record hn with hn | heq
  · exact h.entered n hn
  · exact Or.inr (he n heq.symm)

/-- A call that the limit does not forbid. -/
theorem inCall (h : start.Within limit m) (hfree : m.depth < limit) (p : Procedure Value)
    (args : List Value) : start.Within limit (inCall p args m) := by
  have habove := h.above
  have hpushed : start.Within limit
      ((m.record (.calling p.name args)).record (.pushed (m.depth + 1))) := by
    have hcalling := h.record (e := .calling p.name args) fun _ heq => by cases heq
    apply hcalling.record
    rintro n ⟨⟩
    omega
  exact ⟨Nat.le_succ_of_le habove, hfree, hpushed.entered⟩

end Within

namespace Resumes

variable {m m' m'' : Machine}

theorem congr (hdepth : m'.depth = m.depth) (hjournal : m'.journal = m.journal) : m.Resumes m' :=
  ⟨hdepth, by rw [hjournal], fun _ he => hjournal ▸ he⟩

theorem trans (h : m.Resumes m') (h' : m'.Resumes m'') : m.Resumes m'' :=
  ⟨h'.depth.trans h.depth, h'.kept.trans h.kept, fun e he => h'.shown e (h.shown e he)⟩

theorem record (m : Machine) (event : Event) : m.Resumes (m.record event) :=
  ⟨rfl, m.kept_record event, fun _ he => mem_events_record he⟩

/-- After a call the caller goes on. -/
theorem pop {p : Procedure Value} {args : List Value} (h : (inCall p args m).Resumes m') :
    m.Resumes m'.pop := by
  have hrecorded := (record m (.calling p.name args)).trans (record _ (.pushed (m.depth + 1)))
  refine ⟨?_, h.kept.trans hrecorded.kept, fun e he => h.shown e (hrecorded.shown e he)⟩
  rw [depth_pop, h.depth, depth_inCall, Nat.add_sub_cancel]

end Resumes

theorem depth_set (m : Machine) (name : Symbol) (v : Value) : (m.set name v).depth = m.depth :=
  (m.environment.kept_set name v).depth

end Machine

/-- What is known of an answer. Where the fault is that of the limit, a call has been entered at the
limit since, if the run did not start there. -/
structure Run.Answered {α : Type} (start : Machine) (limit : Nat) (m : Machine)
    (r : Except Fault α) (m' : Machine) : Prop where
  within : start.Within limit m'
  resumes : m.Resumes m'
  reached : ∀ n, r = .error (.recursionLimit n) → m.depth < limit → m.journal.kept = true →
    .pushed limit ∈ m'.journal.events

/-- The first run does what the second does, and that stays within the limit. -/
def Run.Bounded {α : Type} (start : Machine) (limit : Nat) (x y : Run α) : Prop :=
  ∀ m, start.Within limit m →
    x m = y m ∧ ∀ r m', (y m).answer? = some (r, m') → Run.Answered start limit m r m'

namespace Run

variable {α β : Type} {start m m' : Machine} {limit : Nat}

theorem Answered.after {m'' : Machine} {r : Except Fault α}
    (h : Answered start limit m' r m'') (hbefore : m.Resumes m') :
    Answered start limit m r m'' := by
  refine ⟨h.within, hbefore.trans h.resumes, ?_⟩
  intro n hr hfree hkept
  exact h.reached n hr (hbefore.depth ▸ hfree) (hbefore.kept ▸ hkept)

namespace Bounded

theorem of_answers {x : Run α} (h : ∀ m r m', start.Within limit m →
    (x m).answer? = some (r, m') → Answered start limit m r m') : x.Bounded start limit x :=
  fun m hm => ⟨rfl, fun r m' hrun => h m r m' hm hrun⟩

theorem modify {f : Machine → Machine}
    (hwithin : ∀ m, start.Within limit m → start.Within limit (f m))
    (hresumes : ∀ m : Machine, m.Resumes (f m)) :
    (Run.modify f).Bounded start limit (Run.modify f) := by
  apply of_answers
  intro m r m' hm hrun
  cases hrun
  exact ⟨hwithin m hm, hresumes m, nofun⟩

theorem gets (f : Machine → α) : (Run.gets f).Bounded start limit (Run.gets f) := by
  apply of_answers
  intro m r m' hm hrun
  cases hrun
  exact ⟨hm, .congr rfl rfl, nofun⟩

theorem fail {fault : Fault} (hfault : ∀ n, fault ≠ .recursionLimit n) :
    (Run.fail fault : Run α).Bounded start limit (Run.fail fault) := by
  apply of_answers
  intro m r m' hm hrun
  cases hrun
  refine ⟨hm, .congr rfl rfl, ?_⟩
  rintro n ⟨⟩
  exact absurd rfl (hfault n)

theorem note {event : Event} (hevent : ∀ n, event ≠ .pushed n) :
    (Run.record event).Bounded start limit (Run.record event) := by
  apply modify
  · intro m hm
    exact hm.record fun n hn => absurd hn (hevent n)
  · exact fun m => .record m event

theorem bind {x y : Run α} {f g : α → Run β} (hx : x.Bounded start limit y)
    (hf : ∀ a, (f a).Bounded start limit (g a)) : (x >>= f).Bounded start limit (y >>= g) := by
  intro m hm
  obtain ⟨hsame, hanswer⟩ := hx m hm
  rw [Run.bind_apply, Run.bind_apply, hsame]
  cases hy : y m with
  | returned a m' =>
      have hfirst := hanswer (.ok a) m' (by rw [hy]; rfl)
      obtain ⟨hsame', hanswer'⟩ := hf a m' hfirst.within
      exact ⟨hsame', fun r m'' hrun => (hanswer' r m'' hrun).after hfirst.resumes⟩
  | failed fault m' =>
      have hfirst := hanswer (.error fault) m' (by rw [hy]; rfl)
      refine ⟨rfl, ?_⟩
      intro r m'' hrun
      cases hrun
      refine ⟨hfirst.within, hfirst.resumes, ?_⟩
      rintro n ⟨⟩
      exact hfirst.reached n rfl
  | exhausted => exact ⟨rfl, nofun⟩

theorem callPrimitive (p : Primitive) (args : List Value) :
    (Evaluation.callPrimitive p args).Bounded start limit (Evaluation.callPrimitive p args) := by
  apply of_answers
  intro m r m' hm hrun
  cases ho : p.operation.onArguments? args with
  | none =>
      rw [answer?_callPrimitive_none ho] at hrun
      cases hrun
      exact ⟨hm, .congr rfl rfl, nofun⟩
  | some action =>
      rw [answer?_callPrimitive ho] at hrun
      cases hrun
      have hreported : ∀ n, reported p (action m.sink).1 ≠ .pushed n := by
        cases (action m.sink).1 with
        | ok v => exact nofun
        | error fault => exact nofun
      have hcalling := hm.record (e := .calling p.name args) fun _ heq => by cases heq
      have hprinted : start.Within limit
          ((m.record (.calling p.name args)).withSink (action m.sink).2) := hcalling.congr rfl rfl
      have hresumes : m.Resumes ((m.record (.calling p.name args)).withSink (action m.sink).2) :=
        (Machine.Resumes.record m _).trans (.congr rfl rfl)
      refine ⟨?_, hresumes.trans (.record _ _), ?_⟩
      · exact hprinted.record fun n hn => absurd hn (hreported n)
      · intro n hfault
        cases Operation.isRestriction_of_onArguments? p.unrestricted_operation ho hfault

/-- A call stays within the limit if its body does. -/
theorem callProcedure {limits : Limits} (hlimits : limits.maxDepth = some limit)
    {self self' : Value → Run Value} {p : Procedure Value}
    (hbody : (self p.body).Bounded start limit (self' p.body)) (args : List Value) :
    (Evaluation.callProcedure limits self p args).Bounded start limit
      (Evaluation.callProcedure limits self' p args) := by
  intro m hm
  have hfree : limits.brokenByCall m.depth = none → m.depth < limit :=
    fun hbroken => Limits.brokenByCall_eq_none.mp hbroken limit hlimits
  refine ⟨callProcedure_congr fun _ hbroken => (hbody _ (hm.inCall (hfree hbroken) p args)).1, ?_⟩
  intro r m' hrun
  rcases answer?_callProcedure.mp hrun with
    ⟨_, rfl, rfl⟩ | ⟨_, bound, hbroken, rfl, rfl⟩ | ⟨_, hbroken, n, hn, rfl⟩
  · exact ⟨hm, .congr rfl rfl, nofun⟩
  · refine ⟨hm, .congr rfl rfl, ?_⟩
    intro _ _ hless
    have hnone := Limits.brokenByCall_eq_none.mpr fun bound' hbound' =>
      Option.some.inj (hlimits.symm.trans hbound') ▸ hless
    cases hnone.symm.trans hbroken
  · have hless := hfree hbroken
    have hin := (hbody _ (hm.inCall hless p args)).2 r n hn
    have hresumes := hin.resumes.pop
    refine ⟨⟨hresumes.depth ▸ hm.above, hresumes.depth ▸ hm.below, hin.within.entered⟩,
      hresumes, ?_⟩
    intro bound hr _ hkept
    have hrecorded := (Machine.kept_record m (.calling p.name args)).trans hkept
    by_cases hlast : m.depth + 1 = limit
    · apply hin.resumes.shown
      rw [← hlast]
      exact Machine.mem_events_record_self hrecorded _
    · have hkept' : (inCall p args m).journal.kept = true :=
        (Machine.kept_record _ _).trans hrecorded
      exact hin.reached bound hr (by rw [depth_inCall]; omega) hkept'

/-- Staying within the limit is a property that every construct passes on. -/
def congruence {limits : Limits} : Congruence fun _ : Side => limits where
  Holds X := (X .first).Bounded start limit (X .second)
  pure a := gets fun _ => a
  fail fault h := fail fun _ heq => by cases heq ▸ h
  bind hx hf := bind hx hf
  lookup _ := gets _
  named _ := gets _
  registry := gets _
  record event h := note fun _ heq => by cases heq ▸ h
  assign name value := modify (fun m hm => hm.congr (m.depth_set name value) rfl)
    fun m => .congr (m.depth_set name value) rfl
  register _ _ _ := modify (fun _ hm => hm.congr rfl rfl) fun _ => .congr rfl rfl
  primitive p args := callPrimitive p args
  pass n hx := by
    cases limits.brokenByPass n with
    | none => exact hx
    | some bound => exact fail nofun
  policy name r hx := by
    dsimp only
    split
    · exact fail nofun
    · exact hx

end Bounded

end Run

/-- A watcher who holds back within the limit makes no difference to an evaluation, which stays
there. -/
theorem bounded_evaluate {limits : Limits} {start : Machine} {limit : Nat}
    (hlimits : limits.maxDepth = some limit) {interrupt : Moment → Option (Outcome Value)}
    (hquiet : ∀ moment : Moment, start.Within limit moment.machine → interrupt moment = none)
    (fuel : Nat) (e : Value) :
    (watched interrupt limits fuel e).Bounded start limit (evaluate limits fuel e) := by
  have hexhausted : (Run.outOfFuel : Run Value).Bounded start limit Run.outOfFuel :=
    fun _ _ => ⟨rfl, nofun⟩
  induction fuel generalizing e with
  | zero => exact hexhausted
  | succ fuel ih =>
      intro m hm
      have hstep : (step limits fuel (watched interrupt limits fuel) e).Bounded start limit
          (evaluate limits (fuel + 1) e) := by
        apply Run.Bounded.congruence.step
          (Side.pick (watched interrupt limits fuel) (evaluate limits fuel)) fun _ => fuel
        · intro p args
          exact Run.Bounded.callProcedure hlimits (ih p.body) args
        · intro elements _ x _
          exact ih x
        · intro test body htest hbody
          exact Run.Bounded.congruence.repeatWhile hexhausted htest hbody fuel 0
      obtain ⟨hsame, hanswer⟩ := hstep m hm
      refine ⟨?_, hanswer⟩
      rw [watched_succ (hquiet _ hm), hsame]
      cases hmoment : (evaluate limits (fuel + 1) e m).moment? with
      | none => rfl
      | some moment =>
          obtain ⟨r, hr⟩ := Outcome.answer?_of_moment? hmoment
          rw [Option.bind_some, hquiet moment (hanswer r _ hr).within, Option.getD_none]

/-- A moment that comes up comes up within the limit. -/
theorem within_of_comesUp {limits : Limits} {limit : Nat} (hlimits : limits.maxDepth = some limit)
    {S : Moment → Prop} {e : Value} {m : Machine} (hm : m.depth ≤ limit)
    (h : ComesUp S limits e m) : ∃ moment, S moment ∧ m.Within limit moment.machine := by
  obtain ⟨interrupt, fuel, honly, hdiffers⟩ := h
  by_contra hnone
  have hquiet : ∀ moment : Moment, m.Within limit moment.machine → interrupt moment = none :=
    fun moment hwithin => honly moment fun hS => hnone ⟨moment, hS, hwithin⟩
  exact hdiffers (bounded_evaluate hlimits hquiet fuel e m (.refl hm)).1

theorem entered_within {limits : Limits} {limit : Nat} (hlimits : limits.maxDepth = some limit)
    {e : Value} {m : Machine} (hm : m.depth ≤ limit) {n : Nat} (h : Enters limits e m n) :
    m.depth < n ∧ n ≤ limit := by
  have hstart : m.withJournal.depth ≤ limit := hm
  obtain ⟨moment, hpushed, hwithin⟩ := within_of_comesUp hlimits hstart h
  exact (hwithin.entered n hpushed).resolve_left (Array.not_mem_empty _)

/-- The fault of the limit does not come out of nowhere. -/
theorem enters_of_limit {limits : Limits} {limit : Nat} (hlimits : limits.maxDepth = some limit)
    {e : Value} {m m' : Machine} {n : Nat} (hm : m.depth < limit)
    (hrun : Finishes (evaluate limits · e) m (.error (.recursionLimit n)) m') :
    Enters limits e m limit := by
  obtain ⟨fuel, hrun⟩ := hrun
  obtain ⟨m₂, hrun₂, _⟩ :=
    twin_evaluate limits fuel e m m.withJournal _ m' m.twin_withJournal hrun
  have hstart : m.withJournal.depth ≤ limit := Nat.le_of_lt hm
  have hbounded := bounded_evaluate hlimits (fun _ _ => rfl) fuel e _ (.refl hstart)
  have hreached := (hbounded.2 _ _ hrun₂).reached n rfl hm rfl
  apply comesUp_of_finishes ⟨fuel, hrun₂⟩
  rintro moment rfl
  exact hreached

/-- No call is entered beyond the limit, and at no moment are more calls in progress than it allows.
The fault of the limit names it, and comes after a call at the limit if the evaluation did not start
there. Without a limit there is no such fault. -/
theorem calls_stay_within_limit (limits : Limits) (e : Value) (m : Machine) :
    (∀ limit, limits.maxDepth = some limit → m.depth ≤ limit →
      (∀ n, Enters limits e m n → m.depth < n ∧ n ≤ limit) ∧
      (∀ moment, ComesUp (· = moment) limits e m →
        m.depth ≤ moment.machine.depth ∧ moment.machine.depth ≤ limit) ∧
      ∀ n m', Finishes (evaluate limits · e) m (.error (.recursionLimit n)) m' →
        n = limit ∧ (m.depth < limit → Enters limits e m limit)) ∧
    (limits.maxDepth = none →
      ∀ n m', ¬ Finishes (evaluate limits · e) m (.error (.recursionLimit n)) m') := by
  have hraised : ∀ n m', Finishes (evaluate limits · e) m (.error (.recursionLimit n)) m' →
      limits.maxDepth = some n := by
    rintro n m' ⟨fuel, hrun⟩
    exact raises_evaluate limits fuel e m _ m' hrun
  refine ⟨?_, ?_⟩
  · intro limit hlimits hm
    refine ⟨fun n => entered_within hlimits hm, ?_, ?_⟩
    · intro moment hmoment
      obtain ⟨_, rfl, hwithin⟩ := within_of_comesUp hlimits hm hmoment
      exact ⟨hwithin.above, hwithin.below⟩
    · intro n m' hrun
      have hn : n = limit := Option.some.inj ((hraised n m' hrun).symm.trans hlimits)
      exact ⟨hn, fun hless => enters_of_limit hlimits hless hrun⟩
  · intro hnone n m' hrun
    cases hnone.symm.trans (hraised n m' hrun)

/-- `(DEFINE F () (F))` -/
def runaway : Machine :=
  ⟨.empty, ⟨⟨[("F", ⟨0, "F", [], .list [.symbol "F"]⟩)]⟩, 1⟩, {}, {}⟩

/-- A procedure that calls itself is called twice where two calls are allowed, not a third time, and
ends with the fault of the limit. -/
theorem calls_stay_within_limit_runaway :
    runaway.depth < 2 ∧
    Finishes (evaluate { maxDepth := some 2 } · (.list [.symbol "F"])) runaway
      (.error (.recursionLimit 2)) runaway ∧
    Enters { maxDepth := some 2 } (.list [.symbol "F"]) runaway 2 ∧
    ¬ Enters { maxDepth := some 2 } (.list [.symbol "F"]) runaway 3 := by
  have hdepth : runaway.depth < 2 := by decide
  have hrun : Finishes (evaluate { maxDepth := some 2 } · (.list [.symbol "F"])) runaway
      (.error (.recursionLimit 2)) runaway := ⟨3, rfl⟩
  obtain ⟨hwithin, -⟩ :=
    calls_stay_within_limit { maxDepth := some 2 } (.list [.symbol "F"]) runaway
  obtain ⟨hentered, -, hfault⟩ := hwithin 2 rfl (Nat.le_of_lt hdepth)
  exact ⟨hdepth, hrun, (hfault 2 runaway hrun).2 hdepth,
    fun h => absurd (hentered 3 h).2 (by decide)⟩

end PocketLisp
