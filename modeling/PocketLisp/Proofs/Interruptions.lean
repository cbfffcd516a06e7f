import PocketLisp.Proofs.Timeline

/-!
# Moments that come up

Two things follow from the fact that a moment comes up in an evaluation. It is a moment that every
correspondence with another evaluation admits, and whatever has been noted by then is part of the
journal at the end. Both are seen by putting different interruptions in the place of the moment: if
one of them makes a difference, then one that stops the evaluation stops it, one that fails makes it
fail, and without any the evaluation goes on from there. In which order moments come up is not said.
-/

namespace PocketLisp

open Evaluation

/-- The journal of the second machine begins with that of the first. -/
def Machine.Precedes (m m' : Machine) : Prop :=
  m.journal.events.toList <+: m'.journal.events.toList

theorem Machine.precedes_record (m : Machine) (e : Event) : m.Precedes (m.record e) := by
  unfold Precedes record Journal.record
  split
  · rw [Array.toList_push]
    exact List.prefix_append _ _
  · exact List.prefix_rfl

theorem effects_precedes : Effects Machine.Precedes where
  refl _ := List.prefix_rfl
  trans h h' := List.IsPrefix.trans h h'
  record := Machine.precedes_record
  set _ _ _ := List.prefix_rfl
  define _ _ _ _ := List.prefix_rfl
  print _ _ _ := List.prefix_rfl
  frame h := h

/-- What a watcher puts in the place of the moments. -/
abbrev Watcher : Type :=
  Moment → Option (Outcome Value)

namespace Watcher

/-- The watcher who never interrupts. -/
def silent : Watcher :=
  fun _ => none

open Classical in
/-- A watcher who holds back at all moments but those of a kind. -/
noncomputable def only (S : Moment → Prop) (interrupt : Watcher) : Watcher :=
  fun moment => if S moment then interrupt moment else none

variable {S : Moment → Prop} {moment : Moment}

theorem only_of_pos (h : S moment) (interrupt : Watcher) :
    only S interrupt moment = interrupt moment :=
  if_pos h

theorem only_of_neg (h : ¬ S moment) (interrupt : Watcher) : only S interrupt moment = none :=
  if_neg h

theorem only_silent (S : Moment → Prop) : only S silent = silent := by
  funext moment
  exact ite_self none

theorem only_eq_self {interrupt : Watcher} (h : ∀ moment, ¬ S moment → interrupt moment = none) :
    only S interrupt = interrupt := by
  funext moment
  by_cases hS : S moment
  · exact only_of_pos hS interrupt
  · rw [only_of_neg hS, h moment hS]

end Watcher

open Watcher

theorem watched_silent (limits : Limits) (fuel : Nat) (e : Value) :
    watched silent limits fuel e = evaluate limits fuel e := by
  induction fuel generalizing e with
  | zero => rfl
  | succ fuel ih =>
      funext m
      rw [watched_succ rfl]
      unfold silent at ih ⊢
      rw [Option.bind_fun_none, Option.getD_none, evaluate, funext ih]

theorem Outcome.eq_of_answer? {α : Type} {o o' : Outcome α} {answer : Except Fault α × Machine}
    (h : o.answer? = some answer) (h' : o'.answer? = some answer) : o' = o := by
  cases o with
  | returned a m =>
      cases h
      cases o' <;> cases h'
      rfl
  | failed fault m =>
      cases h
      cases o' <;> cases h'
      rfl
  | exhausted => cases h

/-- Under the eyes of whomever, a finished evaluation is finished at every larger amount of fuel. -/
theorem steady_watched (interrupt : Watcher) (limits : Limits) (e : Value) :
    Steady (watched interrupt limits · e) := by
  intro n
  induction n generalizing e with
  | zero =>
      intro n' _ m₁ m₂ r m' _ hrun
      cases hrun
  | succ n ih =>
      intro n' hle
      cases n' with
      | zero => omega
      | succ n' =>
          have hle' := Nat.le_of_succ_le_succ hle
          have hself : ∀ x, (watched interrupt limits n x).Simulates Eq
              (watched interrupt limits n' x) := fun x => ih x n' hle'
          have hstep := steady_step limits hself hle' e
          intro m₁ m r m' heq hrun
          subst heq
          refine ⟨m', ?_, rfl⟩
          cases hbegins : interrupt (.begins e m₁) with
          | some outcome =>
              simp only [watched, hbegins] at hrun ⊢
              exact hrun
          | none =>
              simp only [watched_succ hbegins] at hrun ⊢
              cases ho : (step limits n (watched interrupt limits n) e m₁).answer? with
              | some answer =>
                  obtain ⟨_, hanswer, rfl⟩ := hstep m₁ m₁ answer.1 answer.2 rfl ho
                  rw [Outcome.eq_of_answer? ho hanswer]
                  exact hrun
              | none =>
                  cases hend : step limits n (watched interrupt limits n) e m₁ with
                  | exhausted =>
                      rw [hend] at hrun
                      cases hrun
                  | _ =>
                      rw [hend] at ho
                      cases ho

/-- Whatever comes after the moment leaves a machine with the property. -/
def Moment.LeadsTo (limits : Limits) (Past : Machine → Prop) : Moment → Prop
  | .begins e m => ∀ r m', Finishes (evaluate limits · e) m r m' → Past m'
  | .returns _ m | .fails _ m => Past m

theorem Moment.LeadsTo.of_moment? {limits : Limits} {Past : Machine → Prop} {last : Moment}
    (h : last.LeadsTo limits Past) {o : Outcome Value} (hlast : o.moment? = some last)
    {r : Except Fault Value} {m' : Machine} (hanswer : o.answer? = some (r, m')) : Past m' := by
  cases o with
  | returned v m =>
      cases hlast
      cases hanswer
      exact h
  | failed fault m =>
      cases hlast
      cases hanswer
      exact h
  | exhausted => cases hlast

/-- The runs, one for every watcher, are all the same, or three of them tell of an interruption: the
one that is stopped, the one that is made to fail, and the one without any, which leaves a machine
with the property. They start from machines that the first one precedes. -/
def Run.Divided {α : Type} (fault : Fault) (base : Machine) (Past : Machine → Prop)
    (X : Watcher → Run α) : Prop :=
  ∀ m, base.Precedes m →
    (∀ r m', (X silent m).answer? = some (r, m') → m.Precedes m') ∧
    ((∀ i j, X i m = X j m) ∨
      X (fun _ => some .exhausted) m = .exhausted ∧
      (∃ m', X (fun _ => some (.failed fault base)) m = .failed fault m') ∧
      ∀ r m', (X silent m).answer? = some (r, m') → Past m')

namespace Run.Divided

variable {α β : Type} {fault : Fault} {base : Machine} {Past : Machine → Prop}

theorem same {x : Run α} (h : x.Respects Machine.Precedes) : Divided fault base Past fun _ => x :=
  fun m _ => ⟨h m, Or.inl fun _ _ => rfl⟩

section Closed

variable (hpast : ∀ {m m'}, Past m → m.Precedes m' → Past m')

include hpast

theorem bind {X : Watcher → Run α} {F : Watcher → α → Run β} (hx : Divided fault base Past X)
    (hf : ∀ a, Divided fault base Past fun i => F i a) :
    Divided fault base Past fun i => X i >>= F i := by
  intro m hm
  obtain ⟨hgrows, hcases⟩ := hx m hm
  have hnext : ∀ {a m₁}, (X silent m).answer? = some (.ok a, m₁) → base.Precedes m₁ :=
    fun ha => hm.trans (hgrows _ _ ha)
  refine ⟨?_, ?_⟩
  · intro r m' hrun
    rcases Run.answer?_bind.mp hrun with ⟨a, m₁, ha, hb⟩ | ⟨cause, hfailed, rfl⟩
    · exact (hgrows _ _ ha).trans ((hf a m₁ (hnext ha)).1 r m' hb)
    · exact hgrows _ _ hfailed
  · rcases hcases with hsame | ⟨hstopped, ⟨m', hfailed⟩, hend⟩
    · have hsilent : ∀ i, X i m = X silent m := fun i => hsame i silent
      simp only [Run.bind_apply, hsilent]
      cases ho : X silent m with
      | returned a m₁ => exact (hf a m₁ (hnext (by rw [ho]; rfl))).2
      | failed cause m₁ => exact Or.inl fun _ _ => rfl
      | exhausted => exact Or.inl fun _ _ => rfl
    · refine Or.inr ⟨?_, ⟨m', ?_⟩, ?_⟩
      · simp only [Run.bind_apply, hstopped]
      · simp only [Run.bind_apply, hfailed]
      · intro r m' hrun
        rcases Run.answer?_bind.mp hrun with ⟨a, m₁, ha, hb⟩ | ⟨cause, hcause, rfl⟩
        · exact hpast (hend _ _ ha) ((hf a m₁ (hnext ha)).1 r m' hb)
        · exact hend _ _ hcause

theorem inFrame {X : Watcher → Run α} (h : Divided fault base Past X) (frame : Frame) :
    Divided fault base Past fun i => Run.inFrame frame (X i) := by
  intro m hm
  obtain ⟨hgrows, hcases⟩ := h (m.push frame) hm
  refine ⟨?_, ?_⟩
  · intro r m' hrun
    obtain ⟨n, hn, rfl⟩ := Run.answer?_inFrame.mp hrun
    exact hgrows r n hn
  · rcases hcases with hsame | ⟨hstopped, ⟨m', hfailed⟩, hend⟩
    · refine Or.inl fun i j => ?_
      simp only [Run.inFrame, hsame i j]
    · refine Or.inr ⟨?_, ⟨m'.pop, ?_⟩, ?_⟩
      · simp only [Run.inFrame, hstopped]
      · simp only [Run.inFrame, hfailed]
      · intro r m' hrun
        obtain ⟨n, hn, rfl⟩ := Run.answer?_inFrame.mp hrun
        exact hpast (hend r n hn) List.prefix_rfl

theorem callProcedure {limits : Limits} {self : Watcher → Value → Run Value}
    {p : Procedure Value} (hbody : Divided fault base Past fun i => self i p.body)
    (args : List Value) :
    Divided fault base Past fun i => Evaluation.callProcedure limits (self i) p args := by
  have hrecord : ∀ e, Divided fault base Past fun _ => Run.record e :=
    fun e => same (.modify fun m => m.precedes_record e)
  apply bind hpast (same (effects_precedes.gets _))
  intro depth
  by_cases hlength : args.length ≠ p.parameters.length
  · simp only [if_pos hlength]
    exact same (effects_precedes.fail _)
  · simp only [if_neg hlength]
    cases limits.brokenByCall depth with
    | some limit => exact same (effects_precedes.fail _)
    | none =>
        apply bind hpast (hrecord _)
        intro _
        apply bind hpast (hrecord _)
        intro _
        exact hbody.inFrame hpast _

/-- Being divided is a property that every construct passes on. -/
def congruence (limits : Limits) : Congruence fun _ : Watcher => limits where
  Holds := Divided fault base Past
  pure a := same ((effects_precedes.congruence limits).pure a)
  fail cause _ := same (effects_precedes.fail cause)
  bind hx hf := bind hpast hx hf
  lookup _ := same (effects_precedes.gets _)
  named _ := same (effects_precedes.gets _)
  registry := same (effects_precedes.gets _)
  record e _ := same (.modify fun m => m.precedes_record e)
  assign _ _ := same (.modify fun _ => List.prefix_rfl)
  register _ _ _ := same (.modify fun _ => List.prefix_rfl)
  primitive p args := same (effects_precedes.callPrimitive p args)
  pass n hx := pass_of_fail (fun cause => same (effects_precedes.fail cause)) hx limits n
  policy name r hx :=
    policy_of_fail (fun cause => same (effects_precedes.fail cause)) hx limits name r

end Closed

section Watching

variable {S : Moment → Prop} {limits : Limits}
  (hS : ∀ moment, S moment → base.Precedes moment.machine → moment.LeadsTo limits Past)

include hS

/-- What is put in the place of the end shows, if that is a moment of the kind. -/
theorem ending {X : Watcher → Run Value} (h : Divided fault base Past X) :
    Divided fault base Past fun i m =>
      ((X i m).moment?.bind (only S i)).getD (X i m) := by
  intro m hm
  have hplain : ((X silent m).moment?.bind (only S silent)).getD (X silent m) = X silent m := by
    rw [only_silent]
    unfold silent
    rw [Option.bind_fun_none, Option.getD_none]
  obtain ⟨hgrows, hcases⟩ := h m hm
  simp only [hplain]
  refine ⟨hgrows, ?_⟩
  rcases hcases with hsame | ⟨hstopped, ⟨m', hfailed⟩, hend⟩
  · have hsilent : ∀ i, X i m = X silent m := fun i => hsame i silent
    simp only [hsilent]
    cases hlast : (X silent m).moment? with
    | none => exact Or.inl fun _ _ => rfl
    | some last =>
        by_cases hkind : S last
        · simp only [Option.bind_some, only_of_pos hkind]
          refine Or.inr ⟨rfl, ⟨base, rfl⟩, ?_⟩
          intro r m' hrun
          obtain ⟨_, hanswer⟩ := Outcome.answer?_of_moment? hlast
          have hleads := hS last hkind (hm.trans (hgrows _ _ hanswer))
          exact hleads.of_moment? hlast hrun
        · simp only [Option.bind_some, only_of_neg hkind]
          exact Or.inl fun _ _ => trivial
  · simp only [hstopped, hfailed, Outcome.moment?, Option.bind_some]
    refine Or.inr ⟨rfl, ?_, hend⟩
    by_cases hkind : S (.fails fault m')
    · rw [only_of_pos hkind]
      exact ⟨base, rfl⟩
    · rw [only_of_neg hkind]
      exact ⟨m', rfl⟩

variable (hpast : ∀ {m m'}, Past m → m.Precedes m' → Past m')

include hpast

/-- Whatever is put in the place of moments of a kind, it shows in the end or makes no
difference. -/
theorem watched (fuel : Nat) (e : Value) :
    Divided fault base Past fun i => PocketLisp.watched (only S i) limits fuel e := by
  have hexhausted : Divided fault base Past fun _ => (Run.outOfFuel : Run Value) := by
    apply same
    intro m r m' hrun
    cases hrun
  induction fuel generalizing e with
  | zero => exact hexhausted
  | succ fuel ih =>
      intro m hm
      by_cases hbegins : S (.begins e m)
      · simp only [only_silent, watched_silent]
        refine ⟨effects_precedes.evaluate limits (fuel + 1) e m, Or.inr ⟨?_, ⟨base, ?_⟩, ?_⟩⟩
        · simp only [PocketLisp.watched, only_of_pos hbegins]
        · simp only [PocketLisp.watched, only_of_pos hbegins]
        · intro r m' hrun
          exact hS (.begins e m) hbegins hm r m' ⟨fuel + 1, hrun⟩
      · have hstep : Divided fault base Past fun i =>
            step limits fuel (PocketLisp.watched (only S i) limits fuel) e := by
          apply (congruence hpast limits).step
            (fun i => PocketLisp.watched (only S i) limits fuel) fun _ => fuel
          · intro p args
            exact callProcedure hpast (ih p.body) args
          · intro elements _ x _
            exact ih x
          · intro test body htest hbody
            exact (congruence hpast limits).repeatWhile hexhausted htest hbody fuel 0
        simp only [watched_succ (only_of_neg hbegins _)]
        exact hstep.ending hS m hm

end Watching

end Run.Divided

/-- Who interrupts by stopping stops the evaluation, and who interrupts by a fault makes it fail;
without an interruption it goes on from there. -/
theorem ComesUp.divides {S : Moment → Prop} {limits : Limits} {e : Value} {m : Machine}
    (h : ComesUp S limits e m) {Past : Machine → Prop}
    (hpast : ∀ {m m'}, Past m → m.Precedes m' → Past m')
    (hS : ∀ moment, S moment → m.Precedes moment.machine → moment.LeadsTo limits Past)
    (fault : Fault) :
    ∃ enough, ∀ fuel, enough ≤ fuel →
      watched (only S fun _ => some .exhausted) limits fuel e m = .exhausted ∧
      (∃ m', watched (only S fun _ => some (.failed fault m)) limits fuel e m = .failed fault m') ∧
      ∀ r m', (evaluate limits fuel e m).answer? = some (r, m') → Past m' := by
  obtain ⟨interrupt, enough, honly, hdiffers⟩ := h
  have hdivided : ∀ cause fuel,
      Run.Divided cause m Past fun i => watched (only S i) limits fuel e :=
    fun cause fuel => .watched hS hpast fuel e
  have hfails : ∀ cause, ∃ m',
      watched (only S fun _ => some (.failed cause m)) limits enough e m = .failed cause m' := by
    intro cause
    rcases (hdivided cause enough m List.prefix_rfl).2 with hsame | ⟨_, hfailed, _⟩
    · have heq := hsame interrupt silent
      simp only [only_eq_self honly, only_silent, watched_silent] at heq
      exact absurd heq hdiffers
    · exact hfailed
  refine ⟨enough, fun fuel hle => ?_⟩
  rcases (hdivided fault fuel m List.prefix_rfl).2 with hsame | ⟨hstopped, hfailed, hend⟩
  · have hlater : ∀ cause, ∃ m', (evaluate limits fuel e m).answer? = some (.error cause, m') := by
      intro cause
      obtain ⟨m', hfailed⟩ := hfails cause
      have heq := hsame silent fun _ => some (.failed cause m)
      simp only [only_silent, watched_silent] at heq
      have hanswer := congrArg Outcome.answer? hfailed
      exact ⟨m', heq ▸ (steady_watched _ limits e).answer? hle hanswer⟩
    obtain ⟨m₁, h₁⟩ := hlater (.recursionLimit 0)
    obtain ⟨m₂, h₂⟩ := hlater (.recursionLimit 1)
    cases h₁.symm.trans h₂
  · simp only [only_silent, watched_silent] at hend
    exact ⟨hstopped, hfailed, hend⟩

/-- A property that makes every watcher quiet who holds back wherever it is given, is given at some
moment of a kind that comes up in an evaluation to which another one corresponds. -/
theorem Correspondence.given_of_comesUp {World Place : Type} {C : Correspondence World Place}
    {Given : Moment → Prop}
    (hquiet : ∀ interrupt, (∀ moment, Given moment → interrupt moment = none) → C.Quiet interrupt)
    {place : Place} {w : World} {e e' : Value} {m n : Machine} (hcode : C.Code place e e')
    (hm : C.Machines place w m n) {limits : Limits} {S : Moment → Prop}
    (h : ComesUp S limits e m) : ∃ moment, S moment ∧ Given moment := by
  by_contra hnone
  have htrivial : ∀ moment : Moment, moment.LeadsTo limits fun _ => True := by
    intro moment
    cases moment with
    | begins e m => exact fun _ _ _ => trivial
    | _ => exact trivial
  obtain ⟨fuel, hdivides⟩ :=
    h.divides (fun _ _ => trivial) (fun moment _ _ => htrivial moment) (.recursionLimit 0)
  obtain ⟨hstopped, ⟨m', hfailed⟩, _⟩ := hdivides fuel (Nat.le_refl fuel)
  have hagree : ∀ interrupt, C.Agree place w C.Values
      (watched (only S interrupt) limits fuel e m) (evaluate limits fuel e' n) := by
    intro interrupt
    apply (hquiet (only S interrupt) _).follows limits fuel place w e e' hcode m n hm
    intro moment hgiven
    exact only_of_neg (fun hS => hnone ⟨moment, hS, hgiven⟩) interrupt
  have hstop := hagree fun _ => some .exhausted
  have hfail := hagree fun _ => some (.failed (.recursionLimit 0) m)
  rw [hstopped] at hstop
  rw [hfailed] at hfail
  generalize evaluate limits fuel e' n = o at hstop hfail
  cases hstop
  cases hfail

/-- What every moment of a kind leads to is the case after an evaluation in which one came up. -/
theorem ComesUp.past {S : Moment → Prop} {limits : Limits} {e : Value} {m m' : Machine}
    {r : Except Fault Value} (h : ComesUp S limits e m)
    (hrun : Finishes (evaluate limits · e) m r m') {Past : Machine → Prop}
    (hpast : ∀ {m m'}, Past m → m.Precedes m' → Past m')
    (hS : ∀ moment, S moment → m.Precedes moment.machine → moment.LeadsTo limits Past) :
    Past m' := by
  obtain ⟨enough, hdivides⟩ := h.divides hpast hS (.recursionLimit 0)
  obtain ⟨fuel, hrun⟩ := hrun
  obtain ⟨_, _, hend⟩ := hdivides (max enough fuel) (Nat.le_max_left enough fuel)
  exact hend r m' ((steady_evaluate limits e).answer? (Nat.le_max_right enough fuel) hrun)

end PocketLisp
