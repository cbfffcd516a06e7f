import PocketLisp.Proofs.Definitions
import PocketLisp.Proofs.Moments
import PocketLisp.Proofs.Simulation

/-!
# What holds at every moment of every evaluation

Only a definition changes the registry, and everything else that happens adds to the journal other
events than definitions. What definitions respect holds therefore at all moments of an evaluation,
inside of whatever is evaluated, and after any number of evaluations, whether they end with a value,
with a fault or not at all.
-/

namespace PocketLisp

open Evaluation

def Moment.machine : Moment → Machine
  | .begins _ m | .returns _ m | .fails _ m => m

/-- A moment of the kind comes up in an evaluation: a watcher who never interrupts at another one
makes a difference to it. -/
def ComesUp (S : Moment → Prop) (limits : Limits) (e : Value) (m : Machine) : Prop :=
  ∃ interrupt fuel, (∀ moment, ¬ S moment → interrupt moment = none) ∧
    watched interrupt limits fuel e m ≠ evaluate limits fuel e m

/-- The machines that evaluations lead to, one after the other, under limits of the kind: those they
leave, those at the moments inside of them, and whatever comes between two moments, or between two
evaluations, without touching the registry: variables, calls and output change, and events are
noted. -/
inductive Machine.Evolves (P : Limits → Prop) (m : Machine) : Machine → Prop
  | refl : Evolves P m m
  | finished {n n' : Machine} {limits : Limits} {e : Value} {r : Except Fault Value}
      (h : Evolves P m n) (hlimits : P limits) (hrun : Finishes (evaluate limits · e) n r n') :
      Evolves P m n'
  | during {n : Machine} {limits : Limits} {e : Value} {moment : Moment} (h : Evolves P m n)
      (hlimits : P limits) (hmoment : ComesUp (· = moment) limits e n) :
      Evolves P m moment.machine
  | elsewhere {n n' : Machine} (h : Evolves P m n) (hregistry : n'.registry = n.registry)
      (hjournal : n'.journal = n.journal) : Evolves P m n'
  | noted {n : Machine} {e : Event} (h : Evolves P m n) (he : e.isDefinition = false) :
      Evolves P m (n.record e)

theorem Machine.Evolves.trans {P : Limits → Prop} {m n k : Machine} (h : m.Evolves P n)
    (h' : n.Evolves P k) : m.Evolves P k := by
  induction h' with
  | refl => exact h
  | finished _ hlimits hrun ih => exact .finished ih hlimits hrun
  | during _ hlimits hmoment ih => exact .during ih hlimits hmoment
  | elsewhere _ hregistry hjournal ih => exact .elsewhere ih hregistry hjournal
  | noted _ he ih => exact .noted ih he

/-- Where the property is given, the first run does what the second does, which leaves the property
given, unless the first has been stopped. -/
def Run.Accompanies {α : Type} (J : Registry → Journal → Prop) (stops : Prop) (x y : Run α) :
    Prop :=
  ∀ m, J m.registry m.journal →
    (stops ∧ x m = .exhausted) ∨
      (x m = y m ∧ ∀ r m', (y m).answer? = some (r, m') → J m'.registry m'.journal)

namespace Run.Accompanies

variable {α β : Type} {J : Registry → Journal → Prop} {stops : Prop}

theorem refl {x : Run α}
    (h : ∀ m r m', J m.registry m.journal → (x m).answer? = some (r, m') →
      J m'.registry m'.journal) : x.Accompanies J stops x :=
  fun m hm => Or.inr ⟨rfl, fun r m' hrun => h m r m' hm hrun⟩

theorem gets (f : Machine → α) : (Run.gets f).Accompanies J stops (Run.gets f) := by
  apply refl
  intro m r m' hm hrun
  cases hrun
  exact hm

theorem bind {x y : Run α} {f g : α → Run β} (hx : x.Accompanies J stops y)
    (hf : ∀ a, (f a).Accompanies J stops (g a)) : (x >>= f).Accompanies J stops (y >>= g) := by
  intro m hm
  rw [Run.bind_apply, Run.bind_apply]
  rcases hx m hm with ⟨hstops, hstopped⟩ | ⟨hsame, hanswer⟩
  · rw [hstopped]
    exact Or.inl ⟨hstops, rfl⟩
  · rw [hsame]
    cases hy : y m with
    | returned a m' => exact hf a m' (hanswer (.ok a) m' (by rw [hy]; rfl))
    | failed fault m' =>
        refine Or.inr ⟨rfl, ?_⟩
        intro r m'' hrun
        cases hrun
        exact hanswer (.error fault) m' (by rw [hy]; rfl)
    | exhausted => exact Or.inr ⟨rfl, nofun⟩

theorem fail (fault : Fault) :
    (Run.fail fault : Run α).Accompanies J stops (Run.fail fault) := by
  apply refl
  intro m r m' hm hrun
  cases hrun
  exact hm

theorem inFrame {x y : Run α} (h : x.Accompanies J stops y) (frame : Frame) :
    (Run.inFrame frame x).Accompanies J stops (Run.inFrame frame y) := by
  intro m hm
  unfold Run.inFrame
  rcases h (m.push frame) hm with ⟨hstops, hstopped⟩ | ⟨hsame, hanswer⟩
  · rw [hstopped]
    exact Or.inl ⟨hstops, rfl⟩
  · rw [hsame]
    refine Or.inr ⟨rfl, ?_⟩
    intro r m' hrun
    obtain ⟨n, hn, rfl⟩ := Run.answer?_inFrame.mp hrun
    exact hanswer r n hn

variable (hnote : ∀ {r j} e, e.isDefinition = false → J r j → J r (j.record e))

include hnote

theorem note (e : Event) (he : e.isDefinition = false) :
    (Run.record e).Accompanies J stops (Run.record e) := by
  apply refl
  intro m r m' hm hrun
  cases hrun
  exact hnote e he hm

theorem callPrimitive (p : Primitive) (args : List Value) :
    (Evaluation.callPrimitive p args).Accompanies J stops (Evaluation.callPrimitive p args) := by
  apply refl
  intro m r m' hm hrun
  cases ho : p.operation.onArguments? args with
  | none =>
      rw [answer?_callPrimitive_none ho] at hrun
      cases hrun
      exact hm
  | some action =>
      rw [answer?_callPrimitive ho] at hrun
      cases hrun
      have hreported : (reported p (action m.sink).1).isDefinition = false := by
        cases (action m.sink).1 with
        | ok v => rfl
        | error fault => rfl
      exact hnote _ hreported (hnote _ rfl hm)

/-- A call accompanies another if its body does, in the frame of the call. -/
theorem callProcedure {limits : Limits} {self self' : Value → Run Value} {p : Procedure Value}
    (hbody : (self p.body).Accompanies J stops (self' p.body)) (args : List Value) :
    (Evaluation.callProcedure limits self p args).Accompanies J stops
      (Evaluation.callProcedure limits self' p args) := by
  apply bind (gets _)
  intro depth
  by_cases hlength : args.length ≠ p.parameters.length
  · simp only [if_pos hlength]
    exact fail _
  · simp only [if_neg hlength]
    cases limits.brokenByCall depth with
    | some limit => exact fail _
    | none =>
        apply bind (note hnote _ rfl)
        intro _
        apply bind (note hnote _ rfl)
        intro _
        exact hbody.inFrame _

/-- Accompanying is a property that every construct but the definition passes on. -/
def congruence (limits : Limits) : PartialCongruence fun _ : Side => limits where
  Holds X := (X .first).Accompanies J stops (X .second)
  pure a := by
    apply refl
    intro m r m' hm hrun
    cases hrun
    exact hm
  fail fault _ := fail fault
  bind hx hf := bind hx hf
  lookup name := gets _
  named name := gets _
  note e _ he := note hnote e he
  assign name value := by
    apply refl
    intro m r m' hm hrun
    cases hrun
    exact hm
  primitive p args := callPrimitive hnote p args
  pass n hx :=
    pass_of_fail (P := fun X => (X Side.first).Accompanies J stops (X Side.second)) fail hx limits n

end Run.Accompanies

/-- The moment at which an evaluation ends, if it does. -/
def Outcome.moment? : Outcome Value → Option Moment
  | .returned v m => some (.returns v m)
  | .failed fault m => some (.fails fault m)
  | .exhausted => none

theorem Outcome.answer?_of_moment? {o : Outcome Value} {moment : Moment}
    (h : o.moment? = some moment) : ∃ r, o.answer? = some (r, moment.machine) := by
  cases o with
  | returned v m =>
      cases h
      exact ⟨_, rfl⟩
  | failed fault m =>
      cases h
      exact ⟨_, rfl⟩
  | exhausted => cases h

theorem watched_succ {interrupt : Moment → Option (Outcome Value)} {e : Value} {m : Machine}
    (h : interrupt (.begins e m) = none) (limits : Limits) (fuel : Nat) :
    watched interrupt limits (fuel + 1) e m =
      ((step limits fuel (watched interrupt limits fuel) e m).moment?.bind interrupt).getD
        (step limits fuel (watched interrupt limits fuel) e m) := by
  unfold watched
  simp only [h]
  cases step limits fuel (watched interrupt limits fuel) e m with
  | returned v m' => rfl
  | failed fault m' => rfl
  | exhausted => rfl

/-- The end of an evaluation comes up: a watcher who stops the evaluation there sees no answer. -/
theorem comesUp_of_finishes {S : Moment → Prop} {limits : Limits} {e : Value} {m m' : Machine}
    {r : Except Fault Value} (hrun : Finishes (evaluate limits · e) m r m')
    (hS : ∀ moment : Moment, moment.machine = m' → S moment) : ComesUp S limits e m := by
  classical
  obtain ⟨fuel, hrun⟩ := hrun
  let interrupt : Moment → Option (Outcome Value) :=
    fun moment => if S moment then some .exhausted else none
  refine ⟨interrupt, fuel, fun moment hnot => if_neg hnot, ?_⟩
  suffices hstopped : ∀ r, (watched interrupt limits fuel e m).answer? ≠ some (r, m') from
    fun hsame => hstopped r (hsame ▸ hrun)
  intro r hanswer
  cases fuel with
  | zero => cases hrun
  | succ fuel =>
      by_cases hbegins : S (.begins e m)
      · simp only [watched, interrupt, if_pos hbegins] at hanswer
        cases hanswer
      · rw [watched_succ (if_neg hbegins)] at hanswer
        generalize step limits fuel (watched interrupt limits fuel) e m = o at hanswer
        cases hmoment : o.moment? with
        | none =>
            rw [hmoment] at hanswer
            cases o with
            | exhausted => cases hanswer
            | _ => cases hmoment
        | some moment =>
            rw [hmoment, Option.bind_some] at hanswer
            by_cases hmoment' : S moment
            · simp only [interrupt, if_pos hmoment', Option.getD_some] at hanswer
              cases hanswer
            · simp only [interrupt, if_neg hmoment', Option.getD_none] at hanswer
              obtain ⟨r', hr'⟩ := Outcome.answer?_of_moment? hmoment
              have hpair := Option.some.inj (hr'.symm.trans hanswer)
              exact hmoment' (hS moment (congrArg Prod.snd hpair))

section Watching

variable {J : Registry → Journal → Prop} {stops : Prop} {limits : Limits}
  {interrupt : Moment → Option (Outcome Value)}
  (hnote : ∀ {r j} e, e.isDefinition = false → J r j → J r (j.record e))
  (hdefine : ∀ {e m}, e.IsDefinition → J m.registry m.journal →
    interrupt (.begins e m) = none → ∀ r m', (evaluate limits 1 e m).answer? = some (r, m') →
    J m'.registry m'.journal)
  (hinterrupt : ∀ moment, J moment.machine.registry moment.machine.journal →
    interrupt moment = none ∨ (stops ∧ interrupt moment = some .exhausted))

include hinterrupt

theorem ends_or_stops {o : Outcome Value}
    (h : ∀ r m', o.answer? = some (r, m') → J m'.registry m'.journal) :
    (stops ∧ (o.moment?.bind interrupt).getD o = .exhausted) ∨
      (o.moment?.bind interrupt).getD o = o := by
  cases hmoment : o.moment? with
  | none => exact Or.inr rfl
  | some moment =>
      obtain ⟨r, hanswer⟩ := Outcome.answer?_of_moment? hmoment
      rcases hinterrupt moment (h r _ hanswer) with hnone | ⟨hstops, hstopped⟩
      · exact Or.inr (by rw [Option.bind_some, hnone, Option.getD_none])
      · exact Or.inl ⟨hstops, by rw [Option.bind_some, hstopped, Option.getD_some]⟩

include hnote hdefine

/-- A watcher who only stops an evaluation, if at all, does nothing else to it. -/
theorem accompanies_evaluate (fuel : Nat) (e : Value) :
    (watched interrupt limits fuel e).Accompanies J stops (evaluate limits fuel e) := by
  have hexhausted : (Run.outOfFuel : Run Value).Accompanies J stops Run.outOfFuel :=
    fun m _ => Or.inr ⟨rfl, nofun⟩
  induction fuel generalizing e with
  | zero => exact hexhausted
  | succ fuel ih =>
      intro m hm
      rcases hinterrupt (.begins e m) hm with hbegins | ⟨hstops, hstopped⟩
      · rw [watched_succ hbegins]
        have hstep : (stops ∧ step limits fuel (watched interrupt limits fuel) e m = .exhausted) ∨
            (step limits fuel (watched interrupt limits fuel) e m = evaluate limits (fuel + 1) e m ∧
              ∀ r m', (evaluate limits (fuel + 1) e m).answer? = some (r, m') →
                J m'.registry m'.journal) := by
          by_cases hdefinition : e.IsDefinition
          · rw [step_definition hdefinition, evaluate_definition hdefinition limits fuel]
            exact Or.inr ⟨rfl, hdefine hdefinition hm hbegins⟩
          · apply (Run.Accompanies.congruence hnote limits).step
              (Side.pick (watched interrupt limits fuel) (evaluate limits fuel)) (fun _ => fuel)
              _ _ _ _ m hm
            · intro p args
              exact Run.Accompanies.callProcedure hnote (ih p.body) args
            · intro elements _ x _
              exact ih x
            · intro test body htest hbody
              exact (Run.Accompanies.congruence hnote limits).repeatWhile hexhausted htest hbody
                fuel 0
            · intro head name parameters body he hk
              exact absurd ⟨head, _, he, hk⟩ hdefinition
        rcases hstep with ⟨hstops, hstopped⟩ | ⟨hsame, hanswer⟩
        · exact Or.inl ⟨hstops, by rw [hstopped]; rfl⟩
        · rw [hsame]
          exact (ends_or_stops hinterrupt hanswer).imp_right fun hend => ⟨hend, hanswer⟩
      · unfold watched
        rw [hstopped]
        exact Or.inl ⟨hstops, rfl⟩

end Watching

/-- What is no longer given after an evaluation was lost by a definition in the course of it. -/
theorem comesUp_of_lost {J : Registry → Journal → Prop} {S : Moment → Prop} {limits : Limits}
    (hnote : ∀ {r j} e, e.isDefinition = false → J r j → J r (j.record e))
    (hdefine : ∀ {e m}, e.IsDefinition → J m.registry m.journal → ¬ S (.begins e m) →
      ∀ r m', (evaluate limits 1 e m).answer? = some (r, m') → J m'.registry m'.journal)
    {e : Value} {m m' : Machine} {r : Except Fault Value}
    (hrun : Finishes (evaluate limits · e) m r m') (hgiven : J m.registry m.journal)
    (hlost : ¬ J m'.registry m'.journal) : ComesUp S limits e m := by
  classical
  obtain ⟨fuel, hrun⟩ := hrun
  let interrupt : Moment → Option (Outcome Value) :=
    fun moment => if S moment then some .exhausted else none
  have hnot : ∀ {moment}, interrupt moment = none → ¬ S moment := by
    intro moment hnone hS
    simp only [interrupt, if_pos hS] at hnone
    cases hnone
  have hinterrupt : ∀ moment : Moment, J moment.machine.registry moment.machine.journal →
      interrupt moment = none ∨ (True ∧ interrupt moment = some .exhausted) := by
    intro moment _
    by_cases hS : S moment
    · exact Or.inr ⟨trivial, if_pos hS⟩
    · exact Or.inl (if_neg hS)
  refine ⟨interrupt, fuel, fun moment hnot => if_neg hnot, ?_⟩
  rcases accompanies_evaluate hnote (fun he hm hbegins => hdefine he hm (hnot hbegins)) hinterrupt
    fuel e m hgiven with ⟨_, hstopped⟩ | ⟨_, hanswer⟩
  · intro hsame
    have hnone : (evaluate limits fuel e m).answer? = none := by
      rw [← hsame, hstopped]
      rfl
    exact absurd (hnone.symm.trans hrun) nofun
  · exact absurd (hanswer r m' hrun) hlost

/-- The evaluation of a definition begins no other evaluation. -/
theorem begins_of_definition {limits : Limits} {e e' : Value} {m m' : Machine}
    (he : e.IsDefinition) (h : ComesUp (· = .begins e' m') limits e m) : e' = e ∧ m' = m := by
  obtain ⟨interrupt, fuel, honly, hdiffers⟩ := h
  by_contra hother
  have hbegins : interrupt (.begins e m) = none := by
    apply honly
    intro heq
    cases heq
    exact hother ⟨rfl, rfl⟩
  cases fuel with
  | zero => exact hdiffers rfl
  | succ fuel =>
      apply hdiffers
      rw [watched_succ hbegins, step_definition he, evaluate_definition he limits fuel]
      cases evaluate limits 1 e m with
      | returned v n =>
          show (interrupt (.returns v n)).getD _ = _
          rw [honly (.returns v n) nofun, Option.getD_none]
      | failed fault n =>
          show (interrupt (.fails fault n)).getD _ = _
          rw [honly (.fails fault n) nofun, Option.getD_none]
      | exhausted => rfl

/-- A property of registries and journals that stays given when events are noted, and when a
procedure is defined that may be defined under limits of the kind. -/
structure Lasting (P : Limits → Prop) (J : Registry → Journal → Prop) : Prop where
  note : ∀ {r j} e, e.isDefinition = false → J r j → J r (j.record e)
  define : ∀ {limits r j} name parameters body, P limits →
    (r.contains name = true → limits.allowRedefinition = true) → J r j →
    J (r.define name parameters body) (j.record (.defining (r.fresh name parameters body)))

namespace Lasting

variable {P : Limits → Prop} {J : Registry → Journal → Prop} (h : Lasting P J)

include h

theorem definition {limits : Limits} (hlimits : P limits) {e : Value} {m : Machine}
    (he : e.IsDefinition) (hm : J m.registry m.journal) (r : Except Fault Value) (m' : Machine)
    (hrun : (evaluate limits 1 e m).answer? = some (r, m')) : J m'.registry m'.journal := by
  obtain ⟨head, operands, rfl, hk⟩ := he
  have hbegun : J m.registry (m.begun (.list (head :: operands))).journal :=
    h.note _ rfl (h.note _ rfl hm)
  rcases definition_cases hk limits operands m with
    ⟨fault, heq⟩ | ⟨name, parameters, body, _, hallow, heq⟩
  · rw [heq] at hrun
    cases hrun
    exact hbegun
  · rw [heq] at hrun
    cases hrun
    unfold Machine.registering
    split
    · exact h.define name parameters body hlimits hallow (h.note _ rfl hbegun)
    · exact h.define name parameters body hlimits hallow hbegun

theorem accompanies {limits : Limits} (hlimits : P limits)
    {interrupt : Moment → Option (Outcome Value)}
    (hquiet : ∀ moment : Moment, J moment.machine.registry moment.machine.journal →
      interrupt moment = none) (fuel : Nat) (e : Value) :
    (watched interrupt limits fuel e).Accompanies J False (evaluate limits fuel e) :=
  accompanies_evaluate h.note (fun he hm _ => h.definition hlimits he hm)
    (fun moment hJ => Or.inl (hquiet moment hJ)) fuel e

/-- A lasting property that is given at the start is given at every moment. -/
theorem comesUp {limits : Limits} (hlimits : P limits) {S : Moment → Prop} {e : Value}
    {m : Machine} (hm : J m.registry m.journal) (hmoment : ComesUp S limits e m) :
    ∃ moment, S moment ∧ J moment.machine.registry moment.machine.journal := by
  obtain ⟨interrupt, fuel, honly, hdiffers⟩ := hmoment
  by_contra hnone
  have hquiet : ∀ moment : Moment, J moment.machine.registry moment.machine.journal →
      interrupt moment = none := fun moment hJ => honly moment fun hS => hnone ⟨moment, hS, hJ⟩
  rcases h.accompanies hlimits hquiet fuel e m hm with ⟨hstops, _⟩ | ⟨hsame, _⟩
  · exact hstops
  · exact hdiffers hsame

/-- And it is given at the end. -/
theorem finishes {limits : Limits} (hlimits : P limits) {e : Value} {m m' : Machine}
    {r : Except Fault Value} (hm : J m.registry m.journal)
    (hrun : Finishes (evaluate limits · e) m r m') : J m'.registry m'.journal := by
  obtain ⟨fuel, hrun⟩ := hrun
  rcases h.accompanies hlimits (fun _ _ => rfl) fuel e m hm with ⟨hstops, _⟩ | ⟨_, hanswer⟩
  · exact hstops.elim
  · exact hanswer r m' hrun

/-- What lasts is given in all machines that evaluations lead to. -/
theorem evolves {m m' : Machine} (hm : J m.registry m.journal) (hevolves : m.Evolves P m') :
    J m'.registry m'.journal := by
  induction hevolves with
  | refl => exact hm
  | finished _ hlimits hrun ih => exact h.finishes hlimits ih hrun
  | during _ hlimits hmoment ih =>
      obtain ⟨moment, rfl, hJ⟩ := h.comesUp hlimits ih hmoment
      exact hJ
  | elsewhere _ hregistry hjournal ih =>
      rw [hregistry, hjournal]
      exact ih
  | noted _ he ih => exact h.note _ he ih

end Lasting

end PocketLisp
