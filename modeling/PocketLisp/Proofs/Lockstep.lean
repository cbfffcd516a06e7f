import PocketLisp.Proofs.Correspondence

/-!
# Corresponding runs stay in step

Evaluation carries every correspondence from the parts of an expression to the expression, through
primitives, special forms and calls, and so at every amount of fuel: the two runs end in the same
way or not at all. The parts may be evaluated differently on the two sides.
-/

namespace PocketLisp

open Evaluation

namespace Correspondence

variable {World Place : Type} {C : Correspondence World Place} {place : Place} {w : World}

variable (C) in
abbrev Results (w : World) : Except Fault Value → Except Fault Value → Prop :=
  Result.Similar (C.Values w) C.Source

namespace Results

theorem number (n : Number) : C.Results w (.ok (.number n)) (.ok (.number n)) :=
  .ok (C.number w n)

theorem ofBool (b : Bool) : C.Results w (.ok (.ofBool b)) (.ok (.ofBool b)) := by
  cases b with
  | false => exact .ok (C.null w)
  | true => exact .ok (C.truth w)

theorem plain {fault : Fault} (h : fault.isPlain = true) :
    C.Results w (.error fault) (.error fault) :=
  .error (.plain h)

theorem numberOr {fault : Fault} (h : fault.isPlain = true) (n : Option Number) :
    C.Results w (Primitive.numberOr fault n) (Primitive.numberOr fault n) := by
  cases n with
  | none => exact plain h
  | some n => exact number n

end Results

variable (C) in
/-- The operation treats corresponding arguments alike. -/
def Uniform (w : World) : Operation → Prop
  | .unary f => ∀ v v', C.Values w v v' → C.Results w (f v) (f v')
  | .binary f => ∀ v v' u u', C.Values w v v' → C.Values w u u' → C.Results w (f v u) (f v' u')
  | .last | .print => True

theorem numberOf_cases {v v' : Value} (h : C.Values w v v') :
    (∃ n, Primitive.numberOf v = .ok n ∧ Primitive.numberOf v' = .ok n) ∨
      ∃ f g, Primitive.numberOf v = .error f ∧ Primitive.numberOf v' = .error g ∧
        Fault.Similar (C.Values w) C.Source f g := by
  cases C.similar _ _ h with
  | number n => exact Or.inl ⟨n, rfl, rfl⟩
  | _ => exact Or.inr ⟨_, _, rfl, rfl, .notANumber h⟩

theorem uniform_onNumber {f : Number → Except Fault Value} (hf : ∀ n, C.Results w (f n) (f n)) :
    C.Uniform w (Primitive.onNumber f) := by
  intro v v' h
  rcases numberOf_cases h with ⟨n, hn, hn'⟩ | ⟨g, g', hg, hg', hfault⟩
  · simp only [hn, hn']
    exact hf n
  · simp only [hg, hg']
    exact .error hfault

theorem uniform_onNumbers {f : Number → Number → Except Fault Value}
    (hf : ∀ a b, C.Results w (f a b) (f a b)) : C.Uniform w (Primitive.onNumbers f) := by
  intro v v' u u' h hu
  rcases numberOf_cases h with ⟨a, ha, ha'⟩ | ⟨g, g', hg, hg', hfault⟩
  · rcases numberOf_cases hu with ⟨b, hb, hb'⟩ | ⟨g, g', hg, hg', hfault⟩
    · simp only [ha, ha', hb, hb']
      exact hf a b
    · simp only [ha, ha', hg, hg']
      exact .error hfault
  · simp only [hg, hg']
    exact .error hfault

theorem uniform_onFloat (p : Primitive) (f : Float → Float) :
    C.Uniform w (Primitive.onFloat p f) := by
  apply uniform_onNumber
  intro n
  dsimp only
  split
  · exact .plain rfl
  · exact .number _

theorem uniform_operation (p : Primitive) : C.Uniform w p.operation := by
  have hsimilar := fun v v' => @C.similar w v v'
  cases p with
  | equal =>
      intro v v' u u' h hu
      dsimp only
      rw [Value.equal_eq hsimilar v h hu]
      exact .ofBool _
  | isNull =>
      intro v v' h
      dsimp only
      rw [(C.similar _ _ h).isNull_eq]
      exact .ofBool _
  | sequence => trivial
  | print => trivial
  | add => exact uniform_onNumbers fun a b => .numberOr rfl _
  | subtract => exact uniform_onNumbers fun a b => .numberOr rfl _
  | multiply => exact uniform_onNumbers fun a b => .numberOr rfl _
  | divide => exact uniform_onNumbers fun a b => .numberOr rfl _
  | less => exact uniform_onNumbers fun a b => .ofBool _
  | greater => exact uniform_onNumbers fun a b => .ofBool _
  | sqrt => exact uniform_onFloat _ _
  | exp => exact uniform_onFloat _ _
  | log =>
      apply uniform_onNumber
      intro n
      split
      · exact .plain rfl
      · exact .number _
  | sin => exact uniform_onFloat _ _
  | cos => exact uniform_onFloat _ _
  | tan => exact uniform_onFloat _ _
  | abs => exact uniform_onNumber fun n => .numberOr rfl _
  | floor => exact uniform_onNumber fun n => .numberOr rfl _
  | ceil => exact uniform_onNumber fun n => .numberOr rfl _
  | pow => exact uniform_onNumbers fun a b => .number _

/-- The last of corresponding arguments. -/
theorem values_getLast {v v' : Value} {vs vs' : List Value} (h : C.Values w v v')
    (hs : List.Forall₂ (C.Values w) vs vs') :
    C.Values w (vs.getLast?.getD v) (vs'.getLast?.getD v') := by
  induction hs generalizing v v' with
  | nil => exact h
  | cons head tail ih =>
      rw [List.getLast?_cons, List.getLast?_cons, Option.getD_some, Option.getD_some]
      exact ih head

theorem results_onArguments {op : Operation} (hop : C.Uniform w op) {args args' : List Value}
    (hargs : List.Forall₂ (C.Values w) args args')
    {action : Sink → Except Fault Value × Sink} (h : op.onArguments? args = some action) :
    ∃ action', op.onArguments? args' = some action' ∧
      ∀ s, C.Results w (action s).1 (action' s).1 ∧ (action s).2 = (action' s).2 := by
  unfold Operation.onArguments? at h
  split at h
  · rename_i f v
    cases h
    obtain _ | ⟨head, ⟨_⟩⟩ := hargs
    exact ⟨_, rfl, fun s => ⟨hop _ _ head, rfl⟩⟩
  · cases h
    obtain _ | ⟨head, _ | ⟨second, ⟨_⟩⟩⟩ := hargs
    exact ⟨_, rfl, fun s => ⟨hop _ _ _ _ head second, rfl⟩⟩
  · cases h
    obtain _ | ⟨head, tail⟩ := hargs
    exact ⟨_, rfl, fun s => ⟨.ok (values_getLast head tail), rfl⟩⟩
  · cases h
    obtain _ | ⟨head, ⟨_⟩⟩ := hargs
    refine ⟨_, rfl, fun s => ?_⟩
    have htext := Value.text_eq (fun v v' => @C.similar w v v') _ head
    unfold Operation.printLine
    rw [htext]
    rcases s.write _ with ⟨_ | _, s'⟩
    · exact ⟨.plain rfl, rfl⟩
    · exact ⟨.ok (C.null w), rfl⟩
  · cases h

theorem agree_of_answers {w' : World} {x y : Outcome Value} {r r' : Except Fault Value}
    {m n : Machine} (hx : x.answer? = some (r, m)) (hy : y.answer? = some (r', n))
    (later : C.Later w w') (h : C.Results w' r r') (hm : C.Machines place w' m n) :
    C.Agree place w C.Values x y := by
  cases h with
  | ok h =>
      cases x <;> cases hx
      cases y <;> cases hy
      exact .returned later h hm
  | error h =>
      cases x <;> cases hx
      cases y <;> cases hy
      exact .failed later h hm

theorem Agree.answer_left {x y : Outcome Value} (h : C.Agree place w C.Values x y)
    {r' : Except Fault Value} {n : Machine} (hy : y.answer? = some (r', n)) :
    ∃ r m w', x.answer? = some (r, m) ∧ C.Later w w' ∧ C.Results w' r r' ∧
      C.Machines place w' m n := by
  cases h with
  | returned later value machines =>
      cases hy
      exact ⟨_, _, _, rfl, later, .ok value, machines⟩
  | failed later fault machines =>
      cases hy
      exact ⟨_, _, _, rfl, later, .error fault, machines⟩
  | exhausted => cases hy

theorem Agree.answer_right {x y : Outcome Value} (h : C.Agree place w C.Values x y)
    {r : Except Fault Value} {m : Machine} (hx : x.answer? = some (r, m)) :
    ∃ r' n w', y.answer? = some (r', n) ∧ C.Later w w' ∧ C.Results w' r r' ∧
      C.Machines place w' m n := by
  cases h with
  | returned later value machines =>
      cases hx
      exact ⟨_, _, _, rfl, later, .ok value, machines⟩
  | failed later fault machines =>
      cases hx
      exact ⟨_, _, _, rfl, later, .error fault, machines⟩
  | exhausted => cases hx

theorem callPrimitive (p : Primitive) {args args' : List Value}
    (hargs : List.Forall₂ (C.Values w) args args') :
    C.Lockstep place w C.Values (Evaluation.callPrimitive p args)
      (Evaluation.callPrimitive p args') := by
  have hlength := hargs.length_eq
  intro m n hm
  cases hop : p.operation.onArguments? args with
  | none =>
      have hnone : p.operation.onArguments? args' = none := by
        have h := p.operation.isSome_onArguments? args
        rw [hop, hlength, ← p.operation.isSome_onArguments? args'] at h
        simpa using h.symm
      apply agree_of_answers (answer?_callPrimitive_none hop m) (answer?_callPrimitive_none hnone n)
        (C.refl w) _ hm
      rw [hlength]
      exact .plain rfl
  | some action =>
      obtain ⟨action', hop', hresults⟩ := results_onArguments (uniform_operation p) hargs hop
      obtain ⟨hresult, hsink⟩ := hresults m.sink
      rw [C.sink hm] at hresult hsink
      apply agree_of_answers (answer?_callPrimitive hop m) (answer?_callPrimitive hop' n)
        (C.refl w) (C.sink hm ▸ hresult)
      rw [← hsink, C.sink hm]
      exact C.record _ _ (C.print _ (C.record _ _ hm))

section Evaluation

variable {limits : Limits} {fuel : Nat} {self self' : Value → Run Value}

theorem agree_inFrame {inner : Place} {frame frame' : Frame} {x : Run α} {y : Run β}
    {m n : Machine} (h : C.Agree inner w A (x (m.push frame)) (y (n.push frame')))
    (hpop : ∀ w' m' n', C.Later w w' → C.Machines inner w' m' n' →
      C.Machines place w' m'.pop n'.pop) :
    C.Agree place w A (Run.inFrame frame x m) (Run.inFrame frame' y n) := by
  unfold Run.inFrame
  generalize x (m.push frame) = xm, y (n.push frame') = yn at h
  cases h with
  | returned later value machines => exact .returned later value (hpop _ _ _ later machines)
  | failed later fault machines => exact .failed later fault (hpop _ _ _ later machines)
  | exhausted => exact .exhausted

theorem Follows.callProcedure (hself : C.Follows self self') {p p' : Procedure Value}
    {args args' : List Value} (hp : C.Values w (.procedure p) (.procedure p'))
    (hargs : List.Forall₂ (C.Values w) args args') :
    C.Lockstep place w C.Values (Evaluation.callProcedure limits self p args)
      (Evaluation.callProcedure limits self' p' args') := by
  have hname : p.name = p'.name := by
    cases C.similar _ _ hp with
    | procedure _ name => exact name
  have hparameters := C.parameters hp
  intro m n hm
  have hdepth := C.depth hm
  unfold Evaluation.callProcedure
  rw [Run.bind_apply, Run.bind_apply]
  simp only [Run.gets]
  rw [← hdepth, ← hargs.length_eq, ← hparameters]
  by_cases hlength : args.length = p.parameters.length
  · rw [if_neg (fun hne => hne hlength), if_neg (fun hne => hne hlength)]
    cases limits.brokenByCall m.depth with
    | some limit => exact .failed (C.refl w) (.plain rfl) hm
    | none =>
        obtain ⟨inner, hcode, hinner, hpop⟩ := C.call hm hp hargs hlength
        have hbody := hself inner w _ _ hcode _ _ hinner
        change C.Agree place w C.Values (Run.inFrame _ _ _) (Run.inFrame _ _ _)
        refine agree_inFrame ?_ hpop
        rw [inCall, inCall, ← hdepth] at hbody
        exact hbody
  · rw [if_pos hlength, if_pos hlength, hname, Procedure.arity, Procedure.arity, hparameters]
    exact .failed (C.refl w) (.plain rfl) hm

theorem ofMismatch_list {v v' : Value} (h : C.Values w v v') :
    C.Lockstep place w (fun w vs vs' => C.Values w (.list vs) (.list vs'))
      (Run.ofMismatch v.asList) (Run.ofMismatch v'.asList) := by
  have hsimilar := C.similar _ _ h
  cases hsimilar with
  | list elements => exact .pure h
  | _ => exact .fail (.notAList h)

/-- What is looked up corresponds, or is missing on both sides. -/
theorem found {f g : Machine → Option Value} {fault fault' : Fault} (hplain : fault.isPlain = true)
    (h : ∀ m n, C.Machines place w m n → (∃ v v', f m = some v ∧ g n = some v' ∧ C.Values w v v') ∨
      (f m = none ∧ g n = none ∧ fault = fault')) :
    C.Lockstep place w C.Values
      (do match ← Run.gets f with
        | some v => return v
        | none => Run.fail fault)
      (do match ← Run.gets g with
        | some v => return v
        | none => Run.fail fault') := by
  intro m n hm
  rw [Run.bind_apply, Run.bind_apply]
  simp only [Run.gets]
  rcases h m n hm with ⟨v, v', hv, hv', hvalues⟩ | ⟨hnone, hnone', rfl⟩
  · rw [hv, hv']
    exact .returned (C.refl w) hvalues hm
  · rw [hnone, hnone']
    exact .failed (C.refl w) (.plain hplain) hm

theorem valueOf {name name' : Symbol} (h : C.Code place (.symbol name) (.symbol name')) :
    C.Lockstep place w C.Values (Evaluation.valueOf name) (Evaluation.valueOf name') := by
  apply found rfl
  intro m n hm
  rcases C.lookup hm h with hfound | ⟨hnone, hnone', rfl⟩
  · exact Or.inl hfound
  · exact Or.inr ⟨hnone, hnone', rfl⟩

theorem Follows.evaluateAll (hself : C.Follows self self') {es es' : List Value}
    (h : List.Forall₂ (C.Code place) es es') :
    C.Lockstep place w (fun w => List.Forall₂ (C.Values w)) (Evaluation.evaluateAll self es)
      (Evaluation.evaluateAll self' es') := by
  induction h generalizing w with
  | nil => exact .pure .nil
  | cons head tail ih =>
      apply Lockstep.bind (hself _ w _ _ head)
      intro w₁ v v' hw₁ hv
      apply Lockstep.bind ih
      intro w₂ vs vs' hw₂ hvs
      exact .pure (.cons (C.mono hw₂ hv) hvs)

theorem Follows.operator (hself : C.Follows self self') {head head' : Value}
    (h : C.Heads place head head') :
    C.Lockstep place w C.Values (Evaluation.operator self head)
      (Evaluation.operator self' head') := by
  cases h with
  | @named name name' h =>
      apply found rfl
      intro m n hm
      rcases C.named hm h with hfound | ⟨hnone, hnone', rfl⟩
      · exact Or.inl hfound
      · exact Or.inr ⟨hnone, hnone', rfl⟩
  | computed hsymbol hsymbol' h =>
      have hcomputed : ∀ {self : Value → Run Value} {e : Value}, e.isSymbol = false →
          Evaluation.operator self e = self e := by
        intro self e he
        cases e with
        | symbol name => cases he
        | _ => rfl
      rw [hcomputed hsymbol, hcomputed hsymbol']
      exact hself _ w _ _ h

theorem Follows.apply (hself : C.Follows self self') {v v' : Value} {args args' : List Value}
    (h : C.Values w v v') (hargs : List.Forall₂ (C.Values w) args args') :
    C.Lockstep place w C.Values (Evaluation.apply limits self v args)
      (Evaluation.apply limits self' v' args') := by
  have hsimilar := C.similar _ _ h
  cases hsimilar with
  | primitive p => exact callPrimitive p hargs
  | procedure => exact hself.callProcedure h hargs
  | _ => exact .fail (.notCallable h)

theorem Follows.evaluateCall (hself : C.Follows self self') {head head' : Value}
    {operands operands' : List Value} (hhead : C.Heads place head head')
    (hoperands : List.Forall₂ (C.Code place) operands operands') :
    C.Lockstep place w C.Values (Evaluation.evaluateCall limits self head operands)
      (Evaluation.evaluateCall limits self' head' operands') := by
  rw [evaluateCall_eq, evaluateCall_eq]
  apply Lockstep.bind (hself.operator hhead)
  intro w₁ v v' hw₁ hv
  rw [(C.similar _ _ hv).isCallable_eq]
  cases v'.isCallable with
  | false => exact .fail (.notCallable hv)
  | true =>
      apply Lockstep.bind (hself.evaluateAll hoperands)
      intro w₂ args args' hw₂ hargs
      exact hself.apply (C.mono hw₂ hv) hargs

theorem Follows.repeatWhile (hself : C.Follows self self') {t t' b b' : Value}
    (htest : C.Code place t t') (hbody : C.Code place b b') (passes : Nat) :
    C.Lockstep place w C.Values (Evaluation.repeatWhile limits self t b fuel passes)
      (Evaluation.repeatWhile limits self' t' b' fuel passes) := by
  induction fuel generalizing w passes with
  | zero => exact .outOfFuel
  | succ fuel ih =>
      apply Lockstep.bind (hself _ w _ _ htest)
      intro w₁ v v' hw₁ hv
      rw [(C.similar _ _ hv).isTruth_eq]
      cases v'.isTruth with
      | false => exact .bind (.record _ _) fun w₂ _ _ _ _ => .pure (C.null w₂)
      | true =>
          cases hb : limits.brokenByPass (passes + 1) with
          | some limit =>
              exact .fail (.plain rfl)
          | none =>
              exact .bind (hself _ w₁ _ _ hbody) fun w₂ _ _ _ _ => ih (passes + 1)

theorem lockstep_target {t t' : Value} (h : C.Targets place t t') :
    C.Lockstep place w (fun _ => C.Target place) (Run.ofMismatch t.asSymbol)
      (Run.ofMismatch t'.asSymbol) := by
  cases h with
  | symbol h => exact .pure h
  | other hsymbol hsymbol' h =>
      have hmismatch : ∀ {e : Value}, e.isSymbol = false → e.asSymbol = .error (.notASymbol e) := by
        intro e he
        cases e with
        | symbol name => cases he
        | _ => rfl
      rw [hmismatch hsymbol, hmismatch hsymbol']
      exact .fail (.sourceNotASymbol h)

theorem Follows.assign (hself : C.Follows self self') {t t' e e' : Value}
    (ht : C.Targets place t t') (he : C.Code place e e') :
    C.Lockstep place w C.Values (Evaluation.assign self t e) (Evaluation.assign self' t' e') := by
  apply Lockstep.bind (lockstep_target ht)
  intro w₁ name name' hw₁ hname
  apply Lockstep.bind (hself _ w₁ _ _ he)
  intro w₂ v v' hw₂ hv
  apply Lockstep.bind (.record _ _)
  intro w₃ _ _ hw₃ _ m n hm
  have hv₃ := C.mono hw₃ hv
  exact .returned (C.refl w₃) hv₃ (C.set hm hname hv₃)

/-- A piece of program that is the same on both sides is accepted or refused on both. -/
theorem lockstep_ofMismatch {x : Except Mismatch α}
    (h : ∀ cause, x = .error cause → ∃ e, cause = .notAList e ∨ cause = .notASymbol e) :
    C.Lockstep place w (fun _ a b => x = .ok a ∧ b = a) (Run.ofMismatch x) (Run.ofMismatch x) := by
  cases x with
  | ok a => exact .pure ⟨rfl, rfl⟩
  | error cause =>
      obtain ⟨e, rfl | rfl⟩ := h cause rfl
      · exact .fail (.sourceNotAList (C.source e))
      · exact .fail (.sourceNotASymbol (C.source e))

theorem asSymbols_eq_error {vs : List Value} {cause : Mismatch}
    (h : Value.asSymbols vs = .error cause) : ∃ e, cause = .notASymbol e := by
  induction vs with
  | nil => cases h
  | cons v vs ih =>
      cases v with
      | symbol name =>
          change (Value.asSymbols vs).bind (fun names => .ok (name :: names)) = _ at h
          cases hvs : Value.asSymbols vs with
          | ok names =>
              rw [hvs] at h
              cases h
          | error cause' =>
              rw [hvs] at h
              cases h
              exact ih hvs
      | _ => exact ⟨_, (Except.error.inj h).symm⟩

/-- The part of a definition that comes after all its checks. Whether there is a procedure to replace
is decided alike on both sides. -/
theorem lockstep_register {name : Symbol} {operands : List Value} {parameters : List Symbol}
    {body body' : Value} (h : C.Definition place (.symbol name) (.list operands) body body')
    (hps : Value.asSymbols operands = .ok parameters) :
    C.Lockstep place w C.Values
      (do
        let registry ← Run.gets (·.registry)
        if registry.contains name && !limits.allowRedefinition then Run.fail (.redefinition name)
        else do
          if registry.contains name then Run.record (.redefining name)
          Run.record (.defining (registry.fresh name parameters body))
          Run.modify (·.define name parameters body)
          return .symbol name)
      (do
        let registry ← Run.gets (·.registry)
        if registry.contains name && !limits.allowRedefinition then Run.fail (.redefinition name)
        else do
          if registry.contains name then Run.record (.redefining name)
          Run.record (.defining (registry.fresh name parameters body'))
          Run.modify (·.define name parameters body')
          return .symbol name) := by
  intro m n hm
  have hregistered := C.registered name hm
  rw [Run.bind_apply, Run.bind_apply]
  simp only [Run.gets]
  rw [← hregistered]
  split
  · exact .failed (C.refl w) (.plain rfl) hm
  · cases m.registry.contains name with
    | false =>
        obtain ⟨w', hlater, hvalue, hmachines⟩ := C.define hm h hps
        exact .returned hlater hvalue hmachines
    | true =>
        obtain ⟨w', hlater, hvalue, hmachines⟩ :=
          C.define (C.record (.redefining name) (.redefining name) hm) h hps
        exact .returned hlater hvalue hmachines

theorem lockstep_define {name parameters body body' : Value}
    (h : C.Definition place name parameters body body') :
    C.Lockstep place w C.Values (Evaluation.define limits name parameters body)
      (Evaluation.define limits name parameters body') := by
  have hname : ∀ cause, name.asSymbol = .error cause →
      ∃ e, cause = .notAList e ∨ cause = .notASymbol e := by
    intro cause h
    cases name with
    | symbol _ => cases h
    | _ => exact ⟨_, Or.inr (Except.error.inj h).symm⟩
  have hlist : ∀ cause, parameters.asList = .error cause →
      ∃ e, cause = .notAList e ∨ cause = .notASymbol e := by
    intro cause h
    cases parameters with
    | list _ => cases h
    | _ => exact ⟨_, Or.inl (Except.error.inj h).symm⟩
  apply Lockstep.bind (lockstep_ofMismatch hname)
  rintro w₁ _ n hw₁ ⟨hn, rfl⟩
  apply Lockstep.bind (lockstep_ofMismatch hlist)
  rintro w₂ _ operands hw₂ ⟨hoperands, rfl⟩
  apply Lockstep.bind (lockstep_ofMismatch fun cause hcause => by
    obtain ⟨e, rfl⟩ := asSymbols_eq_error hcause
    exact ⟨e, Or.inr rfl⟩)
  rintro w₃ _ ps hw₃ ⟨hps, rfl⟩
  obtain rfl : name = .symbol n := by
    cases name <;> cases hn
    rfl
  obtain rfl : parameters = .list operands := by
    cases parameters <;> cases hoperands
    rfl
  exact lockstep_register h hps

theorem Follows.test (hself : C.Follows self self') {passes : Value → Bool}
    (hpasses : ∀ {w v v'}, Value.Similar (C.Values w) v v' → passes v = passes v') {e e' : Value}
    (he : C.Code place e e') :
    C.Lockstep place w C.Values (Evaluation.test self passes e)
      (Evaluation.test self' passes e') := by
  apply Lockstep.bind (hself _ w _ _ he)
  intro w₁ v v' hw₁ hv
  rw [hpasses (C.similar _ _ hv)]
  cases passes v' with
  | false => exact .pure (C.null w₁)
  | true => exact .pure (C.truth w₁)

theorem Follows.evaluateForm (hself : C.Follows self self') {form form' : Form}
    (h : C.Forms place form form') :
    C.Lockstep place w C.Values (Evaluation.evaluateForm limits fuel self form)
      (Evaluation.evaluateForm limits fuel self' form') := by
  cases h with
  | branch test consequent alternative =>
      apply Lockstep.bind (hself _ w _ _ test)
      intro w₁ v v' hw₁ hv
      rw [(C.similar _ _ hv).isTruth_eq]
      cases v'.isTruth with
      | false => exact hself _ w₁ _ _ alternative
      | true => exact hself _ w₁ _ _ consequent
  | loop test body => exact hself.repeatWhile test body 0
  | assign target expression => exact hself.assign target expression
  | first expression =>
      apply Lockstep.bind (hself _ w _ _ expression)
      intro w₁ v v' hw₁ hv
      apply Lockstep.bind (ofMismatch_list hv)
      intro w₂ vs vs' hw₂ hvs
      cases C.similar _ _ hvs with
      | list elements =>
          cases elements with
          | nil => exact .fail (.plain rfl)
          | cons head tail => exact .pure head
  | rest expression =>
      apply Lockstep.bind (hself _ w _ _ expression)
      intro w₁ v v' hw₁ hv
      apply Lockstep.bind (ofMismatch_list hv)
      intro w₂ vs vs' hw₂ hvs
      exact .pure (C.tail hvs)
  | pair left right =>
      apply Lockstep.bind (hself _ w _ _ left)
      intro w₁ a a' hw₁ ha
      apply Lockstep.bind (hself _ w₁ _ _ right)
      intro w₂ b b' hw₂ hb
      exact .pure (C.pair (C.mono hw₂ ha) hb)
  | isList expression => exact hself.test (fun h => by rw [h.isNumber_eq, h.isSymbol_eq]) expression
  | isNumber expression => exact hself.test (fun h => h.isNumber_eq) expression
  | isSymbol expression => exact hself.test (fun h => h.isSymbol_eq) expression
  | define h => exact lockstep_define h
  | truth => exact .pure (C.truth w)

theorem Follows.step (hself : C.Follows self self') (limits : Limits) (fuel : Nat) :
    C.Follows (Evaluation.step limits fuel self) (Evaluation.step limits fuel self') := by
  intro place w e e' h
  apply Lockstep.bind (.record _ _)
  intro w₁ _ _ hw₁ _
  cases C.view h with
  | number n => exact .pure (C.number w₁ n)
  | symbol => exact valueOf h
  | empty => exact .pure (C.null w₁)
  | @refused k _ _ operands operands' hk hk' hnone hlength =>
      have hnone' : Form.ofOperands? k operands' = none := by
        have hsome := Form.isSome_ofOperands? k operands
        rw [hnone, hlength, ← Form.isSome_ofOperands? k operands'] at hsome
        simpa using hsome.symm
      simp only [evaluateList, hk, hk']
      apply Lockstep.bind (.record _ _)
      intro w₂ _ _ hw₂ _
      simp only [hnone, hnone', hlength]
      exact .fail (.plain rfl)
  | form hk hk' hform hform' hforms =>
      simp only [evaluateList, hk, hk']
      apply Lockstep.bind (.record _ _)
      intro w₂ _ _ hw₂ _
      simp only [hform, hform']
      exact hself.evaluateForm hforms
  | call hk hk' hhead hoperands =>
      simp only [evaluateList, hk, hk']
      exact hself.evaluateCall hhead hoperands

variable (C) in
theorem follows_evaluate (limits : Limits) (fuel : Nat) :
    C.Follows (evaluate limits fuel) (evaluate limits fuel) := by
  induction fuel with
  | zero => exact fun _ _ _ _ _ => .outOfFuel
  | succ fuel ih => exact ih.step limits fuel

/-- What the first evaluation answers, the second answers too, but for what corresponds. -/
theorem finishes_right {limits : Limits} {e e' : Value} {m n : Machine}
    (hcode : C.Code place e e') (hm : C.Machines place w m n) {r : Except Fault Value}
    {m' : Machine} (h : Finishes (evaluate limits · e) m r m') :
    ∃ r' n' w', Finishes (evaluate limits · e') n r' n' ∧ C.Results w' r r' ∧
      C.Machines place w' m' n' := by
  obtain ⟨fuel, hrun⟩ := h
  have hagree := C.follows_evaluate limits fuel place w e e' hcode m n hm
  obtain ⟨r', n', w', hrun', _, hresult, hm'⟩ := hagree.answer_right hrun
  exact ⟨r', n', w', ⟨fuel, hrun'⟩, hresult, hm'⟩

theorem finishes_left {limits : Limits} {e e' : Value} {m n : Machine}
    (hcode : C.Code place e e') (hm : C.Machines place w m n) {r' : Except Fault Value}
    {n' : Machine} (h : Finishes (evaluate limits · e') n r' n') :
    ∃ r m' w', Finishes (evaluate limits · e) m r m' ∧ C.Results w' r r' ∧
      C.Machines place w' m' n' := by
  obtain ⟨fuel, hrun⟩ := h
  have hagree := C.follows_evaluate limits fuel place w e e' hcode m n hm
  obtain ⟨r, m', w', hrun', _, hresult, hm'⟩ := hagree.answer_left hrun
  exact ⟨r, m', w', ⟨fuel, hrun'⟩, hresult, hm'⟩

end Evaluation

end Correspondence

end PocketLisp
