import PocketLisp.Proofs.Contents
import PocketLisp.Proofs.Moments
import PocketLisp.Proofs.Sources

/-!
# The shape of computed values

Every value that a program computes is built from numbers, the symbol `t`, names of procedures,
primitives and procedures that a definition has made, by lists of at most two elements. Program
text is another matter: no longer list and no other symbol of it ever becomes data. Which
definitions were made is read from the journal. Whether a journal is kept makes no difference to
anything else, so the two things are proved at once: one side keeps a journal, the other need not.
-/

namespace PocketLisp

open Evaluation

/-- What has been defined: the names of procedures, and the procedures. -/
structure Defined where
  names : Symbol → Prop
  made : Procedure Value → Prop

structure Defined.Later (d d' : Defined) : Prop where
  names : ∀ name, d.names name → d'.names name
  made : ∀ p, d.made p → d'.made p

/-- What is in the registry by name, and every procedure that a definition in the journal made. -/
def Machine.defined (m : Machine) : Defined where
  names name := m.registry.contains name = true
  made p := .defining p ∈ m.journal.events

namespace Value

/-- Built from what has been defined, by lists of at most two elements. -/
inductive Shaped (d : Defined) : Value → Prop
  | number (n : Number) : Shaped d (.number n)
  | symbol {name : Symbol} (h : name = truthName ∨ d.names name) : Shaped d (.symbol name)
  | list {vs : List Value} (short : vs.length ≤ 2) (elements : ∀ v ∈ vs, Shaped d v) :
      Shaped d (.list vs)
  | primitive {p : Primitive} (h : p ∈ Primitive.all) : Shaped d (.primitive p)
  | procedure {p : Procedure Value} (h : d.made p) : Shaped d (.procedure p)

namespace Shaped

variable {d d' : Defined} {v : Value}

theorem mono (h : v.Shaped d) (later : d.Later d') : v.Shaped d' := by
  induction h with
  | number n => exact .number n
  | symbol h => exact .symbol (h.imp_right (later.names _))
  | list short _ ih => exact .list short ih
  | primitive h => exact .primitive h
  | procedure h => exact .procedure (later.made _ h)

theorem tail {vs : List Value} (h : (Value.list vs).Shaped d) :
    (Value.list vs.tail).Shaped d := by
  cases h with
  | list short elements =>
      refine .list ?_ fun v hv => elements v (List.mem_of_mem_tail hv)
      rw [List.length_tail]
      omega

theorem pair {u : Value} (hv : v.Shaped d) (hu : u.Shaped d) : (Value.list [v, u]).Shaped d := by
  refine .list (Nat.le_refl 2) ?_
  simp only [List.mem_cons, List.not_mem_nil, or_false, forall_eq_or_imp, forall_eq]
  exact ⟨hv, hu⟩

/-- A shaped value looks like itself, and so do its elements. -/
theorem similar (h : v.Shaped d) : Similar (fun v v' => v' = v ∧ v.Shaped d) v v := by
  cases h with
  | number n => exact .number n
  | symbol _ => exact .symbol _
  | list _ elements => exact .list (List.forall₂_same.mpr fun v hv => ⟨rfl, elements v hv⟩)
  | primitive _ => exact .primitive _
  | procedure _ => exact .procedure rfl rfl

end Shaped

end Value

theorem Primitive.mem_all (p : Primitive) : p ∈ all := by
  cases p <;> decide

theorem Environment.shaped_standard (d : Defined) : standard.globals.All (Value.Shaped d) := by
  apply Table.all_ofList
  intro pair hpair
  simp only [List.mem_append, List.mem_map] at hpair
  rcases hpair with (⟨p, _, rfl⟩ | ⟨⟨name, x⟩, _, rfl⟩) | htruth
  · exact .primitive p.mem_all
  · exact .number _
  · simp only [List.mem_cons, List.not_mem_nil, or_false] at htruth
    rcases htruth with rfl | rfl <;> exact .symbol (Or.inl rfl)

namespace Machine

/-- The first machine keeps a journal, which bears out what has been defined. -/
structure Sound (d : Defined) (m n : Machine) : Prop extends Twin m n where
  holds : m.Holds (Value.Shaped d)
  kept : m.journal.kept = true
  names : ∀ name, d.names name → m.registry.contains name = true
  made : ∀ p, d.made p → .defining p ∈ m.journal.events ∧ p.body.IsSource

namespace Sound

variable {d : Defined} {m n : Machine} (h : Sound d m n)

include h

/-- The registry and the journal know all that has been defined. -/
theorem later_defined : d.Later m.defined where
  names := h.names
  made p hp := (h.made p hp).1

theorem holds_defined : m.Holds (Value.Shaped m.defined) :=
  h.holds.imp fun _ hv => hv.mono h.later_defined

theorem withSink (s : Sink) : Sound d (m.withSink s) (n.withSink s) where
  toTwin := h.toTwin.withSink s
  holds := h.holds.withSink s
  kept := h.kept
  names := h.names
  made := h.made

theorem record (event event' : Event) : Sound d (m.record event) (n.record event') where
  toTwin := ⟨h.environment, h.registry, h.sink⟩
  holds := h.holds.record event
  kept := (m.kept_record event).trans h.kept
  names := h.names
  made p hp := ⟨mem_events_record (h.made p hp).1, (h.made p hp).2⟩

end Sound

end Machine

/-- Another procedure, under its name. -/
def Defined.add (d : Defined) (p : Procedure Value) : Defined where
  names name := d.names name ∨ name = p.name
  made q := d.made q ∨ q = p

theorem Defined.later_add (d : Defined) (p : Procedure Value) : d.Later (d.add p) where
  names _ h := Or.inl h
  made _ h := Or.inl h

namespace Machine.Sound

variable {d : Defined} {m n : Machine} (h : Sound d m n)

include h

theorem define (name : Symbol) (parameters : List Symbol) {body : Value} (hbody : body.IsSource) :
    Sound (d.add (m.registry.fresh name parameters body))
      ((m.record (.defining (m.registry.fresh name parameters body))).define name parameters body)
      ((n.record (.defining (n.registry.fresh name parameters body))).define name parameters
        body) where
  environment := h.environment
  registry := congrArg (Registry.define · name parameters body) h.registry
  sink := h.sink
  holds := ((h.holds.imp fun _ hv => hv.mono (d.later_add _)).record _).define
    (.procedure (Or.inr rfl))
  kept := (m.kept_record _).trans h.kept
  names other hother := by
    refine (Registry.contains_define _ _ _ _ _).trans ?_
    rcases hother with hother | rfl
    · rw [show (m.record _).registry.contains other = true from h.names other hother, Bool.or_true]
    · simp [Registry.fresh]
  made p hp := by
    rcases hp with hp | rfl
    · exact ⟨mem_events_record (h.made p hp).1, (h.made p hp).2⟩
    · exact ⟨mem_events_record_self h.kept _, hbody⟩

theorem inCall (p : Procedure Value) {args : List Value} (hargs : ∀ v ∈ args, v.Shaped d) :
    Sound d (Evaluation.inCall p args m) (Evaluation.inCall p args n) := by
  have hrecorded := (h.record (.calling p.name args) (.calling p.name args)).record
    (.pushed (m.depth + 1)) (.pushed (n.depth + 1))
  exact {
    environment := congrArg (Environment.push · _) h.environment
    registry := h.registry
    sink := h.sink
    holds := h.holds.inCall p hargs
    kept := hrecorded.kept
    names := hrecorded.names
    made := hrecorded.made }

theorem pop : Sound d m.pop n.pop where
  environment := congrArg Environment.pop h.environment
  registry := h.registry
  sink := h.sink
  holds := h.holds.pop
  kept := h.kept
  names := h.names
  made := h.made

end Machine.Sound

/-- The same program on both sides, with and without a journal. -/
def shapeReading : Reading Unit where
  Code _ e e' := e' = e ∧ e.IsSource
  Named _ name name' := name' = name
  Target _ name name' := name' = name
  Definition _ _ _ body body' := body' = body ∧ body.IsSource
  Source := Eq

theorem shapeReading_view {e : Value} (h : e.IsSource) : shapeReading.View () e e := by
  have hcode : ∀ a, a.IsSource → shapeReading.Code () a a := fun a ha => ⟨rfl, ha⟩
  have hdefinition : ∀ head name parameters body : Value, keyword? head = some .define →
      (Value.list [head, name, parameters, body]).IsSource →
      shapeReading.Definition () name parameters body body :=
    fun _ _ _ body _ ha => ⟨rfl, ha.elements body (by simp)⟩
  exact Reading.view_of_parts (fun _ ha => ha) (fun _ ha => ha.elements) hcode (fun _ => rfl)
    (fun _ => rfl) hdefinition (fun _ => rfl) h

/-- Whatever is defined, computed values keep their shape, and a journal that is kept makes no
difference. -/
def shapes : Correspondence Defined Unit where
  toReading := shapeReading
  Later := Defined.Later
  Values d v v' := v' = v ∧ v.Shaped d
  Machines _ := Machine.Sound
  refl _ := ⟨fun _ h => h, fun _ h => h⟩
  trans h h' := ⟨fun name hname => h'.names name (h.names name hname),
    fun p hp => h'.made p (h.made p hp)⟩
  mono later h := ⟨h.1, h.2.mono later⟩
  similar := by
    rintro d v _ ⟨rfl, h⟩
    exact h.similar
  number _ n := ⟨rfl, .number n⟩
  truth _ := ⟨rfl, .symbol (Or.inl rfl)⟩
  null _ := ⟨rfl, .list (Nat.zero_le 2) fun _ h => absurd h List.not_mem_nil⟩
  pair := by
    rintro d a _ b _ ⟨rfl, ha⟩ ⟨rfl, hb⟩
    exact ⟨rfl, ha.pair hb⟩
  tail := by
    rintro d vs _ ⟨⟨⟩, h⟩
    exact ⟨rfl, h.tail⟩
  source _ := rfl
  view := by
    rintro _ e _ ⟨rfl, h⟩
    exact shapeReading_view h
  lookup := by
    rintro _ d m n name _ hm ⟨⟨⟩, _⟩
    rw [← hm.toTwin.lookup? name]
    cases hv : m.lookup? name with
    | none => exact Or.inr ⟨rfl, rfl, rfl⟩
    | some v => exact Or.inl ⟨v, v, rfl, rfl, rfl, hm.holds.lookup? hv⟩
  named := by
    rintro _ d m n _ name hm rfl
    rw [← hm.toTwin.operatorNamed? name]
    cases hv : operatorNamed? m name with
    | none => exact Or.inr ⟨rfl, rfl, rfl⟩
    | some v =>
        have hshaped := hm.holds.operatorNamed? (fun p => .primitive p.mem_all) hv
        exact Or.inl ⟨v, v, rfl, rfl, rfl, hshaped⟩
  sink hm := hm.sink
  depth hm := congrArg Environment.depth hm.environment
  record event event' hm := hm.record event event'
  print s hm := hm.withSink s
  set := by
    rintro _ d m n _ name _ v hm rfl ⟨rfl, hv⟩
    exact {
      environment := congrArg (Environment.set · name v) hm.environment
      registry := hm.registry
      sink := hm.sink
      holds := hm.holds.set name hv
      kept := hm.kept
      names := hm.names
      made := hm.made }
  registered name hm := congrArg (Registry.contains · name) hm.registry
  define := by
    rintro _ d m n name operands parameters body _ hm ⟨rfl, hbody⟩ _
    exact ⟨_, d.later_add _, ⟨rfl, .symbol (Or.inr (Or.inr rfl))⟩, hm.define name parameters hbody⟩
  parameters h := by
    cases h.1
    rfl
  call := by
    rintro _ d m n p _ args args' hm ⟨⟨⟩, hp⟩ hargs _
    obtain rfl : args' = args := by
      have hflip := List.Forall₂.imp (fun _ _ h => h.1.symm) hargs
      exact (List.forall₂_eq_eq_eq ▸ hflip).symm
    have hshaped : ∀ v ∈ args', v.Shaped d := by
      intro v hv
      exact (List.forall₂_same.mp hargs v hv).2
    cases hp with
    | procedure hp =>
        exact ⟨(), ⟨rfl, (hm.made p hp).2⟩, hm.inCall p hshaped, fun _ _ _ _ h => h.pop⟩

namespace Outcome

/-- The outcomes differ in the journals of their machines at most. -/
inductive Twin {α : Type} : Outcome α → Outcome α → Prop
  | returned (a : α) {m n : Machine} (h : m.Twin n) : Twin (.returned a m) (.returned a n)
  | failed (fault : Fault) {m n : Machine} (h : m.Twin n) : Twin (.failed fault m) (.failed fault n)
  | exhausted : Twin .exhausted .exhausted

theorem twin_of_agree {d : Defined} {x y : Outcome Value}
    (h : shapes.Agree () d shapes.Values x y) : x.Twin y := by
  cases h with
  | returned _ value machines =>
      obtain ⟨rfl, _⟩ := value
      exact .returned _ machines.toTwin
  | failed _ fault machines =>
      obtain rfl := Fault.Similar.eq fault
      exact .failed _ machines.toTwin
  | exhausted => exact .exhausted

end Outcome

namespace Session

/-- Two sessions that are given the same texts and programs and give the same answers. -/
inductive Alongside (s₀ t₀ : Session) : Session → Session → Prop
  | start : Alongside s₀ t₀ s₀ t₀
  | text {s t s' t' : Session} {fuel : Nat} {text : String} {result : Except Failure Value} :
      Alongside s₀ t₀ s t → s.evaluateText fuel text = some (result, s') →
      t.evaluateText fuel text = some (result, t') → Alongside s₀ t₀ s' t'
  | program {s t s' t' : Session} {fuel : Nat} {text : String}
      {result : Except ReadError (List (Except Fault Value))} :
      Alongside s₀ t₀ s t → s.runProgram fuel text = some (result, s') →
      t.runProgram fuel text = some (result, t') → Alongside s₀ t₀ s' t'

/-- The expressions that a text or a program given to `s` has evaluated, each with the session in
which its turn comes. -/
inductive Evaluates (s : Session) : Value → Session → Prop
  | text {text : String} {e : Value} (hread : Value.read text = .ok e) : Evaluates s e s
  | statement {text : String} {forms earlier later : List Value} {e : Value} {fuel : Nat}
      {results : List (Except Fault Value)} {u : Session} (hread : Value.readAll text = .ok forms)
      (hsplit : Program.statements forms = earlier ++ e :: later)
      (hearlier : (s.record (.runningStatements (Program.statements forms).length)).evaluateEach
        fuel earlier = some (results, u)) : Evaluates s e u

/-- The first session keeps a journal, which bears out what has been defined. -/
structure Sound (d : Defined) (t s : Session) : Prop where
  limits : t.limits = s.limits
  machine : Machine.Sound d t.machine s.machine

theorem sound_start (limits : Limits) (sink : Sink) (kept : Bool) :
    Sound ⟨fun _ => False, fun _ => False⟩ (start limits sink { kept := true })
      (start limits sink { kept }) where
  limits := rfl
  machine :=
    { environment := rfl
      registry := rfl
      sink := rfl
      holds := ⟨Environment.shaped_standard _, fun _ h => absurd h List.not_mem_nil,
        fun _ _ h => by cases h⟩
      kept := rfl
      names := fun _ h => h.elim
      made := fun _ h => h.elim }

theorem isSource_of_read {text : String} {e : Value} (h : Value.read text = .ok e) : e.IsSource :=
  (Value.readable_of_read h).isSource

theorem isSource_of_mem_statements {text : String} {forms : List Value}
    (h : Value.readAll text = .ok forms) : ∀ e ∈ Program.statements forms, e.IsSource :=
  Program.isSource_of_mem_statements fun e he => (Value.readable_of_readAll h e he).isSource

namespace Sound

variable {d : Defined} {t s : Session} (h : Sound d t s)

include h

theorem record (event : Event) : Sound d (t.record event) (s.record event) :=
  ⟨h.limits, h.machine.record event event⟩

/-- What one evaluation leaves. A refused flush leaves a fault, never another value. -/
theorem evaluate {fuel : Nat} {e : Value} (he : e.IsSource) {r : Except Fault Value} {s' : Session}
    (hrun : s.evaluate fuel e = some (r, s')) :
    ∃ d' t', t.evaluate fuel e = some (r, t') ∧ Sound d' t' s' ∧ d.Later d' ∧
      ∀ v, r = .ok v → v.Shaped d' := by
  obtain ⟨r₀, m', hanswer, rfl, rfl⟩ := evaluate_eq_some.mp hrun
  have hagree := shapes.follows_evaluate s.limits fuel () d e e ⟨rfl, he⟩ _ _ h.machine
  obtain ⟨r₁, n', d', hanswer', later, hresults, hm⟩ := hagree.answer_left hanswer
  have hvalue : r₁ = r₀ ∧ ∀ v, r₀ = .ok v → v.Shaped d' := by
    cases hresults with
    | ok hv =>
        obtain ⟨rfl, hv⟩ := hv
        exact ⟨rfl, fun v hok => Except.ok.inj hok ▸ hv⟩
    | error hfault => exact ⟨congrArg _ (Fault.Similar.eq hfault), fun v hok => by cases hok⟩
  obtain ⟨rfl, hshaped⟩ := hvalue
  refine ⟨d', { t with machine := n'.withSink m'.sink.flush.2 }, ?_,
    ⟨h.limits, hm.withSink m'.sink.flush.2⟩, later, ?_⟩
  · exact evaluate_eq_some.mpr
      ⟨r₁, n', h.limits ▸ hanswer', by rw [hm.sink], by rw [hm.sink]⟩
  · intro v hv
    apply hshaped v
    unfold flushed at hv
    split at hv
    · exact hv
    · cases hv

theorem evaluateEach {fuel : Nat} {es : List Value} (hes : ∀ e ∈ es, e.IsSource)
    {results : List (Except Fault Value)} {s' : Session}
    (hrun : s.evaluateEach fuel es = some (results, s')) :
    ∃ d' t', t.evaluateEach fuel es = some (results, t') ∧ Sound d' t' s' ∧ d.Later d' ∧
      ∀ v, .ok v ∈ results → v.Shaped d' := by
  induction es generalizing d t s results with
  | nil =>
      cases hrun
      exact ⟨d, t, rfl, h, shapes.refl d, fun _ hv => absurd hv List.not_mem_nil⟩
  | cons e es ih =>
      obtain ⟨r, s₁, rest, hfirst, hrest, rfl⟩ := evaluateEach_cons.mp hrun
      rw [List.forall_mem_cons] at hes
      obtain ⟨d₁, t₁, hfirst', hsound₁, later₁, hshaped₁⟩ := h.evaluate hes.1 hfirst
      obtain ⟨d₂, t₂, hrest', hsound₂, later₂, hshaped₂⟩ := ih hsound₁ hes.2 hrest
      refine ⟨d₂, t₂, ?_, hsound₂, shapes.trans later₁ later₂, ?_⟩
      · exact evaluateEach_cons.mpr ⟨r, t₁, rest, hfirst', hrest', rfl⟩
      · intro v hv
        rcases List.mem_cons.mp hv with hv | hv
        · exact (hshaped₁ v hv.symm).mono later₂
        · exact hshaped₂ v hv

theorem evaluateText {fuel : Nat} {text : String} {result : Except Failure Value} {s' : Session}
    (hrun : s.evaluateText fuel text = some (result, s')) :
    ∃ d' t', t.evaluateText fuel text = some (result, t') ∧ Sound d' t' s' ∧
      ∀ v, result = .ok v → v.Shaped d' := by
  unfold Session.evaluateText at hrun ⊢
  cases hread : Value.read text with
  | error cause =>
      rw [hread] at hrun
      cases hrun
      exact ⟨d, t, rfl, h, fun v hv => by cases hv⟩
  | ok e =>
      rw [hread] at hrun
      obtain ⟨⟨r, s₁⟩, hr, heq⟩ := Option.map_eq_some_iff.mp hrun
      cases heq
      obtain ⟨d', t', hr', hsound, _, hshaped⟩ := h.evaluate (isSource_of_read hread) hr
      refine ⟨d', t', by simp only [hr', Option.map_some], hsound, ?_⟩
      intro v hv
      cases r with
      | ok u => exact hshaped v (congrArg Except.ok (Except.ok.inj hv))
      | error fault => cases hv

theorem runProgram {fuel : Nat} {text : String}
    {result : Except ReadError (List (Except Fault Value))} {s' : Session}
    (hrun : s.runProgram fuel text = some (result, s')) :
    ∃ d' t', t.runProgram fuel text = some (result, t') ∧ Sound d' t' s' ∧
      ∀ results, result = .ok results → ∀ v, .ok v ∈ results → v.Shaped d' := by
  unfold Session.runProgram at hrun ⊢
  cases hread : Value.readAll text with
  | error cause =>
      rw [hread] at hrun
      cases hrun
      exact ⟨d, t, rfl, h, fun results hresults => by cases hresults⟩
  | ok forms =>
      rw [hread] at hrun
      obtain ⟨⟨results, s₁⟩, hr, heq⟩ := Option.map_eq_some_iff.mp hrun
      cases heq
      obtain ⟨d', t', hr', hsound, _, hshaped⟩ :=
        (h.record _).evaluateEach (isSource_of_mem_statements hread) hr
      refine ⟨d', t', by simp only [hr', Option.map_some], hsound, ?_⟩
      intro results' hresults'
      cases hresults'
      exact hshaped

theorem evaluates {e : Value} {u : Session} (he : s.Evaluates e u) :
    e.IsSource ∧ ∃ d' u', t.Evaluates e u' ∧ Sound d' u' u := by
  cases he with
  | text hread => exact ⟨isSource_of_read hread, d, t, .text hread, h⟩
  | statement hread hsplit hearlier =>
      have hsource := isSource_of_mem_statements hread
      rw [hsplit, List.forall_mem_append, List.forall_mem_cons] at hsource
      obtain ⟨d', u', hrun, hsound, _, _⟩ := (h.record _).evaluateEach hsource.1 hearlier
      exact ⟨hsource.2.1, d', u', .statement hread hsplit hrun, hsound⟩

theorem twin : s.Twin t :=
  ⟨h.limits.symm, h.machine.toTwin.symm⟩

theorem later_defined : d.Later t.machine.defined :=
  h.machine.later_defined

end Sound

/-- Every history can be repeated with a journal. -/
theorem exists_alongside {limits : Limits} {sink : Sink} {kept : Bool} {s : Session}
    (h : (start limits sink { kept }).Reaches s) :
    ∃ d t, (start limits sink { kept }).Alongside (start limits sink { kept := true }) s t ∧
      Sound d t s := by
  induction h with
  | refl => exact ⟨_, _, .start, sound_start limits sink kept⟩
  | text _ hrun ih =>
      obtain ⟨d, t, halong, hsound⟩ := ih
      obtain ⟨d', t', hrun', hsound', _⟩ := hsound.evaluateText hrun
      exact ⟨d', t', .text halong hrun hrun', hsound'⟩
  | program _ hrun ih =>
      obtain ⟨d, t, halong, hsound⟩ := ih
      obtain ⟨d', t', hrun', hsound', _⟩ := hsound.runProgram hrun
      exact ⟨d', t', .program halong hrun hrun', hsound'⟩

end Session

/-- All that the machine holds is of the right shape, and so is the value returned, if any. -/
def Moment.Shapely : Moment → Prop
  | .begins _ m | .fails _ m => m.Holds (Value.Shaped m.defined)
  | .returns v m => m.Holds (Value.Shaped m.defined) ∧ v.Shaped m.defined

theorem shapes_quiet {interrupt : Moment → Option (Outcome Value)}
    (h : ∀ moment : Moment, moment.Shapely → interrupt moment = none) :
    shapes.Quiet interrupt where
  begins hm _ := h _ hm.holds_defined
  returns hm hv := h _ ⟨hm.holds_defined, hv.2.mono hm.later_defined⟩
  fails hm := h _ hm.holds_defined

/-- In a session from the standard environment, all globals, all results and, whenever an evaluation
begins or ends inside the evaluation of a text or of a statement, all variables are of the shape
that the registry and a journal of the same session allow: a watcher who interrupts only on
something else never interrupts. -/
theorem computed_values_shaped {limits : Limits} {sink : Sink} {kept : Bool} {s : Session}
    (h : (Session.start limits sink { kept }).Reaches s) :
    ∃ t, (Session.start limits sink { kept }).Alongside (.start limits sink { kept := true }) s t ∧
      s.Twin t ∧
      s.machine.environment.globals.All (Value.Shaped t.machine.defined) ∧
      (∀ fuel text v s', s.evaluateText fuel text = some (.ok v, s') →
        ∃ t', t.evaluateText fuel text = some (.ok v, t') ∧ s'.Twin t' ∧
          v.Shaped t'.machine.defined) ∧
      (∀ fuel text results s', s.runProgram fuel text = some (.ok results, s') →
        ∃ t', t.runProgram fuel text = some (.ok results, t') ∧ s'.Twin t' ∧
          ∀ v, .ok v ∈ results → v.Shaped t'.machine.defined) ∧
      ∀ e u, s.Evaluates e u → ∃ u', t.Evaluates e u' ∧ u.Twin u' ∧
        ∀ interrupt, (∀ moment : Moment, moment.Shapely → interrupt moment = none) → ∀ fuel,
          (watched interrupt limits fuel e u'.machine).Twin
            (evaluate limits fuel e u.machine) := by
  obtain ⟨d, t, halong, hsound⟩ := Session.exists_alongside h
  refine ⟨t, halong, hsound.twin, ?_, ?_, ?_, ?_⟩
  · rw [← hsound.machine.environment]
    exact hsound.machine.holds_defined.globals
  · intro fuel text v s' hrun
    obtain ⟨d', t', hrun', hsound', hshaped⟩ := hsound.evaluateText hrun
    exact ⟨t', hrun', hsound'.twin, (hshaped v rfl).mono hsound'.later_defined⟩
  · intro fuel text results s' hrun
    obtain ⟨d', t', hrun', hsound', hshaped⟩ := hsound.runProgram hrun
    exact ⟨t', hrun', hsound'.twin, fun v hv => (hshaped _ rfl v hv).mono hsound'.later_defined⟩
  · intro e u he
    obtain ⟨hsource, d', u', he', hsound'⟩ := hsound.evaluates he
    refine ⟨u', he', hsound'.twin, ?_⟩
    intro interrupt hinterrupt fuel
    exact Outcome.twin_of_agree ((shapes_quiet hinterrupt).follows limits fuel () d' e e
      ⟨rfl, hsource⟩ _ _ hsound'.machine)

/-- Whether the session, which keeps no journal, answers `(F 7)` with a number and `F` itself. -/
def answersPair (s : Session) : Bool :=
  match s.evaluateText 8 "(F 7)" with
  | some (.ok (.list [.number _, .procedure p]), _) => p.name == "F"
  | _ => false

/-- A procedure that puts itself into a list: the journal would show its definition. -/
theorem computed_values_shaped_pair :
    ∃ s t n p s' t', (Session.start {} {} {}).Reaches s ∧
      (Session.start {} {} {}).Alongside (.start {} {} { kept := true }) s t ∧
      s.evaluateText 8 "(F 7)" = some (.ok (.list [.number n, .procedure p]), s') ∧
      p.name = "F" ∧ t.evaluateText 8 "(F 7)" = some (.ok (.list [.number n, .procedure p]), t') ∧
      (Value.list [.number n, .procedure p]).Shaped t'.machine.defined := by
  have hprogram : (((Session.start {} {} {}).runProgram 8 "(DEFINE F (X) (CONS X F))").any
      fun answer => answersPair answer.2) = true := by decide +kernel
  obtain ⟨⟨result, s⟩, hs, hpair⟩ := (Option.any_eq_true _ _).mp hprogram
  have hreaches : (Session.start {} {} {}).Reaches s := .program .refl hs
  obtain ⟨t, halong, _, _, htext, _, _⟩ := computed_values_shaped hreaches
  unfold answersPair at hpair
  split at hpair
  · rename_i n p s' hanswer
    obtain ⟨t', hanswer', _, hshaped⟩ := htext _ _ _ _ hanswer
    exact ⟨s, t, n, p, s', t', hreaches, halong, hanswer, by simpa using hpair, hanswer', hshaped⟩
  · cases hpair

end PocketLisp
