import PocketLisp.CommandLine.Batch
import PocketLisp.Proofs.Journals

/-!
# Sources that fail

The sources of a batch share one session, and fail in three ways: a source cannot be loaded, its
text does not read, or some of its statements fail. In the first two cases nothing of it is run, so
that the others do not notice it. The verdict on the batch says whether there was anything to report.
-/

namespace PocketLisp.CommandLine

/-- One report for each fault, in the order of the statements. -/
def faultReports (source : Source) (results : List (Except Fault Value)) : List Report :=
  results.filterMap fun
    | .ok _ => none
    | .error fault => some ⟨source, fault.message⟩

/-- The source has no text, or one that does not read; the report says which, and why. -/
inductive Rejected (inputs : Inputs) (source : Source) : Report → Prop
  | unloaded {cause : LoadFault} (hload : (inputs.load source).1 = .error cause) :
      Rejected inputs source (reportLoad source cause)
  | unread {text : String} {cause : ReadError} (hload : (inputs.load source).1 = .ok text)
      (hread : Value.readAll text = .error cause) :
      Rejected inputs source (reportRead source cause)

/-- What the journal says before a source is loaded. -/
def announced (s : Session) (source : Source) : Session :=
  s.record (.runningSource source.label)

/-- Sources in order, with the reports that they call for and the session that they leave. -/
inductive Took : Inputs → Session → List Source → List Report → Session → Prop
  | done (inputs : Inputs) (s : Session) : Took inputs s [] [] s
  | rejected {inputs : Inputs} {s s' : Session} {source : Source} {sources : List Source}
      {report : Report} {reports : List Report} (hrejected : Rejected inputs source report)
      (hrest : Took (inputs.load source).2 (announced s source) sources reports s') :
      Took inputs s (source :: sources) (report :: reports) s'
  | ran {inputs : Inputs} {s s₁ s' : Session} {source : Source} {sources : List Source}
      {text : String} {results : List (Except Fault Value)} {reports : List Report}
      (hload : (inputs.load source).1 = .ok text)
      (hruns : (announced s source).Runs text (.ok results) s₁)
      (hrest : Took (inputs.load source).2 s₁ sources reports s') :
      Took inputs s (source :: sources) (faultReports source results ++ reports) s'

namespace Batch

/-- The batch with more reports, and with another session. -/
def after (b : Batch) (reports : List Report) (s : Session) : Batch :=
  ⟨s, b.reports ++ reports.toArray, b.ok && reports.isEmpty⟩

theorem after_after (b : Batch) (reports₁ reports₂ : List Report) (s₁ s₂ : Session) :
    (b.after reports₁ s₁).after reports₂ s₂ = b.after (reports₁ ++ reports₂) s₂ := by
  cases reports₁ with
  | nil => simp [after]
  | cons report reports₁ => simp [after]

theorem after_nil (b : Batch) : b.after [] b.session = b := by
  simp [after]

/-- A report and the verdict that belongs to it. -/
theorem fail_report (b : Batch) (report : Report) :
    (b.report report).fail = b.after [report] b.session := by
  simp [Batch.report, Batch.fail, after]

theorem reportFaults_eq_after (b : Batch) (source : Source) (results : List (Except Fault Value)) :
    b.reportFaults source results = b.after (faultReports source results) b.session := by
  induction results generalizing b with
  | nil => exact b.after_nil.symm
  | cons result results ih =>
      cases result with
      | ok v => exact ih b
      | error fault =>
          show (b.report _).fail.reportFaults source results = _
          rw [ih, fail_report, after_after]
          rfl

theorem runSource_of_rejected {inputs : Inputs} {source : Source} {report : Report}
    (h : Rejected inputs source report) (fuel : Nat) (b : Batch) :
    b.runSource fuel source (inputs.load source).1 =
      some (b.after [report] (announced b.session source)) := by
  cases h with
  | unloaded hload =>
      rw [hload]
      exact congrArg some (fail_report _ _)
  | unread hload hread =>
      rw [hload]
      simp only [runSource, Session.runProgram_of_unread hread, Option.map_some]
      exact congrArg some (fail_report _ _)

/-- All that one source can do to a batch: be rejected, or run and be reported on. -/
theorem runSource_eq_some {inputs : Inputs} {source : Source} {fuel : Nat} {b b' : Batch} :
    b.runSource fuel source (inputs.load source).1 = some b' ↔
      (∃ report, Rejected inputs source report ∧
        b' = b.after [report] (announced b.session source)) ∨
      ∃ text results s, (inputs.load source).1 = .ok text ∧
        (announced b.session source).runProgram fuel text = some (.ok results, s) ∧
        b' = b.after (faultReports source results) s := by
  constructor
  · intro h
    cases hload : (inputs.load source).1 with
    | error cause =>
        have hrejected := Rejected.unloaded hload
        rw [runSource_of_rejected hrejected] at h
        exact Or.inl ⟨_, hrejected, (Option.some.inj h).symm⟩
    | ok text =>
        cases hread : Value.readAll text with
        | error cause =>
            have hrejected := Rejected.unread hload hread
            rw [runSource_of_rejected hrejected] at h
            exact Or.inl ⟨_, hrejected, (Option.some.inj h).symm⟩
        | ok forms =>
            rw [hload] at h
            obtain ⟨⟨result, s⟩, hrun, rfl⟩ := Option.map_eq_some_iff.mp h
            obtain ⟨results, _, rfl⟩ := (Session.runProgram_eq_some hread).mp hrun
            exact Or.inr ⟨text, results, s, rfl, hrun, reportFaults_eq_after _ _ _⟩
  · rintro (⟨report, hrejected, rfl⟩ | ⟨text, results, s, hload, hrun, rfl⟩)
    · exact runSource_of_rejected hrejected fuel b
    · rw [hload]
      exact Option.map_eq_some_iff.mpr ⟨_, hrun, reportFaults_eq_after _ _ _⟩

theorem run_cons {fuel : Nat} {inputs : Inputs} {b b'' : Batch} {source : Source}
    {sources : List Source} :
    b.run fuel inputs (source :: sources) = some b'' ↔
      ∃ b', b.runSource fuel source (inputs.load source).1 = some b' ∧
        b'.run fuel (inputs.load source).2 sources = some b'' := by
  have hrun : b.run fuel inputs (source :: sources) =
      (b.runSource fuel source (inputs.load source).1).bind
        fun b' => b'.run fuel (inputs.load source).2 sources := by
    simp only [run, runAll, StateT.run_bind, StateT.run_modifyGet, pure_bind]
    cases b.runSource fuel source (inputs.load source).1 with
    | none => rfl
    | some b' => rfl
  rw [hrun, Option.bind_eq_some_iff]

theorem run_mono {n n' : Nat} (hle : n ≤ n') {inputs : Inputs} {b b' : Batch}
    {sources : List Source} (h : b.run n inputs sources = some b') :
    b.run n' inputs sources = some b' := by
  induction sources generalizing inputs b with
  | nil => exact h
  | cons source sources ih =>
      obtain ⟨b₁, hsource, hrest⟩ := run_cons.mp h
      refine run_cons.mpr ⟨b₁, ?_, ih hrest⟩
      rcases runSource_eq_some.mp hsource with hrejected | ⟨text, results, s, hload, hrun, rfl⟩
      · exact runSource_eq_some.mpr (Or.inl hrejected)
      · exact runSource_eq_some.mpr
          (Or.inr ⟨text, results, s, hload, Session.runProgram_mono hle hrun, rfl⟩)

theorem took_of_run {fuel : Nat} {inputs : Inputs} {b b' : Batch} {sources : List Source}
    (h : b.run fuel inputs sources = some b') :
    ∃ reports s, Took inputs b.session sources reports s ∧ b' = b.after reports s := by
  induction sources generalizing inputs b with
  | nil =>
      cases h
      exact ⟨[], _, .done _ _, (after_nil _).symm⟩
  | cons source sources ih =>
      obtain ⟨b₁, hsource, hrest⟩ := run_cons.mp h
      obtain ⟨reports, s, htook, rfl⟩ := ih hrest
      rcases runSource_eq_some.mp hsource with
        ⟨report, hrejected, rfl⟩ | ⟨text, results, s₁, hload, hrun, rfl⟩
      · exact ⟨_, s, .rejected hrejected htook, after_after _ _ _ _ _⟩
      · exact ⟨_, s, .ran hload ⟨fuel, hrun⟩ htook, after_after _ _ _ _ _⟩

theorem run_of_took {inputs : Inputs} {s s' : Session} {sources : List Source}
    {reports : List Report} (h : Took inputs s sources reports s') {b : Batch}
    (hb : b.session = s) : ∃ fuel, b.run fuel inputs sources = some (b.after reports s') := by
  induction h generalizing b with
  | done inputs s =>
      subst hb
      exact ⟨0, congrArg some b.after_nil.symm⟩
  | @rejected inputs s s' source sources report reports hrejected hrest ih =>
      subst hb
      obtain ⟨fuel, hrun⟩ := ih (b := b.after [report] (announced b.session source)) rfl
      rw [after_after] at hrun
      exact ⟨fuel, run_cons.mpr ⟨_, runSource_of_rejected hrejected fuel b, hrun⟩⟩
  | @ran inputs s s₁ s' source sources text results reports hload hruns hrest ih =>
      subst hb
      obtain ⟨fuel₁, hfirst⟩ := hruns
      obtain ⟨fuel₂, hrun⟩ := ih (b := b.after (faultReports source results) s₁) rfl
      rw [after_after] at hrun
      have hfirst := Session.runProgram_mono (Nat.le_max_left fuel₁ fuel₂) hfirst
      have hrun := run_mono (Nat.le_max_right fuel₁ fuel₂) hrun
      exact ⟨max fuel₁ fuel₂, run_cons.mpr ⟨_,
        runSource_eq_some.mpr (Or.inr ⟨text, results, s₁, hload, hfirst, rfl⟩), hrun⟩⟩

end Batch

/-- The sources, run in the session from the start, make this batch. -/
def Completes (inputs : Inputs) (s : Session) (sources : List Source) (b : Batch) : Prop :=
  ∃ fuel, runSources fuel inputs s sources = some b

theorem completes_iff {inputs : Inputs} {s : Session} {sources : List Source} {b : Batch} :
    Completes inputs s sources b ↔
      (b.ok = true ↔ b.reports = #[]) ∧ Took inputs s sources b.reports.toList b.session := by
  have hstart : ∀ reports s', (⟨s, #[], true⟩ : Batch).after reports s' =
      ⟨s', reports.toArray, reports.isEmpty⟩ := by
    intro reports s'
    simp [Batch.after]
  constructor
  · rintro ⟨fuel, hrun⟩
    obtain ⟨reports, s', htook, rfl⟩ := Batch.took_of_run hrun
    rw [hstart]
    refine ⟨?_, htook⟩
    simp
  · rintro ⟨hok, htook⟩
    obtain ⟨fuel, hrun⟩ := Batch.run_of_took htook (b := { session := s }) rfl
    obtain ⟨s', reports, ok⟩ := b
    have hverdict : reports.toList.isEmpty = ok := by
      rw [Bool.eq_iff_iff]
      simpa using hok.symm
    refine ⟨fuel, hrun.trans ?_⟩
    rw [hstart, hverdict]

namespace Inputs

/-- What is left when the sources have been loaded. -/
def after (inputs : Inputs) (sources : List Source) : Inputs :=
  sources.foldl (fun inputs source => (inputs.load source).2) inputs

theorem load_of_ne {source : Source} (h : source ≠ .standardInput) (inputs : Inputs) :
    (inputs.load source).2 = inputs := by
  cases source with
  | standardInput => exact absurd rfl h
  | file path => rfl
  | expression text => rfl

/-- Only the standard input is used up. -/
theorem load_after {source : Source} (h : source ≠ .standardInput) (inputs : Inputs)
    (earlier : List Source) : ((inputs.after earlier).load source).1 = (inputs.load source).1 := by
  have hfiles : (inputs.after earlier).files = inputs.files := by
    induction earlier generalizing inputs with
    | nil => rfl
    | cons first earlier ih =>
        have hfirst : (inputs.load first).2.files = inputs.files := by cases first <;> rfl
        exact (ih (inputs.load first).2).trans hfirst
  cases source with
  | standardInput => exact absurd rfl h
  | file path => exact congrArg (· >>= decode) (congrFun hfiles path)
  | expression text => rfl

end Inputs

theorem announced_twin (s : Session) (source : Source) : (announced s source).Twin s :=
  s.twin_record _

namespace Rejected

variable {inputs : Inputs} {source : Source} {report : Report} (h : Rejected inputs source report)

include h

theorem unique {report' : Report} (h' : Rejected inputs source report') : report' = report := by
  cases h with
  | unloaded hload =>
      cases h' with
      | unloaded hload' => rw [Except.error.inj (hload'.symm.trans hload)]
      | unread hload' _ => cases hload'.symm.trans hload
  | unread hload hread =>
      cases h' with
      | unloaded hload' => cases hload'.symm.trans hload
      | unread hload' hread' =>
          obtain rfl := Except.ok.inj (hload'.symm.trans hload)
          rw [Except.error.inj (hread'.symm.trans hread)]

theorem not_runs {text : String} (hload : (inputs.load source).1 = .ok text) {s s' : Session}
    {results : List (Except Fault Value)} : ¬ s.Runs text (.ok results) s' := by
  rintro ⟨fuel, hrun⟩
  cases h with
  | unloaded hnone => cases hnone.symm.trans hload
  | unread hload' hread =>
      obtain rfl := Except.ok.inj (hload'.symm.trans hload)
      rw [Session.runProgram_of_unread hread] at hrun
      cases hrun

theorem later (hsource : source ≠ .standardInput) (earlier : List Source) :
    Rejected (inputs.after earlier) source report := by
  cases h with
  | unloaded hload => exact .unloaded (by rw [Inputs.load_after hsource, hload])
  | unread hload hread => exact .unread (by rw [Inputs.load_after hsource, hload]) hread

end Rejected

namespace Took

theorem twin {inputs : Inputs} {s s' : Session} {sources : List Source} {reports : List Report}
    (h : Took inputs s sources reports s') {t : Session} (htwin : s.Twin t) :
    ∃ t', Took inputs t sources reports t' ∧ s'.Twin t' := by
  induction h generalizing t with
  | done inputs s => exact ⟨t, .done inputs t, htwin⟩
  | rejected hrejected _ ih =>
      obtain ⟨t', hrest, htwin'⟩ := ih (htwin.record _ _)
      exact ⟨t', .rejected hrejected hrest, htwin'⟩
  | ran hload hruns _ ih =>
      obtain ⟨t₁, hruns', htwin₁⟩ := (htwin.record _ _).runs hruns
      obtain ⟨t', hrest, htwin'⟩ := ih htwin₁
      exact ⟨t', .ran hload hruns' hrest, htwin'⟩

theorem append {inputs : Inputs} {s s₁ s₂ : Session} {before later : List Source}
    {reports₁ reports₂ : List Report} (h₁ : Took inputs s before reports₁ s₁)
    (h₂ : Took (inputs.after before) s₁ later reports₂ s₂) :
    Took inputs s (before ++ later) (reports₁ ++ reports₂) s₂ := by
  induction h₁ with
  | done inputs s => exact h₂
  | rejected hrejected _ ih => exact .rejected hrejected (ih h₂)
  | ran hload hruns _ ih =>
      rw [List.append_assoc]
      exact .ran hload hruns (ih h₂)

theorem split {before later : List Source} {inputs : Inputs} {s s₂ : Session}
    {reports : List Report} (h : Took inputs s (before ++ later) reports s₂) :
    ∃ reports₁ s₁ reports₂, reports = reports₁ ++ reports₂ ∧ Took inputs s before reports₁ s₁ ∧
      Took (inputs.after before) s₁ later reports₂ s₂ := by
  induction before generalizing inputs s reports with
  | nil => exact ⟨[], s, reports, rfl, .done inputs s, h⟩
  | cons source before ih =>
      cases h with
      | rejected hrejected hrest =>
          obtain ⟨reports₁, s₁, reports₂, rfl, h₁, h₂⟩ := ih hrest
          exact ⟨_, s₁, reports₂, rfl, .rejected hrejected h₁, h₂⟩
      | ran hload hruns hrest =>
          obtain ⟨reports₁, s₁, reports₂, rfl, h₁, h₂⟩ := ih hrest
          exact ⟨_, s₁, reports₂, (List.append_assoc _ _ _).symm, .ran hload hruns h₁, h₂⟩

/-- A source that is rejected is not run, and there is one report on it. -/
theorem of_rejected {inputs : Inputs} {s s' : Session} {source : Source} {sources : List Source}
    {report : Report} {reports : List Report} (hrejected : Rejected inputs source report)
    (h : Took inputs s (source :: sources) reports s') :
    ∃ rest, reports = report :: rest ∧
      Took (inputs.load source).2 (announced s source) sources rest s' := by
  cases h with
  | @rejected _ _ _ _ _ _ rest hrejected' hrest =>
      obtain rfl := hrejected.unique hrejected'
      exact ⟨rest, rfl, hrest⟩
  | ran hload hruns _ => exact absurd hruns (hrejected.not_runs hload)

variable {inputs : Inputs} {s s' : Session} {before later : List Source} {bad : Source}
  {report : Report} {reports : List Report} (hbad : bad ≠ .standardInput)
  (hrejected : Rejected inputs bad report)

include hbad hrejected

/-- A source that is rejected can be left out, and its report with it. -/
theorem remove (h : Took inputs s (before ++ bad :: later) reports s') :
    ∃ reports₁ reports₂ t', reports = reports₁ ++ report :: reports₂ ∧
      Took inputs s (before ++ later) (reports₁ ++ reports₂) t' ∧ t'.Twin s' := by
  obtain ⟨reports₁, s₁, _, rfl, hbefore, hrest⟩ := h.split
  obtain ⟨reports₂, rfl, hlater⟩ := of_rejected (hrejected.later hbad before) hrest
  rw [Inputs.load_of_ne hbad] at hlater
  obtain ⟨t', hlater', htwin⟩ := hlater.twin (announced_twin s₁ bad)
  exact ⟨reports₁, reports₂, t', rfl, hbefore.append hlater', htwin.symm⟩

/-- And it can be put in. -/
theorem insert (h : Took inputs s (before ++ later) reports s') :
    ∃ reports₁ reports₂ t', reports = reports₁ ++ reports₂ ∧
      Took inputs s (before ++ bad :: later) (reports₁ ++ report :: reports₂) t' ∧
      t'.Twin s' := by
  obtain ⟨reports₁, s₁, reports₂, rfl, hbefore, hlater⟩ := h.split
  obtain ⟨t', hlater', htwin⟩ := hlater.twin (announced_twin s₁ bad).symm
  have hrest : Took (inputs.after before) s₁ (bad :: later) (report :: reports₂) t' :=
    .rejected (hrejected.later hbad before) (by rwa [Inputs.load_of_ne hbad])
  exact ⟨reports₁, reports₂, t', rfl, hbefore.append hrest, htwin.symm⟩

end Took

/-- The second batch lacks the one report, and is otherwise the same but for the journal. -/
def Batch.Without (b : Batch) (report : Report) (b' : Batch) : Prop :=
  (∃ reports₁ reports₂, b.reports.toList = reports₁ ++ report :: reports₂ ∧
    b'.reports.toList = reports₁ ++ reports₂) ∧ b'.session.Twin b.session

theorem completes_of_took {inputs : Inputs} {s s' : Session} {sources : List Source}
    {reports : List Report} (h : Took inputs s sources reports s') :
    ∃ ok, Completes inputs s sources ⟨s', reports.toArray, ok⟩ := by
  refine ⟨reports.isEmpty, completes_iff.mpr ⟨?_, h⟩⟩
  simp

/-- The verdict on a batch is that nothing was reported. The reports come in the order of the
sources: one on each that is rejected, and on any other one for each statement that fails. A source
that is rejected leaves everything as it was but the journal, wherever in its text the error is; and
unless it is the standard input, it can be left out or put in with no other effect than on its own
report. -/
theorem failing_sources_isolated (inputs : Inputs) (s : Session) :
    (∀ sources b, Completes inputs s sources b ↔
      (b.ok = true ↔ b.reports = #[]) ∧ Took inputs s sources b.reports.toList b.session) ∧
    (∀ source report, Rejected inputs source report → ∀ fuel b,
      ∃ b', Batch.runSource fuel b source (inputs.load source).1 = some b' ∧
        b'.session.Twin b.session ∧ b'.reports = b.reports.push report) ∧
    ∀ before bad later report, bad ≠ .standardInput → Rejected inputs bad report →
      (∀ b, Completes inputs s (before ++ bad :: later) b →
        ∃ b', Completes inputs s (before ++ later) b' ∧ b.Without report b') ∧
      ∀ b', Completes inputs s (before ++ later) b' →
        ∃ b, Completes inputs s (before ++ bad :: later) b ∧ b.Without report b' := by
  refine ⟨fun sources b => completes_iff, ?_, ?_⟩
  · intro source report hrejected fuel b
    refine ⟨_, Batch.runSource_of_rejected hrejected fuel b, announced_twin _ _, ?_⟩
    simp [Batch.after]
  · intro before bad later report hbad hrejected
    refine ⟨?_, ?_⟩
    · intro b hb
      obtain ⟨reports₁, reports₂, t', hreports, htook, htwin⟩ :=
        (completes_iff.mp hb).2.remove hbad hrejected
      obtain ⟨ok, hcompletes⟩ := completes_of_took htook
      exact ⟨_, hcompletes, ⟨reports₁, reports₂, hreports, rfl⟩, htwin⟩
    · intro b' hb'
      obtain ⟨reports₁, reports₂, t', hreports, htook, htwin⟩ :=
        (completes_iff.mp hb').2.insert hbad hrejected
      obtain ⟨ok, hcompletes⟩ := completes_of_took htook
      exact ⟨_, hcompletes, ⟨reports₁, reports₂, rfl, hreports⟩, htwin.symm⟩

/-- No files, and nothing to read. -/
def noInputs : Inputs :=
  ⟨fun _ => .error .notFound, Inputs.holding .empty⟩

/-- No names at all. -/
def nameless : Session :=
  ⟨{}, ⟨.empty, .empty, {}, {}⟩⟩

/-- A bracket too many, behind a statement that would print. -/
def overclosed : Source :=
  .expression "(PRINT 1))"

/-- Reports on a source with a failing statement, one that does not read, and a missing one. -/
def threeFailures : Batch :=
  ⟨nameless, #[⟨.expression "b 1", (Fault.unknownSymbol "b").message⟩,
    reportRead overclosed .unexpectedClose, reportLoad (.file "missing") .notFound], false⟩

/-- Of three sources that fail in three ways, the second can be left out. -/
theorem failing_sources_isolated_overclosed :
    Rejected noInputs overclosed (reportRead overclosed .unexpectedClose) ∧
    Completes noInputs nameless [.expression "b 1", overclosed, .file "missing"] threeFailures ∧
    ∃ b', Completes noInputs nameless [.expression "b 1", .file "missing"] b' ∧
      threeFailures.Without (reportRead overclosed .unexpectedClose) b' := by
  have hrejected : Rejected noInputs overclosed (reportRead overclosed .unexpectedClose) :=
    .unread rfl rfl
  have hcompletes : Completes noInputs nameless [.expression "b 1", overclosed, .file "missing"]
      threeFailures := ⟨2, rfl⟩
  have hleave := ((failing_sources_isolated noInputs nameless).2.2 [.expression "b 1"] overclosed
    [.file "missing"] _ nofun hrejected).1
  exact ⟨hrejected, hcompletes, hleave _ hcompletes⟩

/-- A standard input that fails is read again for the next source, and is reported again. -/
example :
    (runSources 0 ⟨noInputs.files, fun _ => .error .isDirectory⟩ nameless
        [.standardInput, .standardInput]).map (fun b => (b.reports.toList, b.ok)) =
      some ([reportLoad .standardInput .isDirectory, reportLoad .standardInput .isDirectory],
        false) := rfl

end PocketLisp.CommandLine
