import PocketLisp.Proofs.Grammar
import PocketLisp.Proofs.Journals
import PocketLisp.Proofs.Tokens

/-!
# The layout of programs

A program may stand in a pair of brackets more, and may be given in parts. Neither changes what its
statements answer and leave, as long as no part by itself is a block: a block is unwrapped, and only
if it is all there is. How many statements were announced at a time shows in a journal and nowhere
else.
-/

namespace PocketLisp

namespace Value

def IsNonemptyList (v : Value) : Prop :=
  ∃ head tail, v = .list (head :: tail)

/-- A list, not empty, of lists that are not empty. -/
def IsBlock (v : Value) : Prop :=
  ∃ elements, v = .list elements ∧ elements ≠ [] ∧ ∀ x ∈ elements, x.IsNonemptyList

end Value

namespace Program

/-- The forms are a block and nothing else. -/
def IsSingleBlock (forms : List Value) : Prop :=
  ∃ block, forms = [block] ∧ block.IsBlock

theorem isNonemptyList_iff {v : Value} : isNonemptyList v = true ↔ v.IsNonemptyList := by
  unfold isNonemptyList
  split
  · rename_i head tail
    exact ⟨fun _ => ⟨head, tail, rfl⟩, fun _ => rfl⟩
  · rename_i hother
    exact ⟨nofun, fun ⟨head, tail, h⟩ => absurd h (hother head tail)⟩

/-- A call by name is no block. -/
theorem not_isSingleBlock_call (name : Symbol) (operands : List Value) :
    ¬ IsSingleBlock [.list (.symbol name :: operands)] := by
  intro h
  obtain ⟨_, heq, elements, hlist, -, hall⟩ := h
  cases heq
  cases hlist
  obtain ⟨_, _, hname⟩ := hall (.symbol name) List.mem_cons_self
  cases hname

theorem statements_block {elements : List Value} (hne : elements ≠ [])
    (hall : ∀ x ∈ elements, x.IsNonemptyList) : statements [.list elements] = elements := by
  have hblock : (!elements.isEmpty && elements.all isNonemptyList) = true := by
    simpa [hne] using fun x hx => isNonemptyList_iff.mpr (hall x hx)
  exact if_pos hblock

theorem statements_of_not_isSingleBlock {forms : List Value} (h : ¬ IsSingleBlock forms) :
    statements forms = forms := by
  unfold statements
  split
  · rename_i elements
    apply if_neg
    intro hblock
    obtain ⟨hne, hall⟩ := Bool.and_eq_true_iff.mp hblock
    apply h
    refine ⟨.list elements, rfl, elements, rfl, by simpa using hne, ?_⟩
    intro x hx
    exact isNonemptyList_iff.mp (List.all_eq_true.mp hall x hx)
  · rfl

theorem not_isSingleBlock_append {forms₁ forms₂ : List Value} (h₁ : ¬ IsSingleBlock forms₁)
    (h₂ : ¬ IsSingleBlock forms₂) : ¬ IsSingleBlock (forms₁ ++ forms₂) := by
  rintro ⟨block, heq, hblock⟩
  rcases List.append_eq_singleton_iff.mp heq with ⟨_, rfl⟩ | ⟨rfl, _⟩
  · exact h₂ ⟨block, rfl, hblock⟩
  · exact h₁ ⟨block, rfl, hblock⟩

end Program

namespace Value

theorem readAll_brackets {text : String} {forms : List Value} (h : readAll text = .ok forms) :
    readAll ("(" ++ text ++ ")") = .ok [.list forms] := by
  have hforms := readForms_eq_ok.mp h
  apply readForms_eq_ok.mpr
  rw [Token.ofText_brackets]
  exact (IsForm.list hforms).areForms

theorem readAll_append {text₁ text₂ : String} {forms₁ forms₂ : List Value}
    (h₁ : readAll text₁ = .ok forms₁) (h₂ : readAll text₂ = .ok forms₂) {w : Char}
    (hw : Text.isWhiteSpace w = true) :
    readAll (text₁ ++ w.toString ++ text₂) = .ok (forms₁ ++ forms₂) := by
  apply readForms_eq_ok.mpr
  rw [Token.ofText_whiteSpace hw]
  exact (readForms_eq_ok.mp h₁).append (readForms_eq_ok.mp h₂)

end Value

namespace Session

theorem evaluateEach_append {fuel : Nat} {s s'' : Session} {es₁ es₂ : List Value}
    {results : List (Except Fault Value)} :
    s.evaluateEach fuel (es₁ ++ es₂) = some (results, s'') ↔
      ∃ results₁ s' results₂, s.evaluateEach fuel es₁ = some (results₁, s') ∧
        s'.evaluateEach fuel es₂ = some (results₂, s'') ∧ results = results₁ ++ results₂ := by
  induction es₁ generalizing s results with
  | nil =>
      constructor
      · intro h
        exact ⟨[], s, results, rfl, h, rfl⟩
      · rintro ⟨results₁, s', results₂, h₁, h₂, rfl⟩
        cases h₁
        exact h₂
  | cons e es₁ ih =>
      rw [List.cons_append]
      constructor
      · intro h
        obtain ⟨result, t, rest, hfirst, hrest, rfl⟩ := evaluateEach_cons.mp h
        obtain ⟨results₁, s', results₂, h₁, h₂, rfl⟩ := ih.mp hrest
        exact ⟨result :: results₁, s', results₂,
          evaluateEach_cons.mpr ⟨result, t, results₁, hfirst, h₁, rfl⟩, h₂, rfl⟩
      · rintro ⟨results₁, s', results₂, h₁, h₂, rfl⟩
        obtain ⟨result, t, rest, hfirst, hrest, rfl⟩ := evaluateEach_cons.mp h₁
        exact evaluateEach_cons.mpr ⟨result, t, rest ++ results₂, hfirst,
          ih.mpr ⟨rest, s', results₂, hrest, h₂, rfl⟩, rfl⟩

/-- A program that is no block runs the forms it reads as. -/
theorem runProgram_of_not_isSingleBlock {text : String} {forms : List Value}
    (hread : Value.readAll text = .ok forms) (hblock : ¬ Program.IsSingleBlock forms) {fuel : Nat}
    {s s' : Session} {result : Except ReadError (List (Except Fault Value))} :
    s.runProgram fuel text = some (result, s') ↔
      ∃ results, (s.record (.runningStatements forms.length)).evaluateEach fuel forms =
        some (results, s') ∧ result = .ok results := by
  rw [runProgram_eq_some hread, Program.statements_of_not_isSingleBlock hblock]

theorem runProgram_brackets {text : String} {forms : List Value}
    (hread : Value.readAll text = .ok forms) (hne : forms ≠ [])
    (hall : ∀ v ∈ forms, v.IsNonemptyList) (hblock : ¬ Program.IsSingleBlock forms) (fuel : Nat)
    (s : Session) : s.runProgram fuel ("(" ++ text ++ ")") = s.runProgram fuel text := by
  simp only [runProgram, hread, Value.readAll_brackets hread, Program.statements_block hne hall,
    Program.statements_of_not_isSingleBlock hblock]

section Parts

variable {text₁ text₂ : String} {forms₁ forms₂ : List Value} {w : Char}
  (hread₁ : Value.readAll text₁ = .ok forms₁) (hread₂ : Value.readAll text₂ = .ok forms₂)
  (hblock₁ : ¬ Program.IsSingleBlock forms₁) (hblock₂ : ¬ Program.IsSingleBlock forms₂)
  (hw : Text.isWhiteSpace w = true)

include hread₁ hread₂ hblock₁ hblock₂ hw

/-- The statements of both texts are announced at once, so that the journals are not the same. -/
theorem runs_append {s s₁ s₂ : Session} {results₁ results₂ : List (Except Fault Value)}
    (h₁ : s.Runs text₁ (.ok results₁) s₁) (h₂ : s₁.Runs text₂ (.ok results₂) s₂) :
    ∃ s', s.Runs (text₁ ++ w.toString ++ text₂) (.ok (results₁ ++ results₂)) s' ∧ s'.Twin s₂ := by
  obtain ⟨fuel₁, hrun₁⟩ := h₁
  obtain ⟨fuel₂, hrun₂⟩ := h₂
  let fuel := max fuel₁ fuel₂
  have hrun₁ := runProgram_mono (Nat.le_max_left fuel₁ fuel₂) hrun₁
  have hrun₂ := runProgram_mono (Nat.le_max_right fuel₁ fuel₂) hrun₂
  obtain ⟨_, heach₁, ⟨⟩⟩ := (runProgram_of_not_isSingleBlock hread₁ hblock₁).mp hrun₁
  obtain ⟨_, heach₂, ⟨⟩⟩ := (runProgram_of_not_isSingleBlock hread₂ hblock₂).mp hrun₂
  have hannounced : (s.record (.runningStatements forms₁.length)).Twin
      (s.record (.runningStatements (forms₁ ++ forms₂).length)) :=
    (s.twin_record _).trans (s.twin_record _).symm
  obtain ⟨t₁, heach₁', htwin₁⟩ := hannounced.evaluateEach heach₁
  obtain ⟨t₂, heach₂', htwin₂⟩ := ((s₁.twin_record _).trans htwin₁).evaluateEach heach₂
  refine ⟨t₂, ⟨fuel, ?_⟩, htwin₂.symm⟩
  exact (runProgram_of_not_isSingleBlock (Value.readAll_append hread₁ hread₂ hw)
    (Program.not_isSingleBlock_append hblock₁ hblock₂)).mpr
      ⟨_, evaluateEach_append.mpr ⟨_, t₁, _, heach₁', heach₂', rfl⟩, rfl⟩

theorem runs_of_append {s s' : Session} {result : Except ReadError (List (Except Fault Value))}
    (h : s.Runs (text₁ ++ w.toString ++ text₂) result s') :
    ∃ results₁ s₁ results₂ s₂, s.Runs text₁ (.ok results₁) s₁ ∧
      s₁.Runs text₂ (.ok results₂) s₂ ∧ result = .ok (results₁ ++ results₂) ∧ s'.Twin s₂ := by
  obtain ⟨fuel, hrun⟩ := h
  obtain ⟨_, heach, rfl⟩ :=
    (runProgram_of_not_isSingleBlock (Value.readAll_append hread₁ hread₂ hw)
      (Program.not_isSingleBlock_append hblock₁ hblock₂)).mp hrun
  obtain ⟨results₁, t₁, results₂, heach₁, heach₂, rfl⟩ := evaluateEach_append.mp heach
  have hannounced : (s.record (.runningStatements (forms₁ ++ forms₂).length)).Twin
      (s.record (.runningStatements forms₁.length)) :=
    (s.twin_record _).trans (s.twin_record _).symm
  obtain ⟨s₁, heach₁', htwin₁⟩ := hannounced.evaluateEach heach₁
  obtain ⟨s₂, heach₂', htwin₂⟩ := (htwin₁.trans (s₁.twin_record _).symm).evaluateEach heach₂
  exact ⟨results₁, s₁, results₂, s₂,
    ⟨fuel, (runProgram_of_not_isSingleBlock hread₁ hblock₁).mpr ⟨_, heach₁', rfl⟩⟩,
    ⟨fuel, (runProgram_of_not_isSingleBlock hread₂ hblock₂).mpr ⟨_, heach₂', rfl⟩⟩, rfl, htwin₂⟩

end Parts

end Session

/-- A pair of brackets around a program of statements makes no difference, whatever the fuel. Two
programs with white space between them answer what they answer one after the other, and leave the
same but for the journal. -/
theorem layout_unobservable (s : Session) :
    (∀ text forms, Value.readAll text = .ok forms → forms ≠ [] →
      (∀ v ∈ forms, v.IsNonemptyList) → ¬ Program.IsSingleBlock forms →
      ∀ fuel, s.runProgram fuel ("(" ++ text ++ ")") = s.runProgram fuel text) ∧
    ∀ text₁ text₂ forms₁ forms₂ w, Value.readAll text₁ = .ok forms₁ →
      Value.readAll text₂ = .ok forms₂ → ¬ Program.IsSingleBlock forms₁ →
      ¬ Program.IsSingleBlock forms₂ → Text.isWhiteSpace w = true →
      (∀ results₁ s₁ results₂ s₂, s.Runs text₁ (.ok results₁) s₁ →
        s₁.Runs text₂ (.ok results₂) s₂ →
        ∃ s', s.Runs (text₁ ++ w.toString ++ text₂) (.ok (results₁ ++ results₂)) s' ∧
          s'.Twin s₂) ∧
      ∀ result s', s.Runs (text₁ ++ w.toString ++ text₂) result s' →
        ∃ results₁ s₁ results₂ s₂, s.Runs text₁ (.ok results₁) s₁ ∧
          s₁.Runs text₂ (.ok results₂) s₂ ∧ result = .ok (results₁ ++ results₂) ∧
          s'.Twin s₂ := by
  refine ⟨?_, ?_⟩
  · intro text forms hread hne hall hblock fuel
    exact s.runProgram_brackets hread hne hall hblock fuel
  · intro text₁ text₂ forms₁ forms₂ w hread₁ hread₂ hblock₁ hblock₂ hw
    refine ⟨?_, ?_⟩
    · intro results₁ s₁ results₂ s₂ h₁ h₂
      exact Session.runs_append hread₁ hread₂ hblock₁ hblock₂ hw h₁ h₂
    · intro result s' h
      exact Session.runs_of_append hread₁ hread₂ hblock₁ hblock₂ hw h

/-- Truth has a name, and nothing else has. -/
def truthOnly : Session :=
  ⟨{}, ⟨⟨⟨[("t", .truth)]⟩, []⟩, .empty, {}, {}⟩⟩

/-- Refuses the first flush after something has been written, and none later. -/
def busyOnce : Device where
  flush state written :=
    if state = 0 ∧ written.size ≠ 0 then (.error (.other "busy"), 1) else (.ok (), state)

/-- Truth has a name. The device has been given `written`, and is in a state. -/
def truthBefore (written : ByteArray) (state : Nat) : Session :=
  ⟨{}, truthOnly.machine.withSink ⟨written, busyOnce, state⟩⟩

/-- The second form is a block, and stays one when the text is put in brackets. Behind a line break
a statement fails as it fails alone. Where the flush after the first text is refused, it is refused
after the first statement of the whole. -/
theorem layout_unobservable_innerBlock :
    Value.readAll "(a) ((b))" = .ok [.list [.symbol "a"], .list [.list [.symbol "b"]]] ∧
    (∀ fuel, truthOnly.runProgram fuel "((a) ((b)))" = truthOnly.runProgram fuel "(a) ((b))") ∧
    truthOnly.Runs "t" (.ok [.ok .truth]) truthOnly ∧
    truthOnly.Runs "(b)" (.ok [.error (.unknownOperator (.symbol "b"))]) truthOnly ∧
    (∃ s', truthOnly.Runs "t\n(b)"
      (.ok [.ok .truth, .error (.unknownOperator (.symbol "b"))]) s' ∧ s'.Twin truthOnly) ∧
    ∃ s', (truthBefore .empty 0).Runs "(PRINT t)\nt"
      (.ok [.error (.output (.other "busy")), .ok .truth]) s' ∧
        s'.Twin (truthBefore "t\n".toUTF8 1) := by
  obtain ⟨hbrackets, hparts⟩ := layout_unobservable truthOnly
  have hread : Value.readAll "(a) ((b))" =
      .ok [.list [.symbol "a"], .list [.list [.symbol "b"]]] := rfl
  have hlists : ∀ v ∈ [Value.list [.symbol "a"], .list [.list [.symbol "b"]]],
      v.IsNonemptyList := by
    simp only [List.forall_mem_cons, List.not_mem_nil, false_implies, implies_true, and_true]
    exact ⟨⟨_, _, rfl⟩, ⟨_, _, rfl⟩⟩
  have htwo : ¬ Program.IsSingleBlock [.list [.symbol "a"], .list [.list [.symbol "b"]]] := by
    rintro ⟨block, heq, _⟩
    cases heq
  have hsymbol : ¬ Program.IsSingleBlock [.symbol "t"] := by
    rintro ⟨_, ⟨⟩, _, heq, _⟩
    cases heq
  have hcall := Program.not_isSingleBlock_call "b" []
  have hfirst : truthOnly.Runs "t" (.ok [.ok .truth]) truthOnly := ⟨2, rfl⟩
  have hsecond : truthOnly.Runs "(b)" (.ok [.error (.unknownOperator (.symbol "b"))]) truthOnly :=
    ⟨2, rfl⟩
  have hprint := Program.not_isSingleBlock_call "PRINT" [.symbol "t"]
  have hstatement : ((truthBefore .empty 0).record (.runningStatements 1)).evaluate 3
      (.list [.symbol "PRINT", .symbol "t"]) =
        some (.error (.output (.other "busy")), truthBefore "t\n".toUTF8 1) := rfl
  have hrefused : (truthBefore .empty 0).Runs "(PRINT t)" (.ok [.error (.output (.other "busy"))])
      (truthBefore "t\n".toUTF8 1) := by
    refine ⟨3, (Session.runProgram_of_not_isSingleBlock rfl hprint).mpr ⟨_, ?_, rfl⟩⟩
    rw [Session.evaluateEach, List.length_singleton, hstatement]
    rfl
  have hlater : (truthBefore "t\n".toUTF8 1).Runs "t" (.ok [.ok .truth])
      (truthBefore "t\n".toUTF8 1) := ⟨2, rfl⟩
  obtain ⟨_, hbusy⟩ := layout_unobservable (truthBefore .empty 0)
  exact ⟨hread, hbrackets _ _ hread (List.cons_ne_nil _ _) hlists htwo, hfirst, hsecond,
    (hparts "t" "(b)" _ _ '\n' rfl rfl hsymbol hcall rfl).1 _ _ _ _ hfirst hsecond,
    (hbusy "(PRINT t)" "t" _ _ '\n' rfl rfl hprint hsymbol rfl).1 _ _ _ _ hrefused hlater⟩

end PocketLisp
