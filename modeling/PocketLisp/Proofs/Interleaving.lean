import PocketLisp.CommandLine.Arguments
import PocketLisp.Proofs.Numerals
import PocketLisp.Proofs.OptionRules

/-!
# Arguments in any order

Files, expressions, bounds and the policy may be mixed on the command line: what is asked for
depends on the order of the files and on the order of the expressions, not on how these stand to
each other and to the rest. This follows from the rules of the option parser alone. Options are
considered that have their value attached; what an option does with the argument after it is left
out. A value starts after all equals signs, so that an expression cannot start with one.
-/

namespace PocketLisp.CommandLine

/-- What is asked for. Files and expressions are in order, and anything may be left out. -/
structure Wishes where
  files : List SystemText := []
  expressions : List String := []
  maxIterations : Option Nat := none
  maxDepth : Option Nat := none
  noRedefine : Bool := false

/-- The arguments say what is asked for, one thing each, and no more than that. Read from the first
argument on, they take the files and the expressions in order, in any mixture. -/
inductive Wishes.Worded : Wishes → List SystemText → Prop
  | nil : Worded {} []
  | file {w : Wishes} {arguments : List SystemText} (path : SystemText) (h : Worded w arguments) :
      Worded { w with files := path :: w.files } (path :: arguments)
  | expression {w : Wishes} {arguments : List SystemText} (text : String) (h : Worded w arguments) :
      Worded { w with expressions := text :: w.expressions }
        (Setting.expression.argument text :: arguments)
  | maxIterations {w : Wishes} {arguments : List SystemText} (n : Nat)
      (hfirst : w.maxIterations = none) (h : Worded w arguments) :
      Worded { w with maxIterations := some n }
        (Setting.maxIterations.argument (toString n) :: arguments)
  | maxDepth {w : Wishes} {arguments : List SystemText} (n : Nat) (hfirst : w.maxDepth = none)
      (h : Worded w arguments) :
      Worded { w with maxDepth := some n } (Setting.maxDepth.argument (toString n) :: arguments)
  | noRedefine {w : Wishes} {arguments : List SystemText} (hfirst : w.noRedefine = false)
      (h : Worded w arguments) :
      Worded { w with noRedefine := true } ("--no-redefine" :: arguments)

/-- No file can be taken for an option. -/
def Wishes.FilesPlain (w : Wishes) : Prop :=
  ∀ path ∈ w.files, path.IsPlain

theorem Word.attachedValue_of_head {cs : List Char} (h : cs.head? ≠ some '=') :
    attachedValue cs = String.ofList cs := by
  cases cs with
  | nil => rfl
  | cons c cs =>
      have hc : (c == '=') = false := by simpa using h
      rw [attachedValue, List.dropWhile_cons_of_neg (by simp [hc])]

theorem toList_toString (n : Nat) : (toString n).toList = Nat.toDigits 10 n :=
  Nat.toList_repr

theorem Word.attachedValue_toString (n : Nat) : attachedValue (toString n).toList = toString n := by
  have hhead : (toString n).toList.head? ≠ some '=' := by
    intro h
    rw [toList_toString] at h
    cases Decimal.allDigits_toDigits n '=' (List.mem_of_mem_head? h)
  rw [attachedValue_of_head hhead, String.ofList_toList]

/-- The decimal text of a number is read as that number, if it has 64 bits. -/
theorem numberOfText?_toString {n : Nat} (h : n < UInt64.size) :
    numberOfText? (toString n) = some n := by
  have hdigits := Decimal.allDigits_toDigits n
  have hrun : Decimal.isDigits (Nat.toDigits 10 n) = true := hdigits.isDigits_eq Nat.toDigits_ne_nil
  have hvalue := Decimal.natOfDigits_toDigits n
  unfold numberOfText?
  rw [toList_toString]
  generalize Nat.toDigits 10 n = run at hdigits hrun hvalue
  split
  · cases hdigits '+' List.mem_cons_self
  · simp only [hrun, hvalue, h, decide_true, Bool.and_self, if_true]

namespace Collected

/-- What is known of an option after it was given one number more, or none. -/
def withNumber (o : Occurrences) : Option Nat → Occurrences
  | none => o
  | some n => ⟨o.count + 1, o.values ++ [toString n]⟩

/-- What has been collected after all that is asked for. -/
def taking (c : Collected) (w : Wishes) : Collected where
  files := c.files ++ w.files
  expression := ⟨c.expression.count + w.expressions.length,
    c.expression.values ++ w.expressions.map fun text => Word.attachedValue text.toList⟩
  maxIterations := withNumber c.maxIterations w.maxIterations
  maxDepth := withNumber c.maxDepth w.maxDepth
  redefineFlags := c.redefineFlags + w.noRedefine.toNat
  pending := none

/-- By the rules no argument waits for the next one, so that each adds what it says. -/
theorem parse_worded {parse : Collected → List SystemText → Except UsageFault Collected}
    (hrules : OptionRules parse) {w : Wishes} {arguments : List SystemText}
    (h : w.Worded arguments) (hfiles : w.FilesPlain) {c : Collected} (hc : c.pending = none) :
    parse c arguments = parse (c.taking w) [] := by
  induction h generalizing c with
  | nil =>
      have htaking : c.taking {} = c := by simp [taking, withNumber, ← hc]
      rw [htaking]
  | file path h ih =>
      rw [Wishes.FilesPlain, List.forall_mem_cons] at hfiles
      rw [hrules.file c path _ hfiles.1 hc,
        ih hfiles.2 (show (c.addFiles [path]).pending = none from hc)]
      simp [taking, addFiles]
  | expression text h ih =>
      rw [hrules.attached, ih hfiles rfl]
      congr 1
      simp [taking, addOccurrence, addValue, update]
      omega
  | maxIterations n hfirst h ih =>
      rw [hrules.attached, Word.attachedValue_toString, ih hfiles rfl]
      simp [taking, addOccurrence, addValue, update, hfirst, withNumber]
  | maxDepth n hfirst h ih =>
      rw [hrules.attached, Word.attachedValue_toString, ih hfiles rfl]
      simp [taking, addOccurrence, addValue, update, hfirst, withNumber]
  | noRedefine hfirst h ih =>
      rw [hrules.flag, ih hfiles rfl]
      simp [taking, addNoRedefine, hfirst]

/-- What the arguments amount to when nothing has been collected before. -/
def ofWishes (w : Wishes) : Collected :=
  taking {} w

theorem lacksValue_withNumber (n : Option Nat) : (withNumber {} n).lacksValue = false := by
  cases n <;> rfl

theorem lacksValue_ofWishes (w : Wishes) : (ofWishes w).lacksValue = false := by
  have hexpression : (ofWishes w).expression.lacksValue = false := by
    cases hes : w.expressions <;> simp [ofWishes, taking, Occurrences.lacksValue, hes]
  simp only [lacksValue, hexpression, Bool.false_or]
  simp only [ofWishes, taking, lacksValue_withNumber, Bool.or_self]

theorem count_withNumber (n : Option Nat) : (withNumber {} n).count ≤ 1 := by
  cases n with
  | none => decide
  | some n => exact Nat.le_refl 1

theorem hasRepetition_ofWishes (w : Wishes) : (ofWishes w).hasRepetition = false := by
  have hiterations := count_withNumber w.maxIterations
  have hdepth := count_withNumber w.maxDepth
  have hflags := w.noRedefine.toNat_le
  simp only [hasRepetition, Bool.or_eq_false_iff]
  refine ⟨⟨decide_eq_false ?_, decide_eq_false ?_⟩, decide_eq_false ?_⟩
  · show ¬ 1 < (withNumber {} w.maxIterations).count
    omega
  · show ¬ 1 < (withNumber {} w.maxDepth).count
    omega
  · show ¬ 1 < 0 + w.noRedefine.toNat
    omega

theorem number?_of_withNumber {c : Collected} {s : Setting} {n : Option Nat}
    (hc : c.occurrences s = withNumber {} n) (hn : ∀ k ∈ n, k < UInt64.size) :
    c.number? s = .ok n := by
  unfold number?
  rw [hc]
  cases n with
  | none => rfl
  | some k => simp only [withNumber, List.nil_append, List.head?_cons,
      numberOfText?_toString (hn k rfl)]

end Collected

/-- The files in order, then the expressions in order; without either, the standard input. -/
def Wishes.sources (w : Wishes) : List Source :=
  if w.files = [] ∧ w.expressions = [] then [.standardInput]
  else w.files.map (fun path : SystemText => if path = "-" then .standardInput else .file path) ++
    w.expressions.map fun text => .expression (Word.attachedValue text.toList)

theorem Collected.sources_ofWishes (w : Wishes) : (Collected.ofWishes w).sources = w.sources := by
  unfold Collected.sources Wishes.sources
  simp only [ofWishes, taking, List.nil_append, List.map_map]
  split
  · rename_i hnone
    rw [List.append_eq_nil_iff, List.map_eq_nil_iff, List.map_eq_nil_iff] at hnone
    rw [if_pos hnone]
  · rename_i hsome
    have hgiven : ¬ (w.files = [] ∧ w.expressions = []) := by
      intro hnone
      simp [hnone.1, hnone.2] at hsome
    rw [if_neg hgiven]
    rfl

/-- However files, expressions and options are mixed, they are decoded to what they say: the files
in order, the expressions in order behind them, the bounds and the policy. An expression is what is
attached without the equals signs at its start, which is all of it if it does not start with one. -/
theorem arguments_decoded {w : Wishes} {arguments : List SystemText} (h : w.Worded arguments)
    (hfiles : w.FilesPlain) (hiterations : ∀ n ∈ w.maxIterations, n < 2 ^ 64)
    (hdepth : ∀ n ∈ w.maxDepth, n < 2 ^ 64) :
    Options.ofArguments arguments = .ok {
      sources := w.sources
      limits := {
        maxIterations := w.maxIterations
        maxDepth := w.maxDepth.or (some 256)
        allowRedefinition := !w.noRedefine } } ∧
    ∀ text : String, text.toList.head? ≠ some '=' → Word.attachedValue text.toList = text := by
  refine ⟨?_, ?_⟩
  · have hparsed : Collected.parse {} arguments = .ok (Collected.ofWishes w) := by
      rw [Collected.parse_worded Collected.optionRules h hfiles rfl]
      exact Collected.optionRules.accepted _ (Collected.lacksValue_ofWishes w)
        (Collected.hasRepetition_ofWishes w)
    have hmaxIterations := Collected.number?_of_withNumber (c := Collected.ofWishes w)
      (s := .maxIterations) rfl hiterations
    have hmaxDepth := Collected.number?_of_withNumber (c := Collected.ofWishes w)
      (s := .maxDepth) rfl hdepth
    have hpolicy : ((Collected.ofWishes w).redefineFlags == 0) = !w.noRedefine := by
      cases hflag : w.noRedefine <;> simp [Collected.ofWishes, Collected.taking, hflag]
    unfold Options.ofArguments
    rw [hparsed]
    simp only [Except.mapError, bind, Except.bind, hmaxIterations, hmaxDepth,
      Collected.sources_ofWishes, hpolicy]
    rfl
  · intro text htext
    rw [Word.attachedValue_of_head htext, String.ofList_toList]

/-- A mixture of everything, with an expression that looks like an option and a file whose name is
not text. -/
theorem arguments_decoded_mixture :
    Wishes.Worded
        { files := ["one", "-", .bytes [0xFF]], expressions := ["--x=1", ""],
          maxIterations := some 0, maxDepth := some 18446744073709551615, noRedefine := true }
        ["--eval=--x=1", "one", "--max-depth=18446744073709551615", "--no-redefine", "-",
          "--eval=", .bytes [0xFF], "--max-iterations=0"] ∧
      Options.ofArguments
          ["--eval=--x=1", "one", "--max-depth=18446744073709551615", "--no-redefine", "-",
            "--eval=", .bytes [0xFF], "--max-iterations=0"] =
        .ok { sources := [.file "one", .standardInput, .file (.bytes [0xFF]),
                .expression "--x=1", .expression ""]
              limits := { maxIterations := some 0, maxDepth := some 18446744073709551615,
                          allowRedefinition := false } } := by
  have hworded := Wishes.Worded.expression "--x=1" <| .file "one" <|
    .maxDepth 18446744073709551615 rfl <| .noRedefine rfl <| .file "-" <| .expression "" <|
    .file (.bytes [0xFF]) <| .maxIterations 0 rfl .nil
  refine ⟨hworded, (arguments_decoded hworded ?_ (by simp) (by simp)).1⟩
  intro path hpath
  simp only [List.mem_cons, List.not_mem_nil, or_false] at hpath
  rcases hpath with rfl | rfl | rfl
  · exact Or.inr (by decide)
  · exact Or.inl rfl
  · exact Or.inr (by decide)

/-- Of an expression that starts with an equals sign, the sign is lost. -/
theorem leading_equals_lost :
    Wishes.Worded { expressions := ["=x"] } ["--eval==x"] ∧
      Options.ofArguments ["--eval==x"] = .ok { sources := [.expression "x"], limits := {} } ∧
      Options.ofArguments ["--eval==x"] ≠ .ok { sources := [.expression "=x"], limits := {} } := by
  refine ⟨.expression "=x" .nil, ?_, ?_⟩
  · decide
  · decide

end PocketLisp.CommandLine
