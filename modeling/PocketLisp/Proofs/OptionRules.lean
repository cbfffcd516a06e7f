import Mathlib.Data.List.TakeWhile
import PocketLisp.CommandLine.OptionParser

/-!
# The rules of the option parser

What the rest of the program takes for granted of the option parser, rule by rule: what the next
argument adds to what has been collected, whatever arguments follow it, and what is checked when
there are no more. Main statement: the parser follows these rules. Arguments that are not text are
spoken of only where they name a file.
-/

namespace PocketLisp.CommandLine

/-- The argument cannot be taken for an option. -/
def SystemText.IsPlain (argument : SystemText) : Prop :=
  argument = "-" ∨ argument.startsWithDash = false

/-- An option with its value. -/
def Setting.argument (s : Setting) (value : String) : String :=
  "--" ++ s.name ++ "=" ++ value

/-- The long names that mean something. -/
def longNames : List String :=
  ["eval", "max-iterations", "max-depth", "no-redefine", "help", "version"]

/-- What a parser makes of arguments, after those that have been collected. -/
structure OptionRules (parse : Collected → List SystemText → Except UsageFault Collected) :
    Prop where
  /-- A plain argument is a file if no option waits for a value, text or not. -/
  file : ∀ c path rest, SystemText.IsPlain path → c.pending = none →
    parse c (path :: rest) = parse (c.addFiles [path]) rest
  /-- Else it is that value. -/
  value : ∀ c s text rest, SystemText.IsPlain (.text text) → c.pending = some s →
    parse c (.text text :: rest) = parse (c.addValue s text) rest
  /-- A value is attached behind any number of equals signs. -/
  attached : ∀ c s text rest, parse c (.text (Setting.argument s text) :: rest) =
    parse ((c.addOccurrence s).addValue s (Word.attachedValue text.toList)) rest
  /-- An option without a value waits for one. -/
  detached : ∀ c s rest, parse c (.text ("--" ++ Setting.name s) :: rest) =
    parse { c.addOccurrence s with pending := some s } rest
  /-- An expression can be attached to a short option as well, with or without equals signs. -/
  shortAttached : ∀ c text rest, text ≠ "" → parse c (.text ("-e" ++ text) :: rest) =
    parse ((c.addOccurrence .expression).addValue .expression (Word.attachedValue text.toList)) rest
  shortDetached : ∀ c rest, parse c (.text "-e" :: rest) =
    parse { c.addOccurrence .expression with pending := some .expression } rest
  flag : ∀ c rest, parse c (.text "--no-redefine" :: rest) = parse c.addNoRedefine rest
  /-- A flag passes over what is attached. -/
  flagAttached : ∀ c text rest, parse c (.text ("--no-redefine=" ++ text) :: rest) =
    parse c.addNoRedefine rest
  /-- After the separator everything is a file. -/
  separator : ∀ c rest, parse c (.text "--" :: rest) = parse (c.addFiles rest) []
  help : ∀ c rest, ∀ name ∈ ["--help", "-h"],
    parse c (.text name :: rest) = .error .helpRequested
  version : ∀ c rest, ∀ name ∈ ["--version", "-V"],
    parse c (.text name :: rest) = .error .versionRequested
  unknown : ∀ c name rest, name ∉ longNames → name ≠ "" → name.toList.head? ≠ some '-' →
    '=' ∉ name.toList → parse c (.text ("--" ++ name) :: rest) = .error .unknownArgument
  /-- Every option that takes a value has one, from one of its occurrences. -/
  missing : ∀ c, c.lacksValue = true → parse c [] = .error .missingValue
  /-- Only expressions are given more than once. -/
  repeated : ∀ c, c.lacksValue = false → c.hasRepetition = true → parse c [] = .error .repeated
  accepted : ∀ c, c.lacksValue = false → c.hasRepetition = false → parse c [] = .ok c

namespace Word

theorem ofArgument_plain {argument : SystemText} (h : argument.IsPlain) :
    ofArgument argument = .plain argument := by
  rcases h with rfl | h
  · rfl
  · cases argument with
    | bytes bs =>
        rw [ofArgument, h]
        rfl
    | text s =>
        have hhead : s.toList.head? ≠ some '-' := by simpa [SystemText.startsWithDash] using h
        rw [ofArgument]
        unfold ofChars
        split
        · rename_i heq
          simp [heq] at hhead
        · rename_i heq
          simp [heq] at hhead
        · rename_i heq
          simp [heq] at hhead
        · rw [String.ofList_toList]

theorem ofLongName_name (s : Setting) : ofLongName s.name = .setting s := by
  funext attached
  cases s <;> rfl

theorem name_ne_equals (s : Setting) : ∀ c ∈ s.name.toList, (c != '=') = true := by
  rw [← List.all_eq_true]
  cases s <;> decide

theorem ofLong_of_ne_equals {name : List Char} (h : ∀ c ∈ name, (c != '=') = true) :
    ofLong name = ofLongName (String.ofList name) none := by
  rw [ofLong, List.dropWhile_eq_nil_iff.mpr h, List.takeWhile_eq_self_iff.mpr h]

theorem ofLong_attached {name : List Char} (h : ∀ c ∈ name, (c != '=') = true)
    (value : List Char) :
    ofLong (name ++ '=' :: value) =
      ofLongName (String.ofList name) (some (attachedValue value)) := by
  rw [ofLong, List.dropWhile_append_of_pos h, List.takeWhile_append_of_pos h]
  simp only [bne_self_eq_false, Bool.false_eq_true, not_false_eq_true,
    List.dropWhile_cons_of_neg, List.takeWhile_cons_of_neg, List.append_nil]
  rfl

/-- A long option has all dashes before its name. -/
theorem ofArgument_long {name : String} (hne : name ≠ "") (hhead : name.toList.head? ≠ some '-') :
    ofArgument (.text ("--" ++ name)) = ofLong name.toList := by
  have hchars : ("--" ++ name).toList = '-' :: '-' :: name.toList := by simp
  rw [ofArgument, hchars]
  cases hname : name.toList with
  | nil => exact absurd (String.toList_eq_nil_iff.mp hname) hne
  | cons c cs =>
      have hc : (c == '-') = false := by simpa [hname] using hhead
      rw [ofChars]
      · rw [List.dropWhile_cons_of_neg (by simp [hc])]
      · simp

theorem ofArgument_attached (s : Setting) (value : String) :
    ofArgument (.text (s.argument value)) = .setting s (some (attachedValue value.toList)) := by
  have hlong : ofArgument (.text (s.argument value)) =
      ofLong (s.name.toList ++ '=' :: value.toList) := by
    unfold ofArgument Setting.argument
    cases s <;> simp [Setting.name, ofChars]
  rw [hlong, ofLong_attached (name_ne_equals s), String.ofList_toList, ofLongName_name]

theorem ofArgument_detached (s : Setting) :
    ofArgument (.text ("--" ++ s.name)) = .setting s none := by
  cases s <;> rfl

theorem ofArgument_shortAttached {text : String} (h : text ≠ "") :
    ofArgument (.text ("-e" ++ text)) =
      .setting .expression (some (attachedValue text.toList)) := by
  have hchars : ("-e" ++ text).toList = '-' :: 'e' :: text.toList := by simp
  rw [ofArgument, hchars]
  cases htext : text.toList with
  | nil => exact absurd (String.toList_eq_nil_iff.mp htext) h
  | cons c cs => rfl

theorem ofArgument_flagAttached (text : String) :
    ofArgument (.text ("--no-redefine=" ++ text)) = .noRedefine := by
  have hchars : ("--no-redefine=" ++ text).toList =
      '-' :: '-' :: ("no-redefine".toList ++ '=' :: text.toList) := by simp
  rw [ofArgument, hchars]
  show ofLong ("no-redefine".toList ++ '=' :: text.toList) = _
  rw [ofLong_attached (List.all_eq_true.mp (by decide))]
  rfl

theorem ofLongName_unknown {name : String} (h : name ∉ longNames) (attached : Option String) :
    ofLongName name attached = .unknown := by
  simp only [longNames, List.mem_cons, List.not_mem_nil, or_false, not_or] at h
  obtain ⟨heval, hiterations, hdepth, hpolicy, hhelp, hversion⟩ := h
  simp only [ofLongName, Setting.name, if_neg heval, if_neg hiterations, if_neg hdepth,
    if_neg hpolicy, if_neg hhelp, if_neg hversion]

end Word

namespace Collected

/-- The parser follows the rules. -/
theorem optionRules : OptionRules parse where
  file c path rest hplain hc := by
    rw [parse, Word.ofArgument_plain hplain]
    simp only [addPlain, hc]
  value c s text rest hplain hc := by
    rw [parse, Word.ofArgument_plain hplain]
    simp only [addPlain, hc]
  attached c s text rest := by rw [parse, Word.ofArgument_attached]
  detached c s rest := by rw [parse, Word.ofArgument_detached]
  shortAttached c text rest h := by rw [parse, Word.ofArgument_shortAttached h]
  shortDetached c rest := rfl
  flag c rest := rfl
  flagAttached c text rest := by rw [parse, Word.ofArgument_flagAttached]
  separator c rest := rfl
  help c rest name hname := by
    simp only [List.mem_cons, List.not_mem_nil, or_false] at hname
    rcases hname with rfl | rfl <;> rfl
  version c rest name hname := by
    simp only [List.mem_cons, List.not_mem_nil, or_false] at hname
    rcases hname with rfl | rfl <;> rfl
  unknown c name rest hname hne hhead hequals := by
    have hchars : ∀ c ∈ name.toList, (c != '=') = true := by
      intro c hc
      rw [bne_iff_ne]
      intro heq
      exact hequals (heq ▸ hc)
    rw [parse, Word.ofArgument_long hne hhead, Word.ofLong_of_ne_equals hchars,
      String.ofList_toList, Word.ofLongName_unknown hname]
  missing c h := by rw [parse, checked, if_pos h]
  repeated c hvalues h := by rw [parse, checked, if_neg (by simp [hvalues]), if_pos h]
  accepted c hvalues h := by
    rw [parse, checked, if_neg (by simp [hvalues]), if_neg (by simp [h])]

end Collected

end PocketLisp.CommandLine
