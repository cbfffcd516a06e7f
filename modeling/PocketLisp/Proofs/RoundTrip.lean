import PocketLisp.Proofs.Grammar
import PocketLisp.Proofs.Numerals
import PocketLisp.Proofs.Tokens
import PocketLisp.Value.Text

/-!
# Reading undoes printing

A readable value is built from numbers, from symbols that no number is written like, and from lists
of readable values. The reader produces these and no others, and from the text of one it produces
that one again. Two floats are the same value only if all their bits agree, so the sign of a zero
survives; the one float that is no number reads as itself.
-/

namespace PocketLisp

namespace Number

theorem solid_of_isNumeral {cs : List Char} (h : ∀ c ∈ cs, Decimal.IsNumeral c) :
    Token.Solid cs := by
  intro c hc
  rcases h c hc with hdigit | hmark
  · have hrange := Decimal.toNat_of_isDigit hdigit
    refine ⟨?_, ?_, ?_⟩
    · rintro rfl
      cases hdigit
    · rintro rfl
      cases hdigit
    · simp only [Text.isWhiteSpace, Text.whiteSpaceRanges, List.any_cons, List.any_nil]
      simp
      omega
  · have hmarks : Token.Solid ['.', 'e', '+', '-', 'i', 'n', 'f', 'a'] :=
      Token.solid_of_all (by decide)
    exact hmarks c hmark

theorem text_isWord (n : Number) : Token.IsWord n.text.toList where
  nonempty := by
    intro hnil
    have hread := ofText?_text n
    rw [ofText?, hnil] at hread
    cases hread
  solid := solid_of_isNumeral fun _ hc => isNumeral_of_mem_text hc

end Number

namespace Value

/-- What can be written in a program. -/
inductive Readable : Value → Prop
  | number (n : Number) : Readable (.number n)
  | symbol {name : Symbol} (word : Token.IsWord name.toList)
      (notInteger : Number.integerOfChars? name.toList = none)
      (notFloat : Number.floatOfChars? name.toList = none) : Readable (.symbol name)
  | list {elements : List Value} (all : ∀ v ∈ elements, Readable v) : Readable (.list elements)

/-- The text reads as the value, whatever follows it at a distance. -/
def Printed (v : Value) : Prop :=
  ∀ rest, Token.Parted rest → ∃ tokens, IsForm tokens v ∧
    Token.ofChars (v.text.toList ++ rest) = tokens ++ Token.ofChars rest

theorem printed_word {word : String} {v : Value} (hword : Token.IsWord word.toList)
    (htext : v.text = word) (hv : ofAtom word = v) : v.Printed := by
  intro rest hrest
  refine ⟨[.atom word], hv ▸ .atom word, ?_⟩
  rw [htext, Token.ofChars_word hword hrest, String.ofList_toList]
  rfl

theorem exists_tokens_of_printed {vs : List Value} (h : ∀ v ∈ vs, v.Printed) {rest : List Char}
    (hrest : Token.Parted rest) :
    ∃ tokens, AreForms tokens vs ∧
      Token.ofChars ((" ".intercalate (texts vs)).toList ++ rest) =
        tokens ++ Token.ofChars rest := by
  induction vs with
  | nil => exact ⟨[], .nil, rfl⟩
  | cons v vs ih =>
      have hv := h v List.mem_cons_self
      obtain ⟨after, hafter, htokens⟩ := ih fun w hw => h w (List.mem_cons_of_mem v hw)
      cases vs with
      | nil =>
          obtain ⟨tokens, hform, heq⟩ := hv rest hrest
          refine ⟨tokens, hform.areForms, ?_⟩
          rw [texts, texts, String.toList_intercalate]
          simpa using heq
      | cons w vs =>
          obtain ⟨tokens, hform, heq⟩ :=
            hv (' ' :: ((" ".intercalate (texts (w :: vs))).toList ++ rest))
              (Token.parted_whiteSpace rfl _)
          refine ⟨tokens ++ after, .cons hform hafter, ?_⟩
          rw [Token.ofChars_whiteSpace rfl, htokens] at heq
          rw [texts, texts, String.intercalate_cons_cons, ← texts]
          simpa using heq

theorem Readable.printed {v : Value} (h : Readable v) : v.Printed := by
  induction h with
  | number n =>
      apply printed_word n.text_isWord rfl
      rw [ofAtom, n.ofText?_text]
  | symbol word notInteger notFloat =>
      apply printed_word word rfl
      rw [ofAtom, Number.ofText?, notInteger, notFloat]
      rfl
  | @list elements all ih =>
      intro rest _
      obtain ⟨tokens, hforms, heq⟩ := exists_tokens_of_printed ih (Token.parted_close rest)
      refine ⟨_, .list hforms, ?_⟩
      have htext : (text (.list elements)).toList ++ rest =
          '(' :: ((" ".intercalate (texts elements)).toList ++ ')' :: rest) := by
        simp [text]
      rw [htext, Token.ofChars_open, heq, Token.ofChars_close]
      simp

theorem Readable.read_text {v : Value} (h : Readable v) : read v.text = .ok v := by
  obtain ⟨tokens, hform, heq⟩ := h.printed [] Token.parted_nil
  have hnil : Token.ofChars [] = [] := rfl
  rw [hnil, List.append_nil, List.append_nil] at heq
  rw [read, ofTokens_eq_ok, Token.ofText, heq]
  exact hform

theorem readable_ofAtom {word : String} (hword : Token.IsWord word.toList) :
    Readable (ofAtom word) := by
  unfold ofAtom
  split
  · exact .number _
  · rename_i hnone
    obtain ⟨hinteger, hfloat⟩ := Option.or_eq_none_iff.mp hnone
    exact .symbol hword hinteger hfloat

mutual

theorem IsForm.readable {tokens : List Token} {v : Value} (h : IsForm tokens v)
    (hwords : ∀ word, .atom word ∈ tokens → Token.IsWord word.toList) : Readable v := by
  cases h with
  | atom word => exact readable_ofAtom (hwords word (List.mem_singleton_self _))
  | list hforms =>
      refine .list (hforms.readable fun word hmem => hwords word ?_)
      exact List.mem_cons_of_mem _ (List.mem_append_left _ hmem)

theorem AreForms.readable {tokens : List Token} {vs : List Value} (h : AreForms tokens vs)
    (hwords : ∀ word, .atom word ∈ tokens → Token.IsWord word.toList) : ∀ v ∈ vs, Readable v := by
  cases h with
  | nil => exact fun v hv => absurd hv List.not_mem_nil
  | cons hfirst hrest =>
      have hhead := hfirst.readable fun word hmem => hwords word (List.mem_append_left _ hmem)
      have htail := hrest.readable fun word hmem => hwords word (List.mem_append_right _ hmem)
      exact List.forall_mem_cons.mpr ⟨hhead, htail⟩

end

theorem readable_of_read {text : String} {v : Value} (h : read text = .ok v) : Readable v :=
  (ofTokens_eq_ok.mp h).readable fun _ => Token.isWord_of_mem_ofText

theorem readable_of_readAll {text : String} {vs : List Value} (h : readAll text = .ok vs) :
    ∀ v ∈ vs, Readable v :=
  (readForms_eq_ok.mp h).readable fun _ => Token.isWord_of_mem_ofText

/-- Every readable value is read back from its own text, whole and with every leaf of its kind; the
reader yields readable values only. So a text that was printed once is printed the same again. -/
theorem reading_undoes_printing :
    (∀ v, Readable v → read v.text = .ok v) ∧
      (∀ text v, read text = .ok v → Readable v) ∧
      (∀ text vs, readAll text = .ok vs → ∀ v ∈ vs, Readable v) ∧
      ∀ text printed, (read text).map Value.text = .ok printed →
        (read printed).map Value.text = .ok printed := by
  refine ⟨fun v h => h.read_text, fun text v h => readable_of_read h,
    fun text vs h => readable_of_readAll h, ?_⟩
  intro text printed h
  cases hread : read text with
  | error e =>
      rw [hread] at h
      cases h
  | ok v =>
      rw [hread] at h
      obtain rfl : v.text = printed := Except.ok.inj h
      rw [(readable_of_read hread).read_text]
      rfl

/-- A negative zero, an empty list and a symbol that only starts like a number. -/
theorem reading_undoes_printing_negativeZero :
    read (list [.number (.float (-0.0)), .list [], .symbol "-x"]).text =
      .ok (list [.number (.float (-0.0)), .list [], .symbol "-x"]) := by
  have hsymbol : Readable (.symbol "-x") := by
    exact .symbol ⟨by decide, Token.solid_of_all (by decide)⟩ rfl rfl
  have hempty : Readable (.list []) := .list fun v hv => absurd hv List.not_mem_nil
  apply reading_undoes_printing.1
  refine .list ?_
  simp only [List.forall_mem_cons, List.not_mem_nil, false_implies, implies_true, and_true]
  exact ⟨.number _, hempty, hsymbol⟩

end Value

end PocketLisp
