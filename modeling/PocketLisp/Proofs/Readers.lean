import PocketLisp.Proofs.Brackets
import PocketLisp.Proofs.Splitting

/-!
# One form and all forms

The reader of one form and the reader of all forms start alike, and part where the first form ends.
What the one reports as left over is a text, and the other reads that text as it reads the rest of
the text it comes from. Nothing is said here about which texts are forms.
-/

namespace PocketLisp

namespace Value

/-- Forms that were read before stand in front, and make no other difference. -/
theorem readForms_eq_map {tokens : List Token} : ∀ (forms : List Value) (lists : OpenLists),
    readForms forms lists tokens = (readForms [] lists tokens).map (forms.reverse ++ ·) := by
  induction tokens with
  | nil =>
      intro forms lists
      cases lists with
      | nil => simp [readForms, Except.map]
      | cons elements outer => rfl
  | cons token tokens ih =>
      intro forms lists
      rw [readForms, readForms]
      cases takeToken lists token with
      | error e => rfl
      | ok progress =>
          cases progress with
          | inside lists' => exact ih forms lists'
          | complete form =>
              have hone := ih [form] []
              have hmore := ih (form :: forms) []
              dsimp only
              rw [hone, hmore]
              cases readForms [] [] tokens with
              | error e => rfl
              | ok vs => simp [Except.map]

/-- What follows forms is read as if it stood alone. -/
theorem readForms_append {first : List Token} {vs : List Value} (h : AreForms first vs)
    (rest : List Token) :
    readForms [] [] (first ++ rest) = (readForms [] [] rest).map (vs ++ ·) := by
  induction vs generalizing first with
  | nil =>
      cases h
      change readForms [] [] rest = _
      cases readForms [] [] rest <;> rfl
  | cons v vs ih =>
      cases h with
      | @cons form others _ _ hform hothers =>
          have hne : form ++ others ++ rest ≠ [] := by simp [hform.ne_nil]
          have hread : readForm [] (form ++ others ++ rest) = .ok (v, others ++ rest) := by
            rw [List.append_assoc]
            exact readForm_of_isForm hform [] _
          rw [readForms_eq_bind [] (Or.inl hne), hread]
          change readForms [v] [] (others ++ rest) = _
          rw [readForms_eq_map, ih hothers]
          cases readForms [] [] rest <;> rfl

theorem areForms_nil {tokens : List Token} : AreForms tokens [] ↔ tokens = [] := by
  constructor
  · intro h
    cases h
    rfl
  · rintro rfl
    exact .nil

theorem areForms_singleton {tokens : List Token} {v : Value} :
    AreForms tokens [v] ↔ IsForm tokens v := by
  constructor
  · intro h
    cases h with
    | cons hform hrest =>
        rw [areForms_nil.mp hrest, List.append_nil]
        exact hform
  · exact IsForm.areForms

/-- The tokens start with a form, and these come after it. -/
structure Leftover (tokens rest : List Token) (v : Value) : Prop where
  split : ∃ form, tokens = form ++ rest ∧ IsForm form v
  nonempty : rest ≠ []

theorem Leftover.readForms {tokens rest : List Token} {v : Value} (h : Leftover tokens rest v) :
    readForms [] [] tokens = (readForms [] [] rest).map (v :: ·) := by
  obtain ⟨form, rfl, hform⟩ := h.split
  exact readForms_append hform.areForms rest

theorem unclosed_or_unexpected_of_readForms {tokens : List Token} {e : ReadError}
    (h : readForms [] [] tokens = .error e) : e = .unclosedList ∨ e = .unexpectedClose := by
  have hverdict := verdict_readForms tokens [] []
  rw [h] at hverdict
  cases e with
  | unclosedList => exact Or.inl rfl
  | unexpectedClose => exact Or.inr rfl
  | noMoreTokens => exact hverdict.elim
  | trailingTokens text => exact hverdict.elim

/-- All errors of the reader of one form: there is nothing to read, the reader of all forms reports
the same, or something is left over. -/
theorem ofTokens_eq_error {tokens : List Token} {e : ReadError}
    (h : ofTokens tokens = .error e) :
    (tokens = [] ∧ e = .noMoreTokens) ∨
    ((e = .unclosedList ∨ e = .unexpectedClose) ∧ readForms [] [] tokens = .error e) ∨
    ∃ rest v, Leftover tokens rest v ∧
      e = .trailingTokens (" ".intercalate (rest.map Token.text)) := by
  by_cases hempty : tokens = []
  · subst hempty
    cases h
    exact Or.inl ⟨rfl, rfl⟩
  right
  cases hr : readForm [] tokens with
  | error e' =>
      have hsame : e' = e := by
        rw [ofTokens, hr] at h
        exact Except.error.inj h
      have hall : readForms [] [] tokens = .error e := by
        rw [readForms_eq_bind [] (Or.inl hempty), hr, hsame]
        rfl
      exact Or.inl ⟨unclosed_or_unexpected_of_readForms hall, hall⟩
  | ok answer =>
      obtain ⟨v, rest⟩ := answer
      obtain ⟨hdone, hclose, hmore⟩ := ofTokens_of_readForm hr
      by_cases hrest : rest = []
      · rw [hdone hrest] at h
        cases h
      have hleft : Leftover tokens rest v := ⟨readForm_eq_ok.mp hr, hrest⟩
      by_cases hhead : rest.head? = some .closeBracket
      · left
        rw [hclose hhead] at h
        obtain rfl := Except.error.inj h
        obtain ⟨after, rfl⟩ := List.head?_eq_some_iff.mp hhead
        exact ⟨Or.inr rfl, hleft.readForms⟩
      · right
        rw [hmore hrest hhead] at h
        exact ⟨rest, v, hleft, (Except.error.inj h).symm⟩

theorem readForms_of_ofTokens {tokens : List Token} {e : ReadError}
    (he : e = .unclosedList ∨ e = .unexpectedClose) (h : ofTokens tokens = .error e) :
    readForms [] [] tokens = .error e := by
  rcases ofTokens_eq_error h with ⟨_, rfl⟩ | ⟨_, hall⟩ | ⟨_, _, _, rfl⟩
  · rcases he with he | he <;> cases he
  · exact hall
  · rcases he with he | he <;> cases he

/-- The text that is reported as left over has the tokens that are left over. -/
theorem Leftover.ofText {s : String} {rest : List Token} {v : Value}
    (h : Leftover (Token.ofText s) rest v) :
    Token.ofText (" ".intercalate (rest.map Token.text)) = rest := by
  apply Token.ofChars_intercalate
  intro token hmem
  obtain ⟨form, hsplit, _⟩ := h.split
  apply Token.proper_of_mem_ofText (s := s)
  rw [hsplit]
  exact List.mem_append_right form hmem

/-- The two readers agree on every text. One form is all forms, if there is one; no form is none.
What is malformed for the one is so for the other, in the same way. If something is left over after
the first form, it is all that is left over, token for token, and the forms of the text are the
first form and those of the rest, or the rest is malformed and so is the text. The same holds of two
texts with white space between them, the first of which can be read. -/
theorem readers_agree :
    (∀ s v, read s = .ok v ↔ readAll s = .ok [v]) ∧
    (∀ s, read s = .error .noMoreTokens ↔ readAll s = .ok []) ∧
    (∀ s, read s = .error .unclosedList → readAll s = .error .unclosedList) ∧
    (∀ s, read s = .error .unexpectedClose → readAll s = .error .unexpectedClose) ∧
    (∀ s r, read s = .error (.trailingTokens r) →
      readAll r ≠ .ok [] ∧
      ∃ form v, IsForm form v ∧ Token.ofText s = form ++ Token.ofText r ∧
        readAll s = (readAll r).map (v :: ·)) ∧
    ∀ a forms, readAll a = .ok forms → ∀ w b, Text.isWhiteSpace w = true →
      readAll (a ++ w.toString ++ b) = (readAll b).map (forms ++ ·) := by
  refine ⟨?_, ?_, ?_, ?_, ?_, ?_⟩
  · intro s v
    exact ofTokens_eq_ok.trans (areForms_singleton.symm.trans readForms_eq_ok.symm)
  · intro s
    exact ofTokens_eq_noMoreTokens.trans (areForms_nil.symm.trans readForms_eq_ok.symm)
  · exact fun s h => readForms_of_ofTokens (Or.inl rfl) h
  · exact fun s h => readForms_of_ofTokens (Or.inr rfl) h
  · intro s r h
    rcases ofTokens_eq_error h with ⟨_, he⟩ | ⟨he, _⟩ | ⟨rest, v, hleft, he⟩
    · cases he
    · rcases he with he | he <;> cases he
    · obtain rfl := ReadError.trailingTokens.inj he
      have hrest := hleft.ofText
      obtain ⟨form, hsplit, hform⟩ := hleft.split
      refine ⟨?_, form, v, hform, by rw [hrest, hsplit], ?_⟩
      · intro hnone
        have hempty := areForms_nil.mp (readForms_eq_ok.mp hnone)
        exact hleft.nonempty (hrest.symm.trans hempty)
      · unfold readAll
        rw [hrest]
        exact hleft.readForms
  · intro a forms ha w b hw
    unfold readAll
    rw [Token.ofText_whiteSpace hw]
    exact readForms_append (readForms_eq_ok.mp ha) _

/-- Of `x(y) )` the tokens after `x` are left over, a bracket too many among them, so that the text
cannot be read as forms; a line break and `(y` after `x` leave a list open. -/
theorem readers_agree_tooMany :
    read "x(y) )" = .error (.trailingTokens "( y ) )") ∧
    readAll "( y ) )" = .error .unexpectedClose ∧
    readAll "x(y) )" = .error .unexpectedClose ∧
    (readAll "x" = .ok [.symbol "x"] ∧ readAll "(y" = .error .unclosedList) ∧
    readAll ("x" ++ '\n'.toString ++ "(y") = .error .unclosedList := by
  obtain ⟨_, _, hopen, _, hleft, happend⟩ := readers_agree
  have hread : read "x(y) )" = .error (.trailingTokens "( y ) )") := rfl
  have hrest : readAll "( y ) )" = .error .unexpectedClose := rfl
  have hone : readAll "x" = .ok [.symbol "x"] := rfl
  have hunclosed : readAll "(y" = .error .unclosedList := hopen _ rfl
  obtain ⟨_, form, v, _, _, hall⟩ := hleft _ _ hread
  refine ⟨hread, hrest, ?_, ⟨hone, hunclosed⟩, ?_⟩
  · rw [hall, hrest]
    rfl
  · rw [happend "x" _ hone '\n' "(y" rfl, hunclosed]
    rfl

end Value

end PocketLisp
