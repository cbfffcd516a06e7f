import PocketLisp.Value.Reader

/-!
# The grammar of forms

A form is an atom, or forms in brackets. The reader, which keeps a stack of open lists, accepts
exactly the token lists of this grammar. Tokens are arbitrary here: nothing is said about the texts
they come from.
-/

namespace PocketLisp

namespace Value

mutual

/-- The tokens make up one form, and it reads as the value. -/
inductive IsForm : List Token → Value → Prop
  | atom (word : String) : IsForm [.atom word] (ofAtom word)
  | list {tokens : List Token} {vs : List Value} :
      AreForms tokens vs → IsForm (.openBracket :: (tokens ++ [.closeBracket])) (.list vs)

/-- The tokens make up forms one after the other. -/
inductive AreForms : List Token → List Value → Prop
  | nil : AreForms [] []
  | cons {first rest : List Token} {v : Value} {vs : List Value} :
      IsForm first v → AreForms rest vs → AreForms (first ++ rest) (v :: vs)

end

theorem AreForms.append {tokens₁ tokens₂ : List Token} {vs₁ vs₂ : List Value}
    (h₁ : AreForms tokens₁ vs₁) (h₂ : AreForms tokens₂ vs₂) :
    AreForms (tokens₁ ++ tokens₂) (vs₁ ++ vs₂) := by
  induction vs₁ generalizing tokens₁ with
  | nil =>
      cases h₁
      exact h₂
  | cons v vs ih =>
      cases h₁ with
      | cons hfirst hrest =>
          rw [List.append_assoc]
          exact .cons hfirst (ih hrest)

theorem IsForm.areForms {tokens : List Token} {v : Value} (h : IsForm tokens v) :
    AreForms tokens [v] := by
  have hone := AreForms.cons h .nil
  rwa [List.append_nil] at hone

/-- The tokens read so far leave these lists open: for each list, the outermost first, a bracket
and the forms that the list holds. -/
inductive Opened : List Token → OpenLists → Prop
  | nil : Opened [] []
  | cons {before tokens : List Token} {lists : OpenLists} {vs : List Value} :
      Opened before lists → AreForms tokens vs →
        Opened (before ++ .openBracket :: tokens) (vs.reverse :: lists)

/-- What tokens amount to once a form has been put in its place. -/
def Progress.Explains (tokens : List Token) : Progress → Prop
  | .inside lists => Opened tokens lists
  | .complete form => IsForm tokens form

theorem explains_place {before tokens : List Token} {lists : OpenLists} {v : Value}
    (hopen : Opened before lists) (hform : IsForm tokens v) :
    (place v lists).Explains (before ++ tokens) := by
  cases hopen with
  | nil => exact hform
  | @cons before' forms outer vs hopen' hforms =>
      have hlonger := hforms.append hform.areForms
      have hopened := Opened.cons hopen' hlonger
      rw [List.reverse_append] at hopened
      rw [List.append_assoc]
      exact hopened

theorem explains_takeToken {before : List Token} {lists : OpenLists} {token : Token}
    {progress : Progress} (hopen : Opened before lists)
    (h : takeToken lists token = .ok progress) : progress.Explains (before ++ [token]) := by
  cases token with
  | openBracket =>
      cases h
      exact Opened.cons hopen .nil
  | atom word =>
      cases h
      exact explains_place hopen (.atom word)
  | closeBracket =>
      cases hopen with
      | nil => cases h
      | @cons before' forms outer vs hopen' hforms =>
          cases h
          rw [List.append_assoc, List.reverse_reverse]
          exact explains_place hopen' (.list hforms)

/-- The tokens that are consumed complete those read before to one form. -/
theorem isForm_of_readForm {tokens : List Token} :
    ∀ {before : List Token} {lists : OpenLists} {v : Value} {rest : List Token},
      Opened before lists → readForm lists tokens = .ok (v, rest) →
        ∃ read, tokens = read ++ rest ∧ IsForm (before ++ read) v := by
  induction tokens with
  | nil =>
      intro before lists v rest _ h
      cases h
  | cons token tokens ih =>
      intro before lists v rest hopen h
      rw [readForm] at h
      cases ht : takeToken lists token with
      | error e =>
          rw [ht] at h
          cases h
      | ok progress =>
          have hstep := explains_takeToken hopen ht
          rw [ht] at h
          cases progress with
          | complete form =>
              cases h
              exact ⟨[token], rfl, hstep⟩
          | inside lists' =>
              obtain ⟨read, rfl, hread⟩ := ih hstep h
              rw [List.append_assoc] at hread
              exact ⟨token :: read, rfl, hread⟩

/-- Reading goes on, or is done. -/
def Progress.resume (rest : List Token) : Progress → Except ReadError (Value × List Token)
  | .inside lists => readForm lists rest
  | .complete form => .ok (form, rest)

theorem readForm_cons {lists : OpenLists} {token : Token} {progress : Progress}
    (h : takeToken lists token = .ok progress) (rest : List Token) :
    readForm lists (token :: rest) = progress.resume rest := by
  rw [readForm, h]
  cases progress <;> rfl

mutual

theorem readForm_of_isForm {tokens : List Token} {v : Value} (h : IsForm tokens v)
    (lists : OpenLists) (rest : List Token) :
    readForm lists (tokens ++ rest) = (place v lists).resume rest := by
  cases h with
  | atom word => exact readForm_cons rfl rest
  | @list tokens vs hforms =>
      have hopen : takeToken lists .openBracket = .ok (.inside ([] :: lists)) := rfl
      have hclose : takeToken ((vs.reverse ++ []) :: lists) .closeBracket =
          .ok (place (.list vs) lists) := by
        rw [takeToken, List.append_nil, List.reverse_reverse]
      calc readForm lists (.openBracket :: (tokens ++ [.closeBracket]) ++ rest)
          = readForm ([] :: lists) (tokens ++ .closeBracket :: rest) := by
            rw [List.cons_append, List.append_assoc]
            exact readForm_cons hopen _
        _ = readForm ((vs.reverse ++ []) :: lists) (.closeBracket :: rest) :=
            readForm_of_areForms hforms [] lists _
        _ = (place (.list vs) lists).resume rest := readForm_cons hclose rest

theorem readForm_of_areForms {tokens : List Token} {vs : List Value} (h : AreForms tokens vs)
    (elements : List Value) (lists : OpenLists) (rest : List Token) :
    readForm (elements :: lists) (tokens ++ rest) =
      readForm ((vs.reverse ++ elements) :: lists) rest := by
  cases h with
  | nil => rfl
  | @cons first others v vs hfirst hrest =>
      calc readForm (elements :: lists) (first ++ others ++ rest)
          = readForm ((v :: elements) :: lists) (others ++ rest) := by
            rw [List.append_assoc]
            exact readForm_of_isForm hfirst _ _
        _ = readForm ((vs.reverse ++ v :: elements) :: lists) rest :=
            readForm_of_areForms hrest _ _ _
        _ = readForm (((v :: vs).reverse ++ elements) :: lists) rest := by
            rw [List.reverse_cons, List.append_assoc]
            rfl

end

theorem readForm_eq_ok {tokens rest : List Token} {v : Value} :
    readForm [] tokens = .ok (v, rest) ↔ ∃ read, tokens = read ++ rest ∧ IsForm read v := by
  constructor
  · intro h
    exact isForm_of_readForm .nil h
  · rintro ⟨read, rfl, hread⟩
    exact readForm_of_isForm hread [] rest

theorem ne_nil_of_takeToken {lists lists' : OpenLists} {token : Token}
    (h : takeToken lists token = .ok (.inside lists')) : lists' ≠ [] := by
  match lists, token with
  | lists, .openBracket => cases h; simp
  | [], .atom word => cases h
  | elements :: outer, .atom word => cases h; simp
  | [], .closeBracket => cases h
  | [elements], .closeBracket => cases h
  | elements :: next :: outer, .closeBracket => cases h; simp

/-- The reader of all forms reads form after form. -/
theorem readForms_eq_bind {tokens : List Token} :
    ∀ {lists : OpenLists} (forms : List Value), tokens ≠ [] ∨ lists ≠ [] →
      readForms forms lists tokens =
        (readForm lists tokens).bind fun (form, rest) => readForms (form :: forms) [] rest := by
  induction tokens with
  | nil =>
      rintro (_ | ⟨elements, outer⟩) forms (h | h)
      · exact absurd rfl h
      · exact absurd rfl h
      · exact absurd rfl h
      · rfl
  | cons token tokens ih =>
      intro lists forms _
      rw [readForms, readForm]
      cases ht : takeToken lists token with
      | error e => rfl
      | ok progress =>
          cases progress with
          | complete form => rfl
          | inside lists' => exact ih forms (Or.inr (ne_nil_of_takeToken ht))

theorem IsForm.ne_nil {tokens : List Token} {v : Value} (h : IsForm tokens v) : tokens ≠ [] := by
  cases h <;> simp

theorem readForms_of_areForms {vs : List Value} : ∀ {tokens : List Token} (forms : List Value),
    AreForms tokens vs → readForms forms [] tokens = .ok (forms.reverse ++ vs) := by
  induction vs with
  | nil =>
      intro tokens forms h
      cases h
      rw [List.append_nil]
      rfl
  | cons v vs ih =>
      intro tokens forms h
      cases h with
      | @cons first rest _ _ hfirst hrest =>
          have hne : first ++ rest ≠ [] := fun h => hfirst.ne_nil (List.append_eq_nil_iff.mp h).1
          rw [readForms_eq_bind forms (Or.inl hne), readForm_of_isForm hfirst]
          change readForms (v :: forms) [] rest = _
          rw [ih (v :: forms) hrest, List.reverse_cons, List.append_assoc]
          rfl

/-- Induction on the number of tokens: a form takes at least one. -/
theorem areForms_of_readForms {tokens : List Token} {forms vs : List Value}
    (h : readForms forms [] tokens = .ok vs) :
    ∃ ws, vs = forms.reverse ++ ws ∧ AreForms tokens ws := by
  induction hn : tokens.length using Nat.strongRecOn generalizing tokens forms with
  | ind n ih =>
      cases tokens with
      | nil =>
          cases h
          exact ⟨[], (List.append_nil _).symm, .nil⟩
      | cons token tokens =>
          rw [readForms_eq_bind forms (Or.inl (by simp))] at h
          cases hr : readForm [] (token :: tokens) with
          | error e =>
              rw [hr] at h
              cases h
          | ok answer =>
              obtain ⟨form, rest⟩ := answer
              obtain ⟨read, hsplit, hform⟩ := readForm_eq_ok.mp hr
              rw [hr] at h
              have hshorter : rest.length < n := by
                have hpos := List.length_pos_iff.mpr hform.ne_nil
                rw [← hn, hsplit, List.length_append]
                omega
              obtain ⟨ws, rfl, hws⟩ := ih rest.length hshorter h rfl
              refine ⟨form :: ws, ?_, ?_⟩
              · rw [List.reverse_cons, List.append_assoc]
                rfl
              · rw [hsplit]
                exact .cons hform hws

theorem readForms_eq_ok {tokens : List Token} {vs : List Value} :
    readForms [] [] tokens = .ok vs ↔ AreForms tokens vs := by
  constructor
  · intro h
    obtain ⟨ws, rfl, hws⟩ := areForms_of_readForms h
    exact hws
  · intro h
    exact readForms_of_areForms [] h

theorem ofTokens_eq_ok {tokens : List Token} {v : Value} :
    ofTokens tokens = .ok v ↔ IsForm tokens v := by
  unfold ofTokens
  constructor
  · intro h
    split at h
    · cases h
    · rename_i form hread
      cases h
      obtain ⟨read, rfl, hform⟩ := readForm_eq_ok.mp hread
      rwa [List.append_nil]
    · cases h
    · cases h
  · intro h
    have hread : readForm [] tokens = .ok (v, []) :=
      readForm_eq_ok.mpr ⟨tokens, (List.append_nil tokens).symm, h⟩
    rw [hread]


end Value

end PocketLisp
