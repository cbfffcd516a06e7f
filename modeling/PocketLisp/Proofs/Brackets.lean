import PocketLisp.Proofs.Grammar

/-!
# The balance of brackets

The height of the reader's stack is the number of brackets opened less the number closed. So the
brackets alone decide how the reader answers: whether it accepts, and which error it reports. The
error of a text that has something after its form carries that something.
-/

namespace PocketLisp

namespace Token

/-- Brackets opened less brackets closed. -/
def depth (tokens : List Token) : Int :=
  tokens.count .openBracket - tokens.count .closeBracket

theorem depth_cons (token : Token) (tokens : List Token) :
    depth (token :: tokens) = depth [token] + depth tokens := by
  unfold depth
  cases token <;> simp <;> omega

end Token

namespace Value

open Token (depth)

/-- From `height` open lists on, no token closes more lists than are open. -/
def NeverBelow (height : Int) (tokens : List Token) : Prop :=
  ∀ start, start <+: tokens → 0 ≤ height + depth start

theorem neverBelow_nil {height : Int} : NeverBelow height [] ↔ 0 ≤ height := by
  unfold NeverBelow
  simp [depth]

theorem neverBelow_cons {height : Int} {token : Token} {tokens : List Token} :
    NeverBelow height (token :: tokens) ↔
      0 ≤ height ∧ NeverBelow (height + depth [token]) tokens := by
  constructor
  · intro h
    refine ⟨by simpa [depth] using h [] List.nil_prefix, ?_⟩
    intro start hstart
    have hlonger := h (token :: start) (List.cons_prefix_cons.mpr ⟨rfl, hstart⟩)
    rw [Token.depth_cons] at hlonger
    omega
  · rintro ⟨hheight, h⟩ start hstart
    cases start with
    | nil => simpa [depth] using hheight
    | cons first start =>
        obtain ⟨rfl, hshorter⟩ := List.cons_prefix_cons.mp hstart
        have hrest := h start hshorter
        rw [Token.depth_cons]
        omega

/-- The tokens close the last of `height` open lists with the last token and not before. -/
structure Closes (height : Int) (tokens : List Token) : Prop where
  nonempty : tokens ≠ []
  zero : height + depth tokens = 0
  before : ∀ start, start <+: tokens → start ≠ [] → start ≠ tokens → height + depth start ≠ 0

/-- All that one token can do to the open lists: there is none to close, or as many are open
afterwards as the brackets say, and a form is complete as soon as none is. -/
theorem takeToken_cases (lists : OpenLists) (token : Token) :
    (lists = [] ∧ token = .closeBracket ∧ takeToken lists token = .error .unexpectedClose) ∨
    (∃ lists', takeToken lists token = .ok (.inside lists') ∧ lists' ≠ [] ∧
      (lists'.length : Int) = lists.length + depth [token]) ∨
    (∃ form, takeToken lists token = .ok (.complete form) ∧
      (lists.length : Int) + depth [token] = 0) := by
  cases token with
  | openBracket =>
      right; left
      exact ⟨[] :: lists, rfl, by simp, by simp [depth]⟩
  | atom word =>
      cases lists with
      | nil =>
          right; right
          exact ⟨ofAtom word, rfl, by simp [depth]⟩
      | cons elements outer =>
          right; left
          exact ⟨(ofAtom word :: elements) :: outer, rfl, by simp, by simp [depth]⟩
  | closeBracket =>
      match lists with
      | [] => exact Or.inl ⟨rfl, rfl, rfl⟩
      | [elements] =>
          right; right
          exact ⟨.list elements.reverse, rfl, by simp [depth]⟩
      | elements :: next :: outer =>
          right; left
          refine ⟨(.list elements.reverse :: next) :: outer, rfl, by simp, ?_⟩
          have hdepth : depth [.closeBracket] = -1 := rfl
          rw [hdepth, List.length_cons, List.length_cons, List.length_cons]
          omega

/-- What an answer of the reader of all forms says about the brackets. -/
def Verdict (height : Int) (tokens : List Token) : Except ReadError (List Value) → Prop
  | .ok _ => NeverBelow height tokens ∧ height + depth tokens = 0
  | .error .unexpectedClose => ¬ NeverBelow height tokens
  | .error .unclosedList => NeverBelow height tokens ∧ 0 < height + depth tokens
  | .error _ => False

theorem Verdict.cons {height : Int} {token : Token} {tokens : List Token}
    {answer : Except ReadError (List Value)} (hheight : 0 ≤ height)
    (h : Verdict (height + depth [token]) tokens answer) :
    Verdict height (token :: tokens) answer := by
  have hsum := Token.depth_cons token tokens
  match answer with
  | .ok _ | .error .unclosedList =>
      exact ⟨neverBelow_cons.mpr ⟨hheight, h.1⟩, by have := h.2; omega⟩
  | .error .unexpectedClose => exact fun hn => h (neverBelow_cons.mp hn).2
  | .error .noMoreTokens | .error (.trailingTokens _) => exact h

/-- One list is open for every bracket that is; the forms read so far do not matter. -/
theorem verdict_readForms (tokens : List Token) : ∀ (forms : List Value) (lists : OpenLists),
    Verdict lists.length tokens (readForms forms lists tokens) := by
  induction tokens with
  | nil =>
      intro forms lists
      cases lists with
      | nil => exact ⟨neverBelow_nil.mpr (Int.le_refl 0), rfl⟩
      | cons elements outer =>
          exact ⟨neverBelow_nil.mpr (by omega), by simp [depth]⟩
  | cons token tokens ih =>
      intro forms lists
      rw [readForms]
      rcases takeToken_cases lists token with
        ⟨rfl, rfl, ht⟩ | ⟨lists', ht, _, hlength⟩ | ⟨form, ht, hlength⟩
      · rw [ht]
        intro hn
        have hclosed := hn [.closeBracket] (by simp)
        simp [depth] at hclosed
      · rw [ht]
        apply Verdict.cons (by omega)
        rw [← hlength]
        exact ih forms lists'
      · rw [ht]
        apply Verdict.cons (by omega)
        rw [hlength]
        exact ih (form :: forms) []

/-- What an answer of the reader of one form says about the brackets. -/
def FirstVerdict (height : Int) (tokens : List Token) :
    Except ReadError (Value × List Token) → Prop
  | .ok (_, rest) => ∃ read, tokens = read ++ rest ∧ Closes height read
  | .error .noMoreTokens => height = 0 ∧ tokens = []
  | .error .unexpectedClose => height = 0 ∧ tokens.head? = some .closeBracket
  | .error .unclosedList => ∀ start, start <+: tokens → start ≠ [] → height + depth start ≠ 0
  | .error (.trailingTokens _) => False

theorem Closes.single {height : Int} {token : Token} (h : height + depth [token] = 0) :
    Closes height [token] := by
  refine ⟨by simp, h, ?_⟩
  intro start hstart hne hne'
  cases start with
  | nil => exact absurd rfl hne
  | cons first start =>
      obtain ⟨rfl, hrest⟩ := List.cons_prefix_cons.mp hstart
      rw [List.prefix_nil.mp hrest] at hne'
      exact absurd rfl hne'

/-- A token that leaves a list open takes no part in closing the last one. -/
theorem open_cons {height : Int} {token : Token} {start : List Token}
    (hopen : height + depth [token] ≠ 0)
    (h : start ≠ [] → height + depth [token] + depth start ≠ 0) :
    height + depth (token :: start) ≠ 0 := by
  rw [Token.depth_cons]
  by_cases hempty : start = []
  · rw [hempty]
    simpa [depth] using hopen
  · have hrest := h hempty
    omega

theorem Closes.cons {height : Int} {token : Token} {tokens : List Token}
    (hopen : height + depth [token] ≠ 0) (h : Closes (height + depth [token]) tokens) :
    Closes height (token :: tokens) := by
  refine ⟨by simp, ?_, ?_⟩
  · have hzero := h.zero
    rw [Token.depth_cons]
    omega
  · intro start hstart hne hne'
    cases start with
    | nil => exact absurd rfl hne
    | cons first start =>
        obtain ⟨rfl, hshorter⟩ := List.cons_prefix_cons.mp hstart
        exact open_cons hopen fun hempty =>
          h.before start hshorter hempty fun heq => hne' (by rw [heq])

theorem FirstVerdict.cons {height : Int} {token : Token} {tokens : List Token}
    {answer : Except ReadError (Value × List Token)} (hopen : height + depth [token] ≠ 0)
    (h : FirstVerdict (height + depth [token]) tokens answer) :
    FirstVerdict height (token :: tokens) answer := by
  match answer with
  | .ok (v, rest) =>
      obtain ⟨read, rfl, hread⟩ := h
      exact ⟨token :: read, rfl, hread.cons hopen⟩
  | .error .noMoreTokens | .error .unexpectedClose => exact absurd h.1 hopen
  | .error .unclosedList =>
      intro start hstart hne
      cases start with
      | nil => exact absurd rfl hne
      | cons first start =>
          obtain ⟨rfl, hshorter⟩ := List.cons_prefix_cons.mp hstart
          exact open_cons hopen fun hempty => h start hshorter hempty
  | .error (.trailingTokens _) => exact h

theorem firstVerdict_readForm (tokens : List Token) : ∀ lists : OpenLists,
    FirstVerdict lists.length tokens (readForm lists tokens) := by
  induction tokens with
  | nil =>
      intro lists
      cases lists with
      | nil => exact ⟨rfl, rfl⟩
      | cons elements outer =>
          intro start hstart hne
          exact absurd (List.prefix_nil.mp hstart) hne
  | cons token tokens ih =>
      intro lists
      rw [readForm]
      rcases takeToken_cases lists token with
        ⟨rfl, rfl, ht⟩ | ⟨lists', ht, hne, hlength⟩ | ⟨form, ht, hlength⟩
      · rw [ht]
        exact ⟨rfl, rfl⟩
      · rw [ht]
        have hpos := List.length_pos_iff.mpr hne
        apply FirstVerdict.cons (by omega)
        rw [← hlength]
        exact ih lists'
      · rw [ht]
        exact ⟨[token], rfl, .single hlength⟩

theorem Closes.shortest {tokens rest start : List Token} (h : Closes 0 tokens)
    (hstart : start <+: tokens ++ rest) (hne : start ≠ []) (hzero : depth start = 0) :
    tokens.length ≤ start.length := by
  rcases List.prefix_or_prefix_of_prefix hstart (List.prefix_append tokens rest) with hle | hle
  · by_cases heq : start = tokens
    · exact Nat.le_of_eq (congrArg List.length heq.symm)
    · have hbefore := h.before start hle hne heq
      omega
  · exact hle.length_le

/-- Where the brackets balance for the first time, a form ends. -/
theorem readForm_of_closed {tokens start : List Token}
    (hhead : tokens.head? ≠ some .closeBracket) (hstart : start <+: tokens) (hne : start ≠ [])
    (hzero : depth start = 0) :
    ∃ form rest v, tokens = form ++ rest ∧ Closes 0 form ∧ IsForm form v ∧
      readForm [] tokens = .ok (v, rest) := by
  have hverdict := firstVerdict_readForm tokens []
  cases hr : readForm [] tokens with
  | ok answer =>
      rw [hr] at hverdict
      obtain ⟨v, rest⟩ := answer
      obtain ⟨form, rfl, hcloses⟩ := hverdict
      obtain ⟨read, hsplit, hform⟩ := readForm_eq_ok.mp hr
      rw [← List.append_cancel_right hsplit] at hform
      exact ⟨form, rest, v, rfl, hcloses, hform, rfl⟩
  | error e =>
      rw [hr] at hverdict
      cases e with
      | noMoreTokens =>
          rw [hverdict.2] at hstart
          exact absurd (List.prefix_nil.mp hstart) hne
      | unexpectedClose => exact absurd hverdict.2 hhead
      | unclosedList =>
          have hopen := hverdict start hstart hne
          exact absurd (by simpa using hzero) hopen
      | trailingTokens text => exact hverdict.elim

theorem readForm_of_never_closed {tokens : List Token} (hne : tokens ≠ [])
    (hhead : tokens.head? ≠ some .closeBracket)
    (h : ∀ start, start <+: tokens → start ≠ [] → depth start ≠ 0) :
    readForm [] tokens = .error .unclosedList := by
  have hverdict := firstVerdict_readForm tokens []
  cases hr : readForm [] tokens with
  | ok answer =>
      rw [hr] at hverdict
      obtain ⟨read, rfl, hread⟩ := hverdict
      have hzero := hread.zero
      exact absurd (by simpa using hzero) (h read (List.prefix_append read _) hread.nonempty)
  | error e =>
      rw [hr] at hverdict
      cases e with
      | noMoreTokens => exact absurd hverdict.2 hne
      | unexpectedClose => exact absurd hverdict.2 hhead
      | unclosedList => rfl
      | trailingTokens text => exact hverdict.elim

/-- What follows the first form decides the answer. -/
theorem ofTokens_of_readForm {tokens rest : List Token} {v : Value}
    (h : readForm [] tokens = .ok (v, rest)) :
    (rest = [] → ofTokens tokens = .ok v) ∧
    (rest.head? = some .closeBracket → ofTokens tokens = .error .unexpectedClose) ∧
    (rest ≠ [] → rest.head? ≠ some .closeBracket → ofTokens tokens =
      .error (.trailingTokens (" ".intercalate (rest.map Token.text)))) := by
  unfold ofTokens
  rw [h]
  match rest with
  | [] => simp
  | .closeBracket :: more => simp
  | .openBracket :: more | .atom word :: more => simp

theorem ofTokens_eq_noMoreTokens {tokens : List Token} :
    ofTokens tokens = .error .noMoreTokens ↔ tokens = [] := by
  constructor
  · intro h
    have hverdict := firstVerdict_readForm tokens []
    cases hr : readForm [] tokens with
    | error e =>
        rw [ofTokens, hr] at h
        cases h
        rw [hr] at hverdict
        exact hverdict.2
    | ok answer =>
        obtain ⟨v, rest⟩ := answer
        rw [ofTokens, hr] at h
        match rest, h with
        | [], h | .closeBracket :: _, h | .openBracket :: _, h | .atom _ :: _, h => cases h
  · rintro rfl
    rfl

/-- The three verdicts exclude each other, so each answer has its condition. -/
theorem readAll_classified (text : String) :
    ((∃ vs, readAll text = .ok vs) ↔
      NeverBelow 0 (Token.ofText text) ∧ depth (Token.ofText text) = 0) ∧
    (readAll text = .error .unexpectedClose ↔ ¬ NeverBelow 0 (Token.ofText text)) ∧
    (readAll text = .error .unclosedList ↔
      NeverBelow 0 (Token.ofText text) ∧ 0 < depth (Token.ofText text)) ∧
    ∀ e, readAll text = .error e → e = .unexpectedClose ∨ e = .unclosedList := by
  have hverdict : Verdict 0 (Token.ofText text) (readAll text) := verdict_readForms _ [] []
  cases hr : readAll text with
  | ok vs =>
      rw [hr] at hverdict
      obtain ⟨hn, hzero⟩ := hverdict
      rw [Int.zero_add] at hzero
      simp [hn, hzero]
  | error e =>
      rw [hr] at hverdict
      cases e with
      | unexpectedClose =>
          have hn : ¬ NeverBelow 0 (Token.ofText text) := hverdict
          simp [hn]
      | unclosedList =>
          obtain ⟨hn, hpos⟩ := hverdict
          rw [Int.zero_add] at hpos
          simp [hn, hpos, Int.ne_of_gt hpos]
      | noMoreTokens => exact hverdict.elim
      | trailingTokens text => exact hverdict.elim

theorem neverBelow_zero {tokens : List Token} :
    NeverBelow 0 tokens ↔ ∀ start, start <+: tokens → 0 ≤ depth start := by
  unfold NeverBelow
  simp

/-- Reading accepts exactly the grammar. A text of which not all can be read closes a list that is
not open, or leaves one open. Tokens that are not one form are none, start with a closing bracket,
leave a list open, or have something after the form they start with, which is as short as the
brackets allow. -/
theorem reader_follows_grammar :
    (∀ tokens v, ofTokens tokens = .ok v ↔ IsForm tokens v) ∧
    (∀ text vs, readAll text = .ok vs ↔ AreForms (Token.ofText text) vs) ∧
    (∀ text,
      ((∃ vs, readAll text = .ok vs) ↔
        (∀ start, start <+: Token.ofText text → 0 ≤ depth start) ∧
          depth (Token.ofText text) = 0) ∧
      (readAll text = .error .unexpectedClose ↔
        ∃ start, start <+: Token.ofText text ∧ depth start < 0) ∧
      (readAll text = .error .unclosedList ↔
        (∀ start, start <+: Token.ofText text → 0 ≤ depth start) ∧
          0 < depth (Token.ofText text)) ∧
      ∀ e, readAll text = .error e → e = .unexpectedClose ∨ e = .unclosedList) ∧
    (∀ tokens, ofTokens tokens = .error .noMoreTokens ↔ tokens = []) ∧
    (∀ tokens, tokens.head? = some .closeBracket →
      ofTokens tokens = .error .unexpectedClose) ∧
    (∀ tokens, tokens ≠ [] → tokens.head? ≠ some .closeBracket →
      (∀ start, start <+: tokens → start ≠ [] → depth start ≠ 0) →
      ofTokens tokens = .error .unclosedList) ∧
    (∀ tokens, tokens.head? ≠ some .closeBracket →
      (∃ start, start <+: tokens ∧ start ≠ [] ∧ depth start = 0) →
      ∃ form rest v, tokens = form ++ rest ∧ form ≠ [] ∧ depth form = 0 ∧
        (∀ start, start <+: tokens → start ≠ [] → depth start = 0 →
          form.length ≤ start.length) ∧
        IsForm form v ∧
        (rest = [] → ofTokens tokens = .ok v) ∧
        (rest.head? = some .closeBracket → ofTokens tokens = .error .unexpectedClose) ∧
        (rest ≠ [] → rest.head? ≠ some .closeBracket → ofTokens tokens =
          .error (.trailingTokens (" ".intercalate (rest.map Token.text))))) := by
  refine ⟨fun _ _ => ofTokens_eq_ok, fun _ _ => readForms_eq_ok, ?_,
    fun _ => ofTokens_eq_noMoreTokens, ?_, ?_, ?_⟩
  · intro text
    obtain ⟨hok, hclose, hopen, hother⟩ := readAll_classified text
    rw [neverBelow_zero] at hok hclose hopen
    refine ⟨hok, hclose.trans ?_, hopen, hother⟩
    simp
  · intro tokens hhead
    cases tokens with
    | nil => cases hhead
    | cons token tokens =>
        cases hhead
        rfl
  · intro tokens hne hhead hopen
    rw [ofTokens, readForm_of_never_closed hne hhead hopen]
  · rintro tokens hhead ⟨start, hstart, hne, hzero⟩
    obtain ⟨form, rest, v, rfl, hcloses, hform, hread⟩ :=
      readForm_of_closed hhead hstart hne hzero
    refine ⟨form, rest, v, rfl, hcloses.nonempty, by simpa using hcloses.zero, ?_, hform,
      ofTokens_of_readForm hread⟩
    intro start hstart hne hzero
    exact hcloses.shortest hstart hne hzero

/-- A bracket too many, one too few, and a form with something after it. -/
theorem reader_follows_grammar_leftover :
    ofTokens (Token.ofText ")") = .error .unexpectedClose ∧
    ofTokens (Token.ofText "(a (b) c") = .error .unclosedList ∧
    ∃ v, IsForm (Token.ofText "((a) b)") v ∧
      ofTokens (Token.ofText "((a) b) c") = .error (.trailingTokens "c") := by
  obtain ⟨_, _, _, _, hclose, hopen, hfirst⟩ := reader_follows_grammar
  refine ⟨hclose _ (by decide), ?_, ?_⟩
  · apply hopen _ (by decide) (by decide)
    intro start hstart hne
    have hdepths : ∀ n < 7, n ≠ 0 → depth ((Token.ofText "(a (b) c").take n) ≠ 0 := by decide
    have hle : start.length ≤ 6 := hstart.length_le
    rw [List.prefix_iff_eq_take.mp hstart]
    exact hdepths _ (Nat.lt_succ_of_le hle) (by simpa using hne)
  · have htokens : Token.ofText "((a) b) c" = Token.ofText "((a) b)" ++ [.atom "c"] := by decide
    obtain ⟨form, rest, v, hsplit, hne, hzero, hshort, hform, _, _, hrest⟩ :=
      hfirst (Token.ofText "((a) b) c") (by decide)
        ⟨Token.ofText "((a) b)", ⟨_, htokens.symm⟩, by decide, by decide⟩
    have hprefix : form <+: Token.ofText "((a) b) c" := ⟨rest, hsplit.symm⟩
    have hle : form.length < 7 :=
      Nat.lt_succ_of_le (hshort (Token.ofText "((a) b)") ⟨_, htokens.symm⟩ (by decide) (by decide))
    have hdepths : ∀ n < 7, n ≠ 0 → depth ((Token.ofText "((a) b) c").take n) = 0 → n = 6 := by
      decide
    have hlength : form.length = 6 := by
      apply hdepths _ hle (by simpa using hne)
      rw [← List.prefix_iff_eq_take.mp hprefix]
      exact hzero
    have heq : form = Token.ofText "((a) b)" := by
      rw [List.prefix_iff_eq_take.mp hprefix, hlength]
      decide
    subst heq
    have hlast : rest = [.atom "c"] := List.append_cancel_left (hsplit.symm.trans htokens)
    subst hlast
    exact ⟨v, hform, hrest (by decide) (by decide)⟩

end Value

end PocketLisp
