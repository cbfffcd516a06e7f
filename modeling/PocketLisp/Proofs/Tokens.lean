import PocketLisp.Token

/-!
# The tokens of a text

How texts that stand side by side are scanned, and what an atom of a text can look like. A text
falls apart wherever no atom reaches from one side to the other: before and behind a bracket, and at
white space.
-/

namespace PocketLisp

namespace Token

/-- No atom reaches over the start of the text. -/
def Parted (cs : List Char) : Prop :=
  (cs.foldr Scan.cons ⟨[], []⟩).run = []

theorem parted_nil : Parted [] :=
  rfl

theorem cons_whiteSpace {w : Char} (h : Text.isWhiteSpace w = true) (s : Scan) :
    s.cons w = ⟨[], s.tokens⟩ := by
  have hopen : w ≠ '(' := by
    rintro rfl
    cases h
  have hclose : w ≠ ')' := by
    rintro rfl
    cases h
  simp only [Scan.cons, hopen, hclose, h, ↓reduceIte]

theorem parted_whiteSpace {w : Char} (h : Text.isWhiteSpace w = true) (cs : List Char) :
    Parted (w :: cs) := by
  unfold Parted
  rw [List.foldr_cons, cons_whiteSpace h]

theorem parted_close (cs : List Char) : Parted (')' :: cs) :=
  rfl

theorem ofChars_open (cs : List Char) : ofChars ('(' :: cs) = .openBracket :: ofChars cs :=
  rfl

theorem ofChars_close (cs : List Char) : ofChars (')' :: cs) = .closeBracket :: ofChars cs :=
  rfl

theorem ofChars_whiteSpace {w : Char} (h : Text.isWhiteSpace w = true) (cs : List Char) :
    ofChars (w :: cs) = ofChars cs := by
  unfold ofChars
  rw [List.foldr_cons, cons_whiteSpace h]
  rfl

/-- The scan with more tokens behind it, at a distance. -/
def Scan.before (s : Scan) (more : List Token) : Scan :=
  ⟨s.run, s.after ++ more⟩

theorem Scan.tokens_before (s : Scan) (more : List Token) :
    (s.before more).tokens = s.tokens ++ more := by
  obtain ⟨run, after⟩ := s
  cases run <;> rfl

theorem Scan.cons_before (c : Char) (s : Scan) (more : List Token) :
    (s.before more).cons c = (s.cons c).before more := by
  unfold Scan.cons
  rw [tokens_before]
  split
  · rfl
  · split
    · rfl
    · split <;> rfl

/-- Where no atom reaches over the border, the texts on both sides are scanned apart. -/
theorem ofChars_append (cs : List Char) {rest : List Char} (hrest : Parted rest) :
    ofChars (cs ++ rest) = ofChars cs ++ ofChars rest := by
  have hscan : (cs ++ rest).foldr Scan.cons ⟨[], []⟩ =
      (cs.foldr Scan.cons ⟨[], []⟩).before (ofChars rest) := by
    induction cs with
    | nil =>
        unfold Parted at hrest
        show rest.foldr Scan.cons ⟨[], []⟩ = ⟨[], (rest.foldr Scan.cons ⟨[], []⟩).tokens⟩
        generalize rest.foldr Scan.cons ⟨[], []⟩ = scan at hrest ⊢
        obtain ⟨run, after⟩ := scan
        obtain rfl : run = [] := hrest
        rfl
    | cons c cs ih => rw [List.cons_append, List.foldr_cons, ih, Scan.cons_before, List.foldr_cons]
  show ((cs ++ rest).foldr Scan.cons ⟨[], []⟩).tokens = _
  rw [hscan, Scan.tokens_before]
  rfl

theorem ofText_whiteSpace {w : Char} (h : Text.isWhiteSpace w = true) (s t : String) :
    ofText (s ++ w.toString ++ t) = ofText s ++ ofText t := by
  have hchars : (s ++ w.toString ++ t).toList = s.toList ++ w :: t.toList := by
    simp [Char.toString]
  rw [ofText, hchars, ofChars_append _ (parted_whiteSpace h _), ofChars_whiteSpace h]
  rfl

theorem ofText_brackets (s : String) :
    ofText ("(" ++ s ++ ")") = .openBracket :: (ofText s ++ [.closeBracket]) := by
  have hchars : ("(" ++ s ++ ")").toList = '(' :: (s.toList ++ [')']) := by simp
  rw [ofText, hchars, ofChars_open, ofChars_append _ (parted_close _)]
  rfl

/-- The characters go into one atom. -/
def Solid (cs : List Char) : Prop :=
  ∀ c ∈ cs, c ≠ '(' ∧ c ≠ ')' ∧ Text.isWhiteSpace c = false

theorem solid_of_all {cs : List Char}
    (h : cs.all (fun c => c != '(' && c != ')' && !Text.isWhiteSpace c) = true) : Solid cs := by
  intro c hc
  simpa [and_assoc] using List.all_eq_true.mp h c hc

/-- What the scanner can take for an atom. -/
structure IsWord (cs : List Char) : Prop where
  nonempty : cs ≠ []
  solid : Solid cs

theorem scan_solid {cs : List Char} (h : Solid cs) :
    cs.foldr Scan.cons ⟨[], []⟩ = ⟨cs, []⟩ := by
  induction cs with
  | nil => rfl
  | cons c cs ih =>
      obtain ⟨hopen, hclose, hspace⟩ := h c List.mem_cons_self
      rw [List.foldr_cons, ih fun a ha => h a (List.mem_cons_of_mem c ha)]
      simp [Scan.cons, hopen, hclose, hspace]

theorem ofChars_word {cs : List Char} (h : IsWord cs) {rest : List Char} (hrest : Parted rest) :
    ofChars (cs ++ rest) = .atom (String.ofList cs) :: ofChars rest := by
  have hword : ofChars cs = [.atom (String.ofList cs)] := by
    obtain ⟨c, cs, rfl⟩ := List.exists_cons_of_ne_nil h.nonempty
    unfold ofChars
    rw [scan_solid h.solid]
    rfl
  rw [ofChars_append cs hrest, hword]
  rfl

/-- Every atom is a word, the one that is still being scanned as far as it goes. -/
structure Scan.Sound (s : Scan) : Prop where
  run : Solid s.run
  after : ∀ word, .atom word ∈ s.after → IsWord word.toList

theorem Scan.Sound.tokens {s : Scan} (h : s.Sound) {word : String} (hmem : .atom word ∈ s.tokens) :
    IsWord word.toList := by
  obtain ⟨run, after⟩ := s
  cases run with
  | nil => exact h.after word hmem
  | cons c run =>
      rcases List.mem_cons.mp hmem with heq | hmem
      · obtain rfl := Token.atom.inj heq
        rw [String.toList_ofList]
        exact ⟨List.cons_ne_nil c run, h.run⟩
      · exact h.after word hmem

theorem Scan.Sound.cons {s : Scan} (h : s.Sound) (c : Char) : (s.cons c).Sound := by
  have hnil : Solid [] := fun c hc => absurd hc List.not_mem_nil
  unfold Scan.cons
  split
  · refine ⟨hnil, fun word hmem => h.tokens ?_⟩
    simpa using hmem
  · split
    · refine ⟨hnil, fun word hmem => h.tokens ?_⟩
      simpa using hmem
    · split
      · exact ⟨hnil, fun word hmem => h.tokens hmem⟩
      · rename_i hopen hclose hspace
        refine ⟨?_, h.after⟩
        intro a ha
        rcases List.mem_cons.mp ha with rfl | ha
        · exact ⟨hopen, hclose, by simpa using hspace⟩
        · exact h.run a ha

/-- Every atom of a text is a word. -/
theorem isWord_of_mem_ofText {text word : String} (h : .atom word ∈ ofText text) :
    IsWord word.toList := by
  have hsound : (text.toList.foldr Scan.cons ⟨[], []⟩).Sound := by
    induction text.toList with
    | nil => exact ⟨fun c hc => absurd hc List.not_mem_nil, fun word hmem => by cases hmem⟩
    | cons c cs ih => exact ih.cons c
  exact hsound.tokens h

end Token

end PocketLisp
