import PocketLisp.Number.Text
import PocketLisp.Proofs.Rounding

/-!
# Numerals

Reading undoes printing on every number. An integer and a float never have the same text, since
the digits of a float are followed by a point or an exponent. The shortest decimal of a float reads
back: a candidate of the search because it was tried, the full expansion because it needs no
rounding.
-/

namespace PocketLisp

namespace Decimal

theorem toNat_of_isDigit {c : Char} (h : c.isDigit = true) : 48 ≤ c.toNat ∧ c.toNat ≤ 57 := by
  simp only [Char.isDigit, Bool.and_eq_true, decide_eq_true_eq, ge_iff_le,
    UInt32.le_iff_toNat_le] at h
  exact h

theorem natOfDigits_append (run run' : List Char) :
    natOfDigits (run ++ run') = 10 ^ run'.length * natOfDigits run + natOfDigits run' := by
  change Nat.ofDigitChars 10 (run ++ run') 0 = _ * Nat.ofDigitChars 10 run 0 +
    Nat.ofDigitChars 10 run' 0
  rw [Nat.ofDigitChars_append, Nat.ofDigitChars_eq_ofDigitChars_zero]

@[simp] theorem natOfDigits_toDigits (n : Nat) : natOfDigits (Nat.toDigits 10 n) = n :=
  Nat.ofDigitChars_ten_toDigits

@[simp] theorem natOfDigits_zeros (k : Nat) : natOfDigits (List.replicate k '0') = 0 :=
  Nat.ofDigitChars_replicate_zero

def AllDigits (run : List Char) : Prop :=
  ∀ c ∈ run, c.isDigit = true

theorem allDigits_toDigits (n : Nat) : AllDigits (Nat.toDigits 10 n) :=
  fun _ hc => Nat.isDigit_of_mem_toDigits (by decide) (by decide) hc

theorem allDigits_zeros (k : Nat) : AllDigits (List.replicate k '0') := by
  intro c hc
  rw [List.eq_of_mem_replicate hc]
  rfl

theorem AllDigits.append {run run' : List Char} (h : AllDigits run) (h' : AllDigits run') :
    AllDigits (run ++ run') :=
  fun c hc => (List.mem_append.mp hc).elim (h c) (h' c)

theorem AllDigits.isDigits_eq {run : List Char} (h : AllDigits run) (hne : run ≠ []) :
    isDigits run = true := by
  simp only [isDigits, Bool.and_eq_true, List.all_eq_true]
  exact ⟨by simp [hne], h⟩

theorem dropTrailingZeros_concat (run : List Char) (c : Char) :
    dropTrailingZeros (run ++ [c]) = if c = '0' then dropTrailingZeros run else run ++ [c] := by
  unfold dropTrailingZeros
  by_cases hc : c = '0' <;> simp [hc]

theorem dropTrailingZeros_append_zeros (run : List Char) (k : Nat) :
    dropTrailingZeros (run ++ List.replicate k '0') = dropTrailingZeros run := by
  induction k with
  | zero => simp
  | succ k ih =>
    rw [List.replicate_succ', ← List.append_assoc, dropTrailingZeros_concat, if_pos rfl, ih]

/-- Nothing but zeros is dropped, and no zero is left at the end. -/
theorem exists_dropTrailingZeros (run : List Char) :
    ∃ k, run = dropTrailingZeros run ++ List.replicate k '0' ∧
      ∀ start c, dropTrailingZeros run = start ++ [c] → c ≠ '0' := by
  induction run using List.reverseRecOn with
  | nil => exact ⟨0, by simp [dropTrailingZeros], by simp [dropTrailingZeros]⟩
  | append_singleton run c ih =>
    rw [dropTrailingZeros_concat]
    split
    · rename_i hc
      obtain ⟨k, hk, hlast⟩ := ih
      refine ⟨k + 1, ?_, hlast⟩
      rw [List.replicate_succ', ← List.append_assoc, ← hk, hc]
    · rename_i hc
      refine ⟨0, by simp, ?_⟩
      intro start c' heq
      rw [← (List.append_inj_right' heq rfl |> List.singleton_inj.mp)]
      exact hc

/-- The last digit is not zero, so no zeros stand in the digits that could stand in the exponent. -/
def Normal (d : Decimal) : Prop :=
  d.digits % 10 ≠ 0

theorem Normal.exists_concat {d : Decimal} (h : d.Normal) :
    ∃ start c, Nat.toDigits 10 d.digits = start ++ [c] ∧ c ≠ '0' := by
  unfold Normal at h
  rw [Nat.toDigits_eq_if (by decide)]
  split
  · refine ⟨[], _, rfl, ?_⟩
    rw [ne_eq, Nat.digitChar_eq_zero]
    omega
  · refine ⟨_, _, rfl, ?_⟩
    rw [ne_eq, Nat.digitChar_eq_zero]
    exact h

/-- Zeros around the digits do not count. -/
theorem Normal.ofDigits_padded {d : Decimal} (h : d.Normal) (before after : Nat) {place : Int}
    (hplace : place + after = d.exponent) :
    ofDigits (List.replicate before '0' ++ Nat.toDigits 10 d.digits ++ List.replicate after '0')
      place = d := by
  obtain ⟨start, c, hrun, hc⟩ := h.exists_concat
  have hkept : dropTrailingZeros (List.replicate before '0' ++ Nat.toDigits 10 d.digits ++
      List.replicate after '0') = List.replicate before '0' ++ Nat.toDigits 10 d.digits := by
    rw [dropTrailingZeros_append_zeros, hrun, ← List.append_assoc, dropTrailingZeros_concat,
      if_neg hc]
  have hdigits : natOfDigits (List.replicate before '0' ++ Nat.toDigits 10 d.digits) =
      d.digits := by
    rw [natOfDigits_append, natOfDigits_zeros, natOfDigits_toDigits, Nat.mul_zero, Nat.zero_add]
  unfold ofDigits
  simp only [hkept, hdigits, List.length_append, List.length_replicate, Nat.add_sub_cancel_left,
    hplace]

theorem ofNat_normal {n : Nat} (hn : 0 < n) (place : Int) : (ofNat n place).Normal := by
  obtain ⟨k, hk, hlast⟩ := exists_dropTrailingZeros (Nat.toDigits 10 n)
  have hvalue := natOfDigits_toDigits n
  unfold Normal ofNat ofDigits
  simp only
  generalize dropTrailingZeros (Nat.toDigits 10 n) = kept at hk hlast
  rcases List.eq_nil_or_concat' kept with rfl | ⟨start, c, rfl⟩
  · rw [hk, List.nil_append, natOfDigits_zeros] at hvalue
    omega
  · have hrange := toNat_of_isDigit (allDigits_toDigits n c (by simp [hk]))
    have hzero : c.toNat ≠ 48 := fun h => hlast start c rfl (Char.toNat_inj.mp h)
    rw [natOfDigits_append]
    change (10 * natOfDigits start + (10 * 0 + (c.toNat - 48))) % 10 ≠ 0
    omega

theorem value_ofNat (n : Nat) (place : Int) : (ofNat n place).value = n * 10 ^ place := by
  obtain ⟨k, hk, -⟩ := exists_dropTrailingZeros (Nat.toDigits 10 n)
  have hvalue := natOfDigits_toDigits n
  unfold value ofNat ofDigits
  simp only
  generalize dropTrailingZeros (Nat.toDigits 10 n) = kept at hk
  rw [hk, natOfDigits_append, natOfDigits_zeros, List.length_replicate, Nat.add_zero] at hvalue
  rw [hk, List.length_append, Nat.add_sub_cancel_left, List.length_replicate, ← hvalue,
    zpow_add₀ (by norm_num), zpow_natCast]
  push_cast
  ring

theorem value_expansion (m : Nat) (e : Int) : (expansion m e).value = Binary.value m e := by
  unfold expansion Binary.value
  split
  · rename_i he
    obtain ⟨k, rfl⟩ := Int.eq_ofNat_of_zero_le he
    rw [value_ofNat]
    simp
  · rename_i he
    obtain ⟨k, rfl⟩ := Int.exists_eq_neg_ofNat (by omega : e ≤ 0)
    have hten : (10 : ℚ) ^ k = 5 ^ k * 2 ^ k := by
      rw [← mul_pow]
      norm_num
    rw [value_ofNat, zpow_neg, zpow_natCast, zpow_neg, zpow_natCast, hten, neg_neg,
      Int.toNat_natCast, Nat.pow_eq, Nat.cast_mul, Nat.cast_pow, Nat.cast_ofNat]
    field_simp

open Binary

variable {x : Float} {m : Nat} {e : Int}

theorem toFloat_expansion (hx : Exact x (Binary.value m e)) : (expansion m e).toFloat = x :=
  toFloat_of_exact (by rwa [value_expansion])

theorem exists_expansion_eq_ofNat (m : Nat) (e : Int) :
    ∃ n place, ofNat n place = expansion m e := by
  unfold expansion
  split <;> exact ⟨_, _, rfl⟩

theorem readingBack?_eq_some {value distance n : Nat} {place : Int} {d : Decimal}
    (h : readingBack? x m value distance n place = some d) : ofNat n place = d ∧ d.toFloat = x := by
  unfold readingBack? at h
  simp only at h
  split at h
  · rename_i hif
    obtain rfl := Option.some.inj h
    simp only [Bool.and_eq_true, beq_iff_eq] at hif
    exact ⟨rfl, Float.toBits_inj.mp hif.2⟩
  · cases h

theorem nearestOnGrid?_eq_some {num den : Nat} {place : Int} {d : Decimal}
    (h : nearestOnGrid? x m num den place = some d) : ∃ n, ofNat n place = d ∧ d.toFloat = x := by
  unfold nearestOnGrid? at h
  simp only at h
  split at h <;> rcases Option.or_eq_some_iff.mp h with h | ⟨-, h⟩ <;>
    exact ⟨_, readingBack?_eq_some h⟩

theorem searchGrids?_eq_some {num den tries : Nat} {place : Int} {d : Decimal}
    (h : searchGrids? x m num den tries place = some d) :
    ∃ n place, ofNat n place = d ∧ d.toFloat = x := by
  induction tries generalizing place with
  | zero => cases h
  | succ tries ih =>
    rcases Option.or_eq_some_iff.mp h with h | ⟨-, h⟩
    · obtain ⟨n, h⟩ := nearestOnGrid?_eq_some h
      exact ⟨n, place, h⟩
    · exact ih h

theorem exists_shortest_eq_ofNat (hx : Exact x (Binary.value m e)) :
    ∃ n place, ofNat n place = shortest x m e ∧ (shortest x m e).toFloat = x := by
  unfold shortest
  simp only
  cases hsearch : searchGrids? x m (fraction m e).1 (fraction m e).2 17
    (leadingPlace (fraction m e).1 (fraction m e).2 - 1) with
  | none =>
    obtain ⟨n, place, h⟩ := exists_expansion_eq_ofNat m e
    exact ⟨n, place, h, toFloat_expansion hx⟩
  | some d => exact searchGrids?_eq_some hsearch

theorem toFloat_shortest (hx : Exact x (Binary.value m e)) : (shortest x m e).toFloat = x := by
  obtain ⟨n, place, -, hread⟩ := exists_shortest_eq_ofNat hx
  exact hread

theorem shortest_normal (hx : Exact x (Binary.value m e)) : (shortest x m e).Normal := by
  obtain ⟨n, place, h, hread⟩ := exists_shortest_eq_ofNat hx
  rw [← h] at hread ⊢
  apply ofNat_normal
  rcases Nat.eq_zero_or_pos n with rfl | hn
  · exact absurd (hread.symm.trans (toFloat_of_digits_eq_zero rfl)) hx.ne_zero
  · exact hn

section Reading

variable {whole fraction rest : List Char}

theorem splitSign_of_isDigit {c : Char} (hc : c.isDigit = true) (cs : List Char) :
    splitSign (c :: cs) = (false, c :: cs) := by
  unfold splitSign
  split
  · rename_i h
    cases h
    cases hc
  · rename_i h
    cases h
    cases hc
  · rfl

theorem ofChars?_point (hwhole : AllDigits whole) (hne : whole ≠ [])
    (hfraction : AllDigits fraction) (hrest : rest.takeWhile Char.isDigit = []) :
    ofChars? (whole ++ '.' :: (fraction ++ rest)) = (exponentOfChars? rest).map fun e =>
      ofDigits (whole ++ fraction) (e - fraction.length) := by
  have hdrop : rest.dropWhile Char.isDigit = rest := by
    simpa [hrest] using @List.takeWhile_append_dropWhile _ Char.isDigit rest
  unfold ofChars?
  rw [List.takeWhile_append_of_pos hwhole, List.dropWhile_append_of_pos hwhole,
    List.takeWhile_cons_of_neg (by decide), List.dropWhile_cons_of_neg (by decide)]
  simp only [splitFraction, List.takeWhile_append_of_pos hfraction,
    List.dropWhile_append_of_pos hfraction, hrest, hdrop, List.append_nil]
  simp [hne]

theorem ofChars?_exponent (hwhole : AllDigits whole) (hne : whole ≠ []) (rest : List Char) :
    ofChars? (whole ++ 'e' :: rest) = (exponentOfChars? ('e' :: rest)).map fun e =>
      ofDigits whole e := by
  unfold ofChars?
  rw [List.takeWhile_append_of_pos hwhole, List.dropWhile_append_of_pos hwhole,
    List.takeWhile_cons_of_neg (by decide), List.dropWhile_cons_of_neg (by decide)]
  simp [splitFraction, hne]

theorem natAbs_text (e : Int) : (toString e.natAbs).toList = Nat.toDigits 10 e.natAbs := by
  rw [Nat.toString_eq_repr, Nat.toList_repr]

theorem exists_exponentText (e : Int) :
    ∃ k, (exponentText e).toList =
      (if e < 0 then '-' else '+') :: (List.replicate k '0' ++ Nat.toDigits 10 e.natAbs) := by
  unfold exponentText
  simp only [String.toList_append, natAbs_text]
  refine ⟨if (toString e.natAbs).length < 2 then 1 else 0, ?_⟩
  split <;> split <;> rfl

theorem exponentOfChars?_exponentText (e : Int) :
    exponentOfChars? ('e' :: (exponentText e).toList) = some e := by
  obtain ⟨k, hk⟩ := exists_exponentText e
  have hdigits : isDigits (List.replicate k '0' ++ Nat.toDigits 10 e.natAbs) = true :=
    ((allDigits_zeros k).append (allDigits_toDigits _)).isDigits_eq (by simp [Nat.toDigits_ne_nil])
  have hvalue : natOfDigits (List.replicate k '0' ++ Nat.toDigits 10 e.natAbs) = e.natAbs := by
    rw [natOfDigits_append, natOfDigits_zeros, natOfDigits_toDigits, Nat.mul_zero, Nat.zero_add]
  rw [hk]
  split
  · simp only [exponentOfChars?, splitSign, hdigits, hvalue, beq_self_eq_true, Bool.true_or,
      Bool.and_self, ↓reduceIte, Option.some.injEq]
    omega
  · simp only [exponentOfChars?, splitSign, hdigits, hvalue, beq_self_eq_true, Bool.true_or,
      Bool.and_self, ↓reduceIte, Bool.false_eq_true, Option.some.injEq]
    omega

/-- The digits of a decimal, with a point somewhere and zeros around them, read back. -/
theorem Normal.ofChars?_split {d : Decimal} (h : d.Normal) {before after : Nat} {e : Int}
    (hsplit : whole ++ fraction =
      List.replicate before '0' ++ Nat.toDigits 10 d.digits ++ List.replicate after '0')
    (hne : whole ≠ []) (hrest : rest.takeWhile Char.isDigit = [])
    (he : exponentOfChars? rest = some e) (hplace : e - fraction.length + after = d.exponent) :
    ofChars? (whole ++ '.' :: (fraction ++ rest)) = some d := by
  have hdigits : AllDigits (whole ++ fraction) := by
    rw [hsplit]
    exact ((allDigits_zeros before).append (allDigits_toDigits _)).append (allDigits_zeros after)
  rw [ofChars?_point (fun c hc => hdigits c (List.mem_append_left _ hc)) hne
    (fun c hc => hdigits c (List.mem_append_right _ hc)) hrest, he, hsplit, Option.map_some,
    h.ofDigits_padded before after hplace]

theorem Normal.ofChars?_positional {d : Decimal} (h : d.Normal) {point : Int}
    (hpoint : point = (Nat.toDigits 10 d.digits).length + d.exponent) :
    ofChars? (positional (Nat.toDigits 10 d.digits) point).toList = some d := by
  have hne : Nat.toDigits 10 d.digits ≠ [] := Nat.toDigits_ne_nil
  have hnil : exponentOfChars? [] = some 0 := rfl
  unfold positional zeros
  generalize hrun : Nat.toDigits 10 d.digits = run at hpoint hne
  split
  · have hsplit : ['0'] ++ (List.replicate (-point).toNat '0' ++ run) =
        List.replicate ((-point).toNat + 1) '0' ++ Nat.toDigits 10 d.digits ++
          List.replicate 0 '0' := by
      simp [List.replicate_succ, hrun]
    have hread := h.ofChars?_split hsplit (by simp) rfl hnil (by simp; omega)
    simpa using hread
  · split
    · have hsplit : (run ++ List.replicate (point.toNat - run.length) '0') ++ ['0'] =
          List.replicate 0 '0' ++ Nat.toDigits 10 d.digits ++
            List.replicate (point.toNat - run.length + 1) '0' := by
        simp [List.replicate_succ', hrun]
      have hread := h.ofChars?_split hsplit (by simp [hne]) rfl hnil (by simp; omega)
      simpa using hread
    · have hsplit : run.take point.toNat ++ run.drop point.toNat =
          List.replicate 0 '0' ++ Nat.toDigits 10 d.digits ++ List.replicate 0 '0' := by
        simp [hrun]
      have hread := h.ofChars?_split hsplit (by simp [hne]; omega) rfl hnil (by simp; omega)
      simpa using hread

theorem Normal.ofChars?_scientific {d : Decimal} (h : d.Normal) {e : Int}
    (he : e + 1 = (Nat.toDigits 10 d.digits).length + d.exponent) :
    ofChars? (scientific (Nat.toDigits 10 d.digits) e).toList = some d := by
  have hexponent := exponentOfChars?_exponentText e
  unfold scientific mantissaText
  split
  · rename_i hrun
    exact absurd hrun Nat.toDigits_ne_nil
  · rename_i c hrun
    obtain rfl : e = d.exponent := by
      rw [hrun, List.length_singleton] at he
      omega
    have hdigits : AllDigits [c] := hrun ▸ allDigits_toDigits d.digits
    have hread := ofChars?_exponent hdigits (by simp) (exponentText d.exponent).toList
    have hpadded := h.ofDigits_padded 0 0 (Int.add_zero _)
    rw [hrun] at hpadded
    rw [hexponent, Option.map_some] at hread
    simpa using hread.trans (congrArg some hpadded)
  · rename_i c cs _ hrun
    have hsplit : [c] ++ cs =
        List.replicate 0 '0' ++ Nat.toDigits 10 d.digits ++ List.replicate 0 '0' := by
      simp [hrun]
    have hread := h.ofChars?_split hsplit (by simp) rfl hexponent
      (by rw [hrun, List.length_cons] at he; push_cast at he; omega)
    simpa using hread

theorem Normal.ofChars?_text {d : Decimal} (h : d.Normal) : ofChars? d.text.toList = some d := by
  unfold text
  simp only
  split
  · exact h.ofChars?_positional rfl
  · exact h.ofChars?_scientific (by omega)

end Reading

/-- A character that may stand in the text of a number. -/
def IsNumeral (c : Char) : Prop :=
  c.isDigit = true ∨ c ∈ ['.', 'e', '+', '-', 'i', 'n', 'f', 'a']

theorem AllDigits.isNumeral {run : List Char} (h : AllDigits run) {c : Char} (hc : c ∈ run) :
    IsNumeral c :=
  Or.inl (h c hc)

/-- The text starts with digits, and then comes something that is none. -/
def Marked (cs : List Char) : Prop :=
  ∃ whole mark rest, cs = whole ++ mark :: rest ∧ whole ≠ [] ∧ AllDigits whole ∧
    (mark = '.' ∨ mark = 'e') ∧ ∀ c ∈ rest, IsNumeral c

theorem positional_marked {run : List Char} (hne : run ≠ []) (hdigits : AllDigits run)
    (point : Int) : Marked (positional run point).toList := by
  unfold positional zeros
  split
  · exact ⟨['0'], '.', List.replicate (-point).toNat '0' ++ run, by simp, by simp,
      allDigits_zeros 1, Or.inl rfl, fun c => ((allDigits_zeros _).append hdigits).isNumeral⟩
  · split
    · exact ⟨run ++ List.replicate (point.toNat - run.length) '0', '.', ['0'], by simp,
        by simp [hne], hdigits.append (allDigits_zeros _), Or.inl rfl,
        fun c => (allDigits_zeros 1).isNumeral⟩
    · exact ⟨run.take point.toNat, '.', run.drop point.toNat, by simp, by simp [hne]; omega,
        fun c hc => hdigits c (List.mem_of_mem_take hc), Or.inl rfl,
        fun c hc => hdigits.isNumeral (List.mem_of_mem_drop hc)⟩

theorem isNumeral_of_mem_exponentText {e : Int} {c : Char} (hc : c ∈ (exponentText e).toList) :
    IsNumeral c := by
  obtain ⟨k, hk⟩ := exists_exponentText e
  rw [hk, List.mem_cons] at hc
  rcases hc with rfl | hc
  · split <;> exact Or.inr (by decide)
  · exact ((allDigits_zeros k).append (allDigits_toDigits _)).isNumeral hc

theorem scientific_marked {run : List Char} (hne : run ≠ []) (hdigits : AllDigits run) (e : Int) :
    Marked (scientific run e).toList := by
  match run, hne with
  | [d], _ =>
    exact ⟨[d], 'e', (exponentText e).toList, by simp [scientific, mantissaText], by simp, hdigits,
      Or.inr rfl, fun c hc => isNumeral_of_mem_exponentText hc⟩
  | d :: d' :: ds, _ =>
    refine ⟨[d], '.', d' :: ds ++ 'e' :: (exponentText e).toList,
      by simp [scientific, mantissaText], by simp, fun c hc => hdigits c (by simp_all),
      Or.inl rfl, ?_⟩
    intro c hc
    rcases List.mem_append.mp hc with hc | hc
    · exact hdigits.isNumeral (List.mem_cons_of_mem d hc)
    · rcases List.mem_cons.mp hc with rfl | hc
      · exact Or.inr (by decide)
      · exact isNumeral_of_mem_exponentText hc

theorem text_marked (d : Decimal) : Marked d.text.toList := by
  unfold text
  simp only
  split
  · exact positional_marked Nat.toDigits_ne_nil (allDigits_toDigits _) _
  · exact scientific_marked Nat.toDigits_ne_nil (allDigits_toDigits _) _

namespace Marked

variable {cs : List Char}

theorem exists_cons (h : Marked cs) : ∃ c rest, cs = c :: rest ∧ c.isDigit = true := by
  obtain ⟨whole, mark, rest, rfl, hne, hdigits, -⟩ := h
  obtain ⟨c, whole, rfl⟩ := List.exists_cons_of_ne_nil hne
  exact ⟨c, whole ++ mark :: rest, rfl, hdigits c List.mem_cons_self⟩

theorem splitSign_eq (h : Marked cs) : splitSign cs = (false, cs) := by
  obtain ⟨c, rest, rfl, hc⟩ := h.exists_cons
  exact splitSign_of_isDigit hc rest

theorem isDigits_eq (h : Marked cs) : isDigits cs = false := by
  obtain ⟨whole, mark, rest, rfl, -, -, hmark, -⟩ := h
  have hnot : mark.isDigit = false := by rcases hmark with rfl | rfl <;> rfl
  simp [isDigits, hnot]

theorem isNumeral (h : Marked cs) {c : Char} (hc : c ∈ cs) : IsNumeral c := by
  obtain ⟨whole, mark, rest, rfl, -, hdigits, hmark, hrest⟩ := h
  rcases List.mem_append.mp hc with hc | hc
  · exact hdigits.isNumeral hc
  · rcases List.mem_cons.mp hc with rfl | hc
    · rcases hmark with rfl | rfl <;> exact Or.inr (by decide)
    · exact hrest c hc

/-- In lower case it does not start like a word. -/
theorem lower_ne (h : Marked cs) {word : String} {letter : Char}
    (hword : word.toList.head? = some letter) (hletter : letter.isDigit = false) :
    String.ofList (cs.map Char.toLower) ≠ word := by
  obtain ⟨c, rest, rfl, hc⟩ := h.exists_cons
  have hlower : c.toLower = c := by
    have hrange := toNat_of_isDigit hc
    unfold Char.toLower
    rw [dif_neg]
    rintro ⟨hA, -⟩
    have : 65 ≤ c.toNat := UInt32.le_iff_toNat_le.mp hA
    omega
  rintro rfl
  simp [hlower] at hword
  simp [← hword, hc] at hletter

end Marked

end Decimal

namespace Number

open Decimal

theorem splitSign_toDigits (n : Nat) :
    splitSign (Nat.toDigits 10 n) = (false, Nat.toDigits 10 n) := by
  cases hrun : Nat.toDigits 10 n with
  | nil => rfl
  | cons c cs =>
    have hdigits := allDigits_toDigits n
    rw [hrun] at hdigits
    exact splitSign_of_isDigit (hdigits c List.mem_cons_self) cs

theorem integerOfChars?_toString (n : Int64) :
    integerOfChars? (toString n.toInt).toList = some (.integer n) := by
  have hrange := And.intro (Int64.minValue_le_toInt n) (Int64.toInt_le n)
  have hdigits := fun k => (allDigits_toDigits k).isDigits_eq Nat.toDigits_ne_nil
  have hread : ofInt? n.toInt = some (.integer n) := by
    rw [ofInt?, if_pos hrange, Int64.ofInt_toInt]
  rw [Int.toString_eq_repr, Int.repr_eq_if]
  split
  · rw [Nat.toList_repr, integerOfChars?, splitSign_toDigits]
    simp only [hdigits, natOfDigits_toDigits, ↓reduceIte, Bool.false_eq_true]
    rwa [Int.toNat_of_nonneg (by assumption)]
  · rw [String.toList_append, Nat.toList_repr]
    change (if isDigits (Nat.toDigits 10 (-n.toInt).toNat) then
      ofInt? (-(natOfDigits (Nat.toDigits 10 (-n.toInt).toNat) : Int)) else none) = _
    rw [hdigits, if_pos rfl, natOfDigits_toDigits, Int.toNat_of_nonneg (by omega),
      Int.neg_neg]
    exact hread

theorem magnitudeOfChars?_text {d : Decimal} (h : d.Normal) :
    magnitudeOfChars? d.text.toList = some d.toFloat := by
  have hmarked := d.text_marked
  unfold magnitudeOfChars?
  simp only
  rw [if_neg, if_neg, h.ofChars?_text, Option.map_some]
  · exact hmarked.lower_ne rfl rfl
  · rintro (hword | hword)
    · exact hmarked.lower_ne rfl rfl hword
    · exact hmarked.lower_ne rfl rfl hword

theorem floatOfChars?_signed {cs : List Char} (hsign : splitSign cs = (false, cs))
    (negative : Bool) :
    floatOfChars? ((signText negative).toList ++ cs) =
      (magnitudeOfChars? cs).map fun x => .float (if negative then -x else x) := by
  cases negative with
  | false =>
    change floatOfChars? cs = _
    rw [floatOfChars?, hsign]
  | true => rfl

theorem integerOfChars?_signed {cs : List Char} (hsign : splitSign cs = (false, cs))
    (hdigits : isDigits cs = false) (negative : Bool) :
    integerOfChars? ((signText negative).toList ++ cs) = none := by
  cases negative with
  | false =>
    change integerOfChars? cs = _
    simp [integerOfChars?, hsign, hdigits]
  | true =>
    change integerOfChars? ('-' :: cs) = _
    simp [integerOfChars?, splitSign, hdigits]

open Float.Model Float.Model.UnpackedFloat Binary

variable {x : Float} {m : Nat} {e : Int} {hm : 0 < m} {s : Sign}

theorem exact_abs (h : x.toModel.unpack = .finite s m e hm) : Exact x.abs (Binary.value m e) := by
  have hc := canonical_of_unpack h
  change Exact (.ofModel (.pack x.toModel.unpack.abs)) _
  rw [h]
  exact hc.exact_pack

theorem abs_of_positive (h : x.toModel.unpack = .finite .positive m e hm) : x.abs = x := by
  change Float.ofModel (.pack x.toModel.unpack.abs) = x
  rw [h]
  exact eq_of_pack h

theorem neg_abs_of_negative (h : x.toModel.unpack = .finite .negative m e hm) : -x.abs = x := by
  have hc := canonical_of_unpack h
  change Float.ofModel (.pack (Float.Model.pack x.toModel.unpack.abs).unpack.neg) = x
  rw [h]
  change Float.ofModel (.pack (Float.Model.pack (.finite .positive m e hc.pos)).unpack.neg) = x
  rw [unpack_pack hc]
  exact eq_of_pack h

theorem ofText?_finite (h : x.toModel.unpack = .finite s m e hm) :
    ofText? (floatText x) = some (.float x) := by
  have hexact := exact_abs h
  have hmarked := (Decimal.shortest x.abs m e).text_marked
  have hread : magnitudeOfChars? (Decimal.shortest x.abs m e).text.toList = some x.abs := by
    rw [magnitudeOfChars?_text (shortest_normal hexact), toFloat_shortest hexact]
  have hsigned : ∀ negative, ofText? (signText negative ++ (Decimal.shortest x.abs m e).text) =
      some (.float (if negative then -x.abs else x.abs)) := by
    intro negative
    rw [ofText?, String.toList_append, floatOfChars?_signed hmarked.splitSign_eq, hread,
      integerOfChars?_signed hmarked.splitSign_eq hmarked.isDigits_eq]
    rfl
  cases s with
  | negative =>
    have htext : floatText x = signText true ++ (Decimal.shortest x.abs m e).text := by
      simp [floatText, Binary.ofFloat, h, hm.ne']
      rfl
    rw [htext, hsigned, if_pos rfl, neg_abs_of_negative h]
  | positive =>
    have htext : floatText x = signText false ++ (Decimal.shortest x.abs m e).text := by
      simp [floatText, Binary.ofFloat, h, hm.ne']
      rfl
    rw [htext, hsigned, if_neg Bool.false_ne_true, abs_of_positive h]

theorem ofText?_floatText (x : Float) : ofText? (floatText x) = some (.float x) := by
  have hx : Float.ofModel (.pack x.toModel.unpack) = x := eq_of_pack rfl
  cases h : x.toModel.unpack with
  | notANumber =>
    have htext : floatText x = "nan" := by simp [floatText, Binary.ofFloat, h]
    rw [htext, ← hx, h]
    rfl
  | infinity s =>
    have htext : floatText x = (if s == .negative then "-inf" else "inf") := by
      cases s <;> simp [floatText, Binary.ofFloat, h] <;> rfl
    rw [htext, ← hx, h]
    cases s <;> rfl
  | zero s =>
    have htext : floatText x = (if s == .negative then "-0.0" else "0.0") := by
      cases s <;> simp [floatText, Binary.ofFloat, h] <;> rfl
    rw [htext, ← hx, h]
    cases s <;> rfl
  | finite s m e hm => exact ofText?_finite h

/-- Reading undoes printing on every number; a float keeps even the sign of its zero. -/
theorem ofText?_text (n : Number) : ofText? n.text = some n := by
  cases n with
  | integer n =>
    change (integerOfChars? (toString n.toInt).toList).or _ = _
    rw [integerOfChars?_toString]
    rfl
  | float x => exact ofText?_floatText x

/-- The characters of a word, checked one by one. -/
theorem isNumeral_of_all {cs : List Char}
    (h : cs.all (fun c => c.isDigit || ['.', 'e', '+', '-', 'i', 'n', 'f', 'a'].contains c) = true)
    {c : Char} (hc : c ∈ cs) : IsNumeral c := by
  have hone := List.all_eq_true.mp h c hc
  rw [Bool.or_eq_true, List.contains_iff_mem] at hone
  exact hone

theorem isNumeral_of_mem_signed {d : Decimal} {negative : Bool} {c : Char}
    (hc : c ∈ (signText negative ++ d.text).toList) : IsNumeral c := by
  rw [String.toList_append, List.mem_append] at hc
  rcases hc with hc | hc
  · cases negative with
    | false => cases hc
    | true =>
      obtain rfl : c = '-' := List.mem_singleton.mp hc
      exact Or.inr (by decide)
  · exact d.text_marked.isNumeral hc

theorem isNumeral_of_mem_floatText {x : Float} {c : Char} (hc : c ∈ (floatText x).toList) :
    IsNumeral c := by
  unfold floatText at hc
  split at hc
  · exact isNumeral_of_all (by decide) hc
  · rename_i negative _
    cases negative with
    | false => exact isNumeral_of_all (by decide) hc
    | true => exact isNumeral_of_all (by decide) hc
  · rename_i negative _ _ _
    split at hc
    · cases negative with
      | false => exact isNumeral_of_all (by decide) hc
      | true => exact isNumeral_of_all (by decide) hc
    · exact isNumeral_of_mem_signed hc

theorem isNumeral_of_mem_text {n : Number} {c : Char} (hc : c ∈ n.text.toList) : IsNumeral c := by
  cases n with
  | integer n =>
    change c ∈ (toString n.toInt).toList at hc
    rw [Int.toString_eq_repr, Int.repr_eq_if] at hc
    split at hc
    · rw [Nat.toList_repr] at hc
      exact (allDigits_toDigits _).isNumeral hc
    · rw [String.toList_append, Nat.toList_repr] at hc
      rcases List.mem_append.mp hc with hc | hc
      · obtain rfl : c = '-' := List.mem_singleton.mp hc
        exact Or.inr (by decide)
      · exact (allDigits_toDigits _).isNumeral hc
  | float x => exact isNumeral_of_mem_floatText hc

end Number

end PocketLisp
