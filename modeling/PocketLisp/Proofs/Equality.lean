import PocketLisp.Proofs.Comparison

/-!
# Equality of values

Equality is symmetric, it compares lists place by place, and every value equals itself that has no
NaN anywhere in its lists. It is not transitive: an integer is rounded before it is compared with a
float, so that two integers which differ may equal one float. Chains of equalities break at such
places and nowhere else, and there the integers are at least `2 ^ 53`. What stands inside of a
procedure is never looked at.
-/

namespace PocketLisp

namespace Number

theorem equal_comm (a b : Number) : a.equal b = b.equal a := by
  rw [Bool.eq_iff_iff, equal_iff, equal_iff, order?_swap a b]
  cases a.order? b with
  | none => simp
  | some o => cases o <;> simp

theorem equal_self_iff {a : Number} : a.equal a = true ↔ a.isNaN = false := by
  have hnone := order?_eq_none (a := a) (b := a)
  have hswap := order?_swap a a
  rw [equal_iff]
  cases ho : a.order? a with
  | none =>
      rw [ho, or_self] at hnone
      simp [hnone.mp rfl]
  | some o =>
      rw [ho, or_self] at hnone
      rw [ho] at hswap
      have heq : o = .eq := by
        cases o with
        | eq => rfl
        | lt => cases hswap
        | gt => cases hswap
      simpa [heq] using hnone

/-- Equal numbers stand at one place once they are floats. -/
theorem place?_of_equal {a b : Number} (h : a.equal b = true) :
    ∃ p, a.place? = some p ∧ b.place? = some p := by
  rw [equal_iff] at h
  have hplaces (heq : (Binary.ofFloat a.toFloat).order? (Binary.ofFloat b.toFloat) = some .eq) :
      ∃ p, a.place? = some p ∧ b.place? = some p := by
    obtain ⟨p, hp, hrest⟩ := Option.bind_eq_some_iff.mp heq
    obtain ⟨q, hq, hpq⟩ := Option.map_eq_some_iff.mp hrest
    obtain rfl := compare_eq_iff_eq.mp hpq
    exact ⟨p, hp, hq⟩
  cases a with
  | integer m =>
      cases b with
      | integer n =>
          obtain rfl := Int64.toInt_inj.mp (compare_eq_iff_eq.mp (Option.some.inj h))
          obtain ⟨q, hq, -⟩ := place?_integer m
          exact ⟨_, hq, hq⟩
      | float y => exact hplaces h
  | float x => exact hplaces h

/-- Of two numbers at one place, only integers may differ. -/
theorem equal_of_place? {a b : Number} {p : WithBot (WithTop ℚ)} (ha : a.place? = some p)
    (hb : b.place? = some p) :
    a.equal b = true ∨ ∃ m n, a = .integer m ∧ b = .integer n ∧ m ≠ n := by
  have hplaces : (Binary.ofFloat a.toFloat).order? (Binary.ofFloat b.toFloat) = some .eq := by
    rw [Binary.order?_of_place? ha hb, compare_eq_iff_eq.mpr rfl]
  rw [equal_iff]
  cases a with
  | integer m =>
      cases b with
      | integer n =>
          by_cases h : m = n
          · exact Or.inl (by rw [h, order?, compare_eq_iff_eq.mpr rfl])
          · exact Or.inr ⟨m, n, rfl, rfl, h⟩
      | float y => exact Or.inl hplaces
  | float x => exact Or.inl hplaces

/-- An integer so great in magnitude that its neighbours may be rounded to the same float. -/
def IsCoarse : Number → Prop
  | .integer n => 2 ^ 53 ≤ n.toInt.natAbs
  | .float _ => False

/-- An integer that has no digit too many for a float is not rounded; of these only the greatest
magnitude loses a digit, which is a zero. -/
theorem Rounds.eq_of_le {n : Int} {q : ℚ} (h : Rounds n q) (hn : n.natAbs ≤ 2 ^ 53) : q = n := by
  obtain ⟨r, hnearest, hq⟩ := h
  obtain ⟨k, hk⟩ : ∃ k, n.natAbs = k * 2 ^ Binary.surplus n.natAbs := by
    rcases Nat.lt_or_eq_of_le hn with hlt | heq
    · refine ⟨n.natAbs, ?_⟩
      have hlog : n.natAbs.log2 < 53 := by
        rcases Nat.eq_zero_or_pos n.natAbs with hzero | hpos
        · rw [hzero]
          decide
        · exact (Nat.log2_lt hpos.ne').mpr hlt
      have hsurplus : Binary.surplus n.natAbs = 0 := by
        unfold Binary.surplus
        omega
      rw [hsurplus, pow_zero, mul_one]
    · exact ⟨2 ^ 52, by rw [heq]; decide +kernel⟩
  have hpow : (2 : ℚ) ^ Binary.surplus n.natAbs ≠ 0 := by positivity
  have hquotient : (n.natAbs : ℚ) / 2 ^ Binary.surplus n.natAbs = k := by
    rw [div_eq_iff hpow]
    exact_mod_cast hk
  rw [hquotient] at hnearest
  have hr : r = k := le_antisymm (hnearest.mono (isNearest_natCast k) le_rfl)
    ((isNearest_natCast k).mono hnearest le_rfl)
  have hmagnitude : (if n < 0 then -q else q) = n.natAbs := by
    rw [hq, hr]
    exact_mod_cast hk.symm
  have habs : ((n.natAbs : Int) : ℚ) = n.natAbs := Int.cast_natCast _
  by_cases hneg : n < 0
  · rw [if_pos hneg, ← habs, Int.ofNat_natAbs_of_nonpos hneg.le, Int.cast_neg] at hmagnitude
    linarith
  · rw [if_neg hneg, ← habs, Int.natAbs_of_nonneg (by omega)] at hmagnitude
    exact hmagnitude

/-- Only coarse integers are rounded to the same number: conversion is monotone, and the neighbour
of a fine one is not rounded either. -/
theorem Rounds.two_pow_le {m n : Int} {q : ℚ} (hm : Rounds m q) (hn : Rounds n q) (hne : m ≠ n) :
    2 ^ 53 ≤ m.natAbs := by
  by_contra hlt
  have hq := hm.eq_of_le (by omega)
  rcases lt_or_gt_of_ne hne with hless | hgreater
  · obtain ⟨q', -, hq'⟩ := rational?_floatOfInt (n := m + 1) (by omega)
    have hle := hq'.mono hn (by omega)
    rw [hq'.eq_of_le (by omega), hq, Int.cast_le] at hle
    omega
  · obtain ⟨q', -, hq'⟩ := rational?_floatOfInt (n := m - 1) (by omega)
    have hle := hn.mono hq' (by omega)
    rw [hq'.eq_of_le (by omega), hq, Int.cast_le] at hle
    omega

/-- Two different integers that equal one float are both coarse. -/
theorem isCoarse_of_equal {m n : Int64} {x : Float} (hm : (integer m).equal (float x) = true)
    (hn : (float x).equal (integer n) = true) (hne : m ≠ n) :
    (integer m).IsCoarse ∧ (integer n).IsCoarse := by
  obtain ⟨p, hmp, hxp⟩ := place?_of_equal hm
  obtain ⟨p', hxp', hnp⟩ := place?_of_equal hn
  obtain rfl := Option.some.inj (hxp.symm.trans hxp')
  obtain ⟨q, hq, hmq⟩ := place?_integer m
  obtain ⟨q', hq', hnq⟩ := place?_integer n
  have hsame := Option.some.inj ((hq.symm.trans hmp).trans (hnp.symm.trans hq'))
  obtain rfl := WithTop.coe_injective (WithBot.coe_injective hsame)
  have hne' : m.toInt ≠ n.toInt := fun h => hne (Int64.toInt_inj.mp h)
  exact ⟨hmq.two_pow_le hnq hne', hnq.two_pow_le hmq hne'.symm⟩

/-- A chain of two equalities is an equality, unless it leads from an integer by way of a float to
another integer. -/
theorem equal_chain {a b c : Number} (hab : a.equal b = true) (hbc : b.equal c = true) :
    a.equal c = true ∨ ∃ m x n, a = .integer m ∧ b = .float x ∧ c = .integer n ∧ m ≠ n := by
  obtain ⟨p, hap, hbp⟩ := place?_of_equal hab
  obtain ⟨p', hbp', hcp⟩ := place?_of_equal hbc
  obtain rfl := Option.some.inj (hbp.symm.trans hbp')
  rcases equal_of_place? hap hcp with hac | ⟨m, n, rfl, rfl, hne⟩
  · exact Or.inl hac
  · cases b with
    | float x => exact Or.inr ⟨m, x, n, rfl, rfl, rfl, hne⟩
    | integer k =>
        have hmk : m = k := beq_iff_eq.mp hab
        have hkn : k = n := beq_iff_eq.mp hbc
        exact absurd (hmk.trans hkn) hne

end Number

namespace Value

mutual

/-- Induction over the elements of lists. The body of a procedure is not taken into account. -/
@[elab_as_elim]
theorem elements_induction {P : Value → Prop} (number : ∀ n, P (.number n))
    (symbol : ∀ name, P (.symbol name)) (list : ∀ vs, (∀ v ∈ vs, P v) → P (.list vs))
    (primitive : ∀ p, P (.primitive p)) (procedure : ∀ p, P (.procedure p)) : (v : Value) → P v
  | .number n => number n
  | .symbol name => symbol name
  | .list vs => list vs (elements_induction_list number symbol list primitive procedure vs)
  | .primitive p => primitive p
  | .procedure p => procedure p

theorem elements_induction_list {P : Value → Prop} (number : ∀ n, P (.number n))
    (symbol : ∀ name, P (.symbol name)) (list : ∀ vs, (∀ v ∈ vs, P v) → P (.list vs))
    (primitive : ∀ p, P (.primitive p)) (procedure : ∀ p, P (.procedure p)) :
    (vs : List Value) → ∀ v ∈ vs, P v
  | [] => nofun
  | v :: vs => List.forall_mem_cons.mpr
      ⟨elements_induction number symbol list primitive procedure v,
        elements_induction_list number symbol list primitive procedure vs⟩

end

theorem equalAll_iff {as bs : List Value} :
    equalAll as bs = true ↔ List.Forall₂ (fun a b : Value => a.equal b = true) as bs := by
  induction as generalizing bs with
  | nil =>
      cases bs with
      | nil => simp [equalAll]
      | cons b bs => simp [equalAll]
  | cons a as ih =>
      cases bs with
      | nil => simp [equalAll]
      | cons b bs => rw [equalAll, Bool.and_eq_true, ih, List.forall₂_cons]

/-- Lists are compared place by place. -/
theorem equal_list_iff {as bs : List Value} :
    (list as).equal (list bs) = true ↔ as.length = bs.length ∧
      ∀ (i : Nat) (a b : Value), as[i]? = some a → bs[i]? = some b → a.equal b = true := by
  rw [equal, equalAll_iff, List.forall₂_iff_get]
  apply and_congr_right
  intro hlength
  constructor
  · intro h i a b ha hb
    obtain ⟨hi, rfl⟩ := List.getElem?_eq_some_iff.mp ha
    obtain ⟨hi', rfl⟩ := List.getElem?_eq_some_iff.mp hb
    exact h i hi hi'
  · intro h i hi hi'
    exact h i _ _ (List.getElem?_eq_getElem hi) (List.getElem?_eq_getElem hi')

theorem equal_comm (a b : Value) : a.equal b = b.equal a := by
  induction a using elements_induction generalizing b with
  | number m =>
      cases b with
      | number n => rw [equal, equal, m.equal_comm n]
      | _ => simp only [equal]
  | symbol name =>
      cases b with
      | symbol other => rw [equal, equal, Bool.beq_comm]
      | _ => simp only [equal]
  | list as ih =>
      cases b with
      | list bs =>
          rw [Bool.eq_iff_iff, equal_list_iff, equal_list_iff, eq_comm]
          apply and_congr_right
          intro _
          constructor
          · intro h i b a hb ha
            rw [← ih a (List.mem_of_getElem? ha)]
            exact h i a b ha hb
          · intro h i a b ha hb
            rw [ih a (List.mem_of_getElem? ha)]
            exact h i b a hb ha
      | _ => simp only [equal]
  | primitive p =>
      cases b with
      | primitive q => rw [equal, equal, Bool.beq_comm]
      | _ => simp only [equal]
  | procedure p =>
      cases b with
      | procedure q => rw [equal, equal, Bool.beq_comm]
      | _ => simp only [equal]

/-- A number of the kind is in the value, at some depth of its lists. -/
inductive HasNumber (P : Number → Prop) : Value → Prop
  | here {n : Number} (h : P n) : HasNumber P (.number n)
  | element {vs : List Value} {v : Value} (hv : v ∈ vs) (h : HasNumber P v) : HasNumber P (.list vs)

theorem hasNumber_number {P : Number → Prop} {n : Number} : (number n).HasNumber P ↔ P n := by
  constructor
  · intro h
    cases h with
    | here h => exact h
  · exact .here

theorem hasNumber_list {P : Number → Prop} {vs : List Value} :
    (list vs).HasNumber P ↔ ∃ v ∈ vs, v.HasNumber P := by
  constructor
  · intro h
    cases h with
    | element hv h => exact ⟨_, hv, h⟩
  · intro h
    obtain ⟨v, hv, h⟩ := h
    exact .element hv h

theorem equal_self_iff {a : Value} : a.equal a = true ↔ ¬ a.HasNumber (·.isNaN = true) := by
  induction a using elements_induction with
  | number n => rw [equal, Number.equal_self_iff, hasNumber_number, Bool.not_eq_true]
  | symbol name =>
      rw [equal, beq_self_eq_true]
      exact iff_of_true rfl (by intro h; cases h)
  | list vs ih =>
      rw [equal, equalAll_iff, List.forall₂_same, hasNumber_list]
      push Not
      exact forall₂_congr ih
  | primitive p =>
      rw [equal, beq_self_eq_true]
      exact iff_of_true rfl (by intro h; cases h)
  | procedure p =>
      rw [equal, beq_self_eq_true]
      exact iff_of_true rfl (by intro h; cases h)

/-- Equality does not depend on the order of the two values. A value equals itself unless there is a
NaN somewhere in its lists. Two lists are equal if they are as long and are equal at every place. -/
theorem equality_symmetric_reflexive :
    (∀ a b : Value, a.equal b = true ↔ b.equal a = true) ∧
    (∀ a : Value, a.equal a = true ↔ ¬ a.HasNumber (·.isNaN = true)) ∧
    ∀ as bs : List Value, (list as).equal (list bs) = true ↔ as.length = bs.length ∧
      ∀ (i : Nat) (a b : Value), as[i]? = some a → bs[i]? = some b → a.equal b = true := by
  refine ⟨?_, fun a => equal_self_iff, fun as bs => equal_list_iff⟩
  intro a b
  rw [equal_comm]

/-- `(DEFINE F () nan)` -/
def answersNaN : Procedure Value :=
  ⟨0, "F", [], .number (.float (0.0 / 0.0))⟩

/-- A NaN two lists deep keeps a value from equalling itself; in the body of a procedure it does
not. -/
theorem equality_symmetric_reflexive_deepNaN :
    (list [.procedure answersNaN]).equal (list [.procedure answersNaN]) = true ∧
    ¬ (list [.list [answersNaN.body]]).equal (list [.list [answersNaN.body]]) = true ∧
    ¬ (list [.procedure answersNaN]).equal (list [.procedure answersNaN, .null]) = true := by
  obtain ⟨_, hself, hlists⟩ := equality_symmetric_reflexive
  refine ⟨?_, ?_, ?_⟩
  · rw [hself, hasNumber_list]
    intro h
    obtain ⟨v, hv, h⟩ := h
    rw [List.mem_singleton.mp hv] at h
    cases h
  · rw [hself]
    intro h
    have hnan : answersNaN.body.HasNumber (·.isNaN = true) := .here (by decide +kernel)
    exact h (.element List.mem_cons_self (.element List.mem_cons_self hnan))
  · rw [hlists]
    intro h
    cases h.1

/-- At one place of their lists the outer two have integers that differ, and the one between them
has a float. -/
inductive Blurs : Value → Value → Value → Prop
  | here {m n : Int64} {x : Float} (h : m ≠ n) :
      Blurs (.number (.integer m)) (.number (.float x)) (.number (.integer n))
  | element {as bs cs : List Value} {i : Nat} {a b c : Value} (ha : as[i]? = some a)
      (hb : bs[i]? = some b) (hc : cs[i]? = some c) (h : Blurs a b c) :
      Blurs (.list as) (.list bs) (.list cs)

/-- A chain of two equalities is one, unless an integer is blurred. -/
theorem equal_chain {a b c : Value} (hab : a.equal b = true) (hbc : b.equal c = true) :
    a.equal c = true ∨ Blurs a b c := by
  induction a using elements_induction generalizing b c with
  | number k =>
      cases b with
      | number m =>
          cases c with
          | number n =>
              rw [equal] at hab hbc ⊢
              rcases Number.equal_chain hab hbc with hac | ⟨m, x, n, rfl, rfl, rfl, hne⟩
              · exact Or.inl hac
              · exact Or.inr (.here hne)
          | _ => simp [equal] at hbc
      | _ => simp [equal] at hab
  | symbol name =>
      cases b with
      | symbol other =>
          rw [equal, beq_iff_eq] at hab
          exact Or.inl (hab ▸ hbc)
      | _ => simp [equal] at hab
  | list as ih =>
      cases b with
      | list bs =>
          cases c with
          | list cs =>
              by_cases hblurs : ∃ (i : Nat) (a b c : Value),
                  as[i]? = some a ∧ bs[i]? = some b ∧ cs[i]? = some c ∧ Blurs a b c
              · obtain ⟨i, a, b, c, ha, hb, hc, h⟩ := hblurs
                exact Or.inr (.element ha hb hc h)
              · left
                rw [equal_list_iff] at hab hbc ⊢
                refine ⟨hab.1.trans hbc.1, ?_⟩
                intro i a c ha hc
                obtain ⟨hi, -⟩ := List.getElem?_eq_some_iff.mp ha
                have hb := List.getElem?_eq_getElem (hab.1 ▸ hi)
                have hmem := List.mem_of_getElem? ha
                rcases ih a hmem (hab.2 i a _ ha hb) (hbc.2 i _ c hb hc) with hac | hblur
                · exact hac
                · exact absurd ⟨i, a, _, c, ha, hb, hc, hblur⟩ hblurs
          | _ => simp [equal] at hbc
      | _ => simp [equal] at hab
  | primitive p =>
      cases b with
      | primitive q =>
          rw [equal, beq_iff_eq] at hab
          exact Or.inl (hab ▸ hbc)
      | _ => simp [equal] at hab
  | procedure p =>
      cases b with
      | procedure q =>
          cases c with
          | procedure r =>
              rw [equal, beq_iff_eq] at hab hbc ⊢
              exact Or.inl (hab.trans hbc)
          | _ => simp [equal] at hbc
      | _ => simp [equal] at hab

theorem Blurs.not_equal {a b c : Value} (h : Blurs a b c) : ¬ a.equal c = true := by
  induction h with
  | here hne =>
      rw [equal, Number.equal, beq_iff_eq]
      exact hne
  | element ha _ hc _ ih =>
      rw [equal_list_iff]
      intro h
      exact ih (h.2 _ _ _ ha hc)

theorem Blurs.isCoarse {a b c : Value} (h : Blurs a b c) (hab : a.equal b = true)
    (hbc : b.equal c = true) : a.HasNumber Number.IsCoarse ∧ c.HasNumber Number.IsCoarse := by
  induction h with
  | here hne =>
      rw [equal] at hab hbc
      obtain ⟨hm, hn⟩ := Number.isCoarse_of_equal hab hbc hne
      exact ⟨.here hm, .here hn⟩
  | element ha hb hc _ ih =>
      rw [equal_list_iff] at hab hbc
      obtain ⟨hleft, hright⟩ := ih (hab.2 _ _ _ ha hb) (hbc.2 _ _ _ hb hc)
      exact ⟨.element (List.mem_of_getElem? ha) hleft, .element (List.mem_of_getElem? hc) hright⟩

/-- Equality is transitive but for integers that differ and equal one float: a chain breaks where
there are such integers at one place, and these are coarse. -/
theorem equality_transitive_but_for_rounding {a b c : Value} (hab : a.equal b = true)
    (hbc : b.equal c = true) :
    (a.equal c = true ↔ ¬ Blurs a b c) ∧
    (Blurs a b c → a.HasNumber Number.IsCoarse ∧ c.HasNumber Number.IsCoarse) := by
  refine ⟨⟨?_, ?_⟩, fun h => h.isCoarse hab hbc⟩
  · intro hac h
    exact h.not_equal hac
  · intro h
    exact (equal_chain hab hbc).resolve_right h

/-- The integers `2 ^ 53` and `2 ^ 53 + 1`, and the float that both are rounded to. -/
def evenCoarse : Value :=
  .number (.integer 9007199254740992)

def oddCoarse : Value :=
  .number (.integer 9007199254740993)

def sharedFloat : Value :=
  .number (.float 9007199254740992.0)

/-- By way of the float, a list with the first integer leads back to itself; a list with the second
one leads to another list, and both have a coarse integer. -/
theorem equality_transitive_but_for_rounding_pair :
    (list [evenCoarse, .truth]).equal (list [sharedFloat, .truth]) = true ∧
    (list [sharedFloat, .truth]).equal (list [evenCoarse, .truth]) = true ∧
    ((list [evenCoarse, .truth]).equal (list [evenCoarse, .truth]) = true ↔
      ¬ Blurs (list [evenCoarse, .truth]) (list [sharedFloat, .truth])
        (list [evenCoarse, .truth])) ∧
    (list [oddCoarse, .truth]).equal (list [sharedFloat, .truth]) = true ∧
    ¬ (list [oddCoarse, .truth]).equal (list [evenCoarse, .truth]) = true ∧
    (list [oddCoarse, .truth]).HasNumber Number.IsCoarse ∧
    (list [evenCoarse, .truth]).HasNumber Number.IsCoarse := by
  have hodd : (list [oddCoarse, .truth]).equal (list [sharedFloat, .truth]) = true := by
    decide +kernel
  have heven : (list [evenCoarse, .truth]).equal (list [sharedFloat, .truth]) = true := by
    decide +kernel
  have hback : (list [sharedFloat, .truth]).equal (list [evenCoarse, .truth]) = true := by
    decide +kernel
  have hblurs : Blurs (list [oddCoarse, .truth]) (list [sharedFloat, .truth])
      (list [evenCoarse, .truth]) := .element (i := 0) rfl rfl rfl (.here (by decide))
  obtain ⟨hiff, hcoarse⟩ := equality_transitive_but_for_rounding hodd hback
  exact ⟨heven, hback, (equality_transitive_but_for_rounding heven hback).1, hodd,
    fun h => hiff.mp h hblurs, hcoarse hblurs⟩

/-- Two different integers equal one float, and there is no NaN among them. -/
theorem equality_not_transitive :
    (∀ v ∈ [oddCoarse, sharedFloat, evenCoarse], ¬ v.HasNumber (·.isNaN = true)) ∧
    oddCoarse.equal sharedFloat = true ∧ sharedFloat.equal evenCoarse = true ∧
    ¬ oddCoarse.equal evenCoarse = true := by
  have hself : ∀ v ∈ [oddCoarse, sharedFloat, evenCoarse], v.equal v = true := by
    simp only [List.forall_mem_cons]
    exact ⟨by decide +kernel, by decide +kernel, by decide +kernel, nofun⟩
  refine ⟨fun v hv => equal_self_iff.mp (hself v hv), ?_, ?_, ?_⟩
  · decide +kernel
  · decide +kernel
  · decide +kernel

end Value

end PocketLisp
