import PocketLisp.Proofs.Simulation

/-!
# Limits only cut runs short

Under tighter limits a run does what it does under looser ones until a limit ends it, if one does.
A limit is never read for any other purpose than to raise its own fault, and no construct catches
that fault and goes on.
-/

namespace PocketLisp

open Evaluation

namespace Limits

/-- The order of bounds: one that is absent is above every other. -/
def BoundLe : Option Nat → Option Nat → Prop
  | _, none => True
  | none, some _ => False
  | some a, some b => a ≤ b

/-- Bound by bound; to forbid redefinition is below allowing it. -/
instance : LE Limits where
  le tight loose :=
    BoundLe tight.maxIterations loose.maxIterations ∧ BoundLe tight.maxDepth loose.maxDepth ∧
      (tight.allowRedefinition = true → loose.allowRedefinition = true)

theorem exists_of_boundLe {a : Option Nat} {bound : Nat} (h : BoundLe a (some bound)) :
    ∃ b, a = some b ∧ b ≤ bound := by
  cases a with
  | none => exact h.elim
  | some b => exact ⟨b, rfl, h⟩

variable {tight loose : Limits}

theorem brokenByPass_eq_none_of_le (hle : tight ≤ loose) {pass : Nat}
    (h : tight.brokenByPass pass = none) : loose.brokenByPass pass = none := by
  rw [brokenByPass_eq_none] at h ⊢
  intro bound hbound
  obtain ⟨b, hb, hlt⟩ := exists_of_boundLe (hbound ▸ hle.1)
  have hpass := h b hb
  omega

theorem brokenByCall_eq_none_of_le (hle : tight ≤ loose) {depth : Nat}
    (h : tight.brokenByCall depth = none) : loose.brokenByCall depth = none := by
  rw [brokenByCall_eq_none] at h ⊢
  intro bound hbound
  obtain ⟨b, hb, hlt⟩ := exists_of_boundLe (hbound ▸ hle.2.1)
  have hdepth := h b hb
  omega

end Limits

/-- Whether a limit or the policy ended the run. -/
def cutShort {α : Type} : Except Fault α → Bool
  | .error fault => fault.isRestriction
  | .ok _ => false

theorem effects_grows : Effects fun m m' => m.sink.Grows m'.sink where
  refl m := .refl m.sink
  trans h h' := h.trans h'
  record m _ := .refl m.sink
  set m _ _ := .refl m.sink
  define m _ _ _ := .refl m.sink
  print _ _ h := h
  frame h := h

/-- The first run ends like the second, or is cut short with less printed. -/
structure Run.Restricts {α : Type} (x y : Run α) : Prop where
  same : ∀ {m r m'}, (x m).answer? = some (r, m') → cutShort r = false →
    (y m).answer? = some (r, m')
  shorter : ∀ {m r m' r₂ m₂}, (x m).answer? = some (r, m') → cutShort r = true →
    (y m).answer? = some (r₂, m₂) → m'.sink.Grows m₂.sink
  grows : y.Respects fun m m' => m.sink.Grows m'.sink

namespace Run.Restricts

variable {α β : Type}

theorem refl {x : Run α} (h : x.Respects fun m m' => m.sink.Grows m'.sink) : x.Restricts x where
  same hrun _ := hrun
  shorter hrun _ hrun₂ := by
    cases Option.some.inj (hrun.symm.trans hrun₂)
    exact .refl _
  grows := h

/-- A run that a limit ends at once is shorter than any other. -/
theorem of_restriction {fault : Fault} (hf : fault.isRestriction = true) {y : Run α}
    (h : y.Respects fun m m' => m.sink.Grows m'.sink) : (Run.fail fault).Restricts y where
  same hrun hcut := by
    cases hrun
    rw [cutShort, hf] at hcut
    cases hcut
  shorter hrun _ hrun₂ := by
    cases hrun
    exact h _ _ _ hrun₂
  grows := h

theorem bind {x y : Run α} {f g : α → Run β} (hx : x.Restricts y)
    (hf : ∀ a, (f a).Restricts (g a)) : (x >>= f).Restricts (y >>= g) where
  same hrun hcut := by
    rcases Run.answer?_bind.mp hrun with ⟨a, m', ha, hb⟩ | ⟨fault, hfault, rfl⟩
    · exact Run.answer?_bind.mpr (Or.inl ⟨a, m', hx.same ha rfl, (hf a).same hb hcut⟩)
    · exact Run.answer?_bind.mpr (Or.inr ⟨fault, hx.same hfault hcut, rfl⟩)
  shorter hrun hcut hrun₂ := by
    rcases Run.answer?_bind.mp hrun with ⟨a, m', ha, hb⟩ | ⟨fault, hfault, rfl⟩
    · have hy := hx.same ha rfl
      rcases Run.answer?_bind.mp hrun₂ with ⟨a₂, n, ha₂, hb₂⟩ | ⟨fault, hfault, _⟩
      · cases Option.some.inj (hy.symm.trans ha₂)
        exact (hf a).shorter hb hcut hb₂
      · cases Option.some.inj (hy.symm.trans hfault)
    · rcases Run.answer?_bind.mp hrun₂ with ⟨a₂, n, ha₂, hb₂⟩ | ⟨fault₂, hfault₂, _⟩
      · exact (hx.shorter hfault hcut ha₂).trans ((hf a₂).grows _ _ _ hb₂)
      · exact hx.shorter hfault hcut hfault₂
  grows := effects_grows.bind hx.grows fun a => (hf a).grows

end Run.Restricts

section Comparison

variable {tight loose : Limits}

theorem restricts_pass (hle : tight ≤ loose) {x y : Run Value} (h : x.Restricts y) (n : Nat) :
    Run.Restricts
      (match tight.brokenByPass n with
        | some limit => Run.fail (.iterationLimit limit)
        | none => x)
      (match loose.brokenByPass n with
        | some limit => Run.fail (.iterationLimit limit)
        | none => y) := by
  cases ht : tight.brokenByPass n with
  | none =>
      rw [Limits.brokenByPass_eq_none_of_le hle ht]
      exact h
  | some limit =>
      apply Run.Restricts.of_restriction rfl
      cases loose.brokenByPass n with
      | none => exact h.grows
      | some limit' => exact effects_grows.fail _

theorem restricts_policy (hle : tight ≤ loose) {x y : Run Value} (h : x.Restricts y)
    (name : Symbol) (registry : Registry) :
    Run.Restricts
      (if registry.contains name && !tight.allowRedefinition then Run.fail (.redefinition name)
        else x)
      (if registry.contains name && !loose.allowRedefinition then Run.fail (.redefinition name)
        else y) := by
  have hgrows : Run.Respects (fun m m' => m.sink.Grows m'.sink)
      (if registry.contains name && !loose.allowRedefinition then Run.fail (.redefinition name)
        else y) := by
    split
    · exact effects_grows.fail _
    · exact h.grows
  by_cases ht : (registry.contains name && !tight.allowRedefinition) = true
  · rw [if_pos ht]
    exact .of_restriction rfl hgrows
  · have hl : ¬(registry.contains name && !loose.allowRedefinition) = true := by
      intro hl
      rw [Bool.and_eq_true, Bool.not_eq_true'] at ht hl
      refine ht ⟨hl.1, ?_⟩
      cases ha : tight.allowRedefinition with
      | false => rfl
      | true => exact absurd (hle.2.2 ha) (by rw [hl.2]; decide)
    rw [if_neg ht, if_neg hl]
    exact h

/-- Being cut short at most is a property that every construct passes on. -/
def restriction (hle : tight ≤ loose) : Congruence (Side.pick tight loose) where
  Holds X := (X .first).Restricts (X .second)
  pure a := .refl ((effects_grows.congruence loose).pure a)
  fail fault _ := .refl (effects_grows.fail fault)
  bind hx hf := hx.bind hf
  lookup _ := .refl (effects_grows.gets _)
  named _ := .refl (effects_grows.gets _)
  registry := .refl (effects_grows.gets _)
  record e he := .refl ((effects_grows.congruence loose).record e he)
  assign name value := .refl ((effects_grows.congruence loose).assign name value)
  register name parameters body :=
    .refl ((effects_grows.congruence loose).register name parameters body)
  primitive p args := .refl (effects_grows.callPrimitive p args)
  pass n h := restricts_pass hle h n
  policy name registry h := restricts_policy hle h name registry

theorem restricts_call (hle : tight ≤ loose) {fuel : Nat} {p : Procedure Value}
    (hbody : (evaluate tight fuel p.body).Restricts (evaluate loose fuel p.body))
    (args : List Value) : (call tight fuel p args).Restricts (call loose fuel p args) where
  same hrun hcut := by
    rcases answer?_callProcedure.mp hrun with hcount | ⟨_, _, _, rfl, _⟩ | ⟨hl, hb, n, hn, rfl⟩
    · exact answer?_callProcedure.mpr (Or.inl hcount)
    · cases hcut
    · have hb' := Limits.brokenByCall_eq_none_of_le hle hb
      exact answer?_callProcedure.mpr
        (Or.inr (Or.inr ⟨hl, hb', n, hbody.same hn hcut, rfl⟩))
  shorter hrun hcut hrun₂ := by
    rcases answer?_callProcedure.mp hrun with
      ⟨_, rfl, _⟩ | ⟨_, _, _, _, rfl⟩ | ⟨hl, hb, n, hn, rfl⟩
    · cases hcut
    · exact effects_grows.callProcedure hbody.grows args _ _ _ hrun₂
    · rcases answer?_callProcedure.mp hrun₂ with
        ⟨hne, _⟩ | ⟨_, limit, hb₂, _⟩ | ⟨_, _, n₂, hn₂, rfl⟩
      · exact absurd hl hne
      · rw [Limits.brokenByCall_eq_none_of_le hle hb] at hb₂
        cases hb₂
      · have hgrows := hbody.shorter hn hcut hn₂
        exact hgrows
  grows := effects_grows.callProcedure hbody.grows args

theorem restricts_evaluate (hle : tight ≤ loose) (fuel : Nat) (e : Value) :
    (evaluate tight fuel e).Restricts (evaluate loose fuel e) := by
  apply (restriction hle).evaluate
  · exact .refl fun _ _ _ hrun => by cases hrun
  · intro fuel p args hbody
    exact restricts_call hle hbody args

/-- An answer that no limit forced is the answer under all looser limits, with the same machine
left behind; and whatever is printed under tighter limits is printed first under looser ones. -/
theorem limits_only_cut_short (hle : tight ≤ loose) {e : Value} {m m₁ : Machine}
    {r : Except Fault Value} (h : Finishes (evaluate tight · e) m r m₁) :
    (cutShort r = false → Finishes (evaluate loose · e) m r m₁) ∧
    ∀ r₂ m₂, Finishes (evaluate loose · e) m r₂ m₂ → m₁.sink.Grows m₂.sink := by
  have hsame : cutShort r = false → Finishes (evaluate loose · e) m r m₁ := by
    intro hcut
    obtain ⟨n, hn⟩ := h
    exact ⟨n, (restricts_evaluate hle n e).same hn hcut⟩
  refine ⟨hsame, ?_⟩
  intro r₂ m₂ h₂
  cases hcut : cutShort r with
  | false =>
      obtain ⟨-, rfl⟩ := (steady_evaluate loose e).finishes_unique (hsame hcut) h₂
      exact .refl _
  | true =>
      obtain ⟨n₁, hn₁⟩ := h
      obtain ⟨n₂, hn₂⟩ := h₂
      have e₁ := (steady_evaluate tight e).answer? (Nat.le_max_left n₁ n₂) hn₁
      have e₂ := (steady_evaluate loose e).answer? (Nat.le_max_right n₁ n₂) hn₂
      exact (restricts_evaluate hle (max n₁ n₂) e).shorter e₁ hcut e₂

end Comparison

/-- `(WHILE (T) (PRINT (T)))` -/
def printingLoop : Value :=
  .list [.symbol "WHILE", .list [.symbol "T"], .list [.symbol "PRINT", .list [.symbol "T"]]]

/-- `(DEFINE F () (T))` -/
def definition : Value :=
  .list [.symbol "DEFINE", .symbol "F", .list [], .list [.symbol "T"]]

/-- The loop is stopped after one line or after two, and the first of them is the same; a first
definition is no redefinition, so nothing stops it. -/
theorem limits_only_cut_short_printingLoop :
    (∃ m₁ m₂,
      Finishes (evaluate ⟨some 1, some 256, true⟩ · printingLoop) ⟨.empty, .empty, {}, {}⟩
        (.error (.iterationLimit 1)) m₁ ∧
      Finishes (evaluate ⟨some 2, none, true⟩ · printingLoop) ⟨.empty, .empty, {}, {}⟩
        (.error (.iterationLimit 2)) m₂ ∧
      m₁.sink.written = "t\n".toUTF8 ∧ m₁.sink.Grows m₂.sink) ∧
    ∃ m', Finishes (evaluate ⟨none, none, true⟩ · definition) ⟨.empty, .empty, {}, {}⟩
      (.ok (.symbol "F")) m' ∧ m'.registry.contains "F" := by
  refine ⟨?_, ?_⟩
  · have h₁ : Finishes (evaluate ⟨some 1, some 256, true⟩ · printingLoop)
        ⟨.empty, .empty, {}, {}⟩ (.error (.iterationLimit 1))
        ⟨.empty, .empty, { written := "t\n".toUTF8 }, {}⟩ := ⟨4, rfl⟩
    have h₂ : Finishes (evaluate ⟨some 2, none, true⟩ · printingLoop)
        ⟨.empty, .empty, {}, {}⟩ (.error (.iterationLimit 2))
        ⟨.empty, .empty, { written := "t\nt\n".toUTF8 }, {}⟩ := ⟨4, rfl⟩
    have hle : (⟨some 1, some 256, true⟩ : Limits) ≤ ⟨some 2, none, true⟩ :=
      ⟨Nat.le_succ 1, trivial, id⟩
    exact ⟨_, _, h₁, h₂, rfl, (limits_only_cut_short hle h₁).2 _ _ h₂⟩
  · have h₁ : Finishes (evaluate ⟨some 0, some 0, false⟩ · definition)
        ⟨.empty, .empty, {}, {}⟩ (.ok (.symbol "F"))
        ⟨.empty, Registry.empty.define "F" [] (.list [.symbol "T"]), {}, {}⟩ := ⟨1, rfl⟩
    have hle : (⟨some 0, some 0, false⟩ : Limits) ≤ ⟨none, none, true⟩ :=
      ⟨trivial, trivial, fun h => absurd h Bool.false_ne_true⟩
    exact ⟨_, (limits_only_cut_short hle h₁).1 rfl, rfl⟩

end PocketLisp
