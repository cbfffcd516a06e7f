import PocketLisp.Proofs.Congruence

/-!
# What a run can do to a machine

A relation between the machine before and the machine after that every single effect respects is
respected by every run that ends, with a value or with a fault. The only thing said about the sink
is that it keeps what it holds.
-/

namespace PocketLisp

namespace Sink

/-- What the sink holds stays at the start of what it holds later. -/
def Grows (s s' : Sink) : Prop :=
  ∃ rest, s'.written = s.written ++ rest

theorem Grows.refl (s : Sink) : s.Grows s :=
  ⟨.empty, ByteArray.append_empty.symm⟩

theorem Grows.trans {s₁ s₂ s₃ : Sink} (h : s₁.Grows s₂) (h' : s₂.Grows s₃) : s₁.Grows s₃ := by
  obtain ⟨a, ha⟩ := h
  obtain ⟨b, hb⟩ := h'
  exact ⟨a ++ b, by rw [hb, ha, ByteArray.append_assoc]⟩

theorem grows_take (s : Sink) (bytes : ByteArray) (state : Nat) : s.Grows (s.take bytes state) :=
  ⟨bytes, rfl⟩

theorem grows_write (s : Sink) (text : String) : s.Grows (s.write text).2 := by
  unfold write put
  split
  · exact s.grows_take _ _
  · exact s.grows_take _ _

end Sink

namespace Operation

/-- All that an operation can do to a sink: nothing, or print its only argument. -/
theorem onArguments?_cases {op : Operation} {args : List Value}
    {action : Sink → Except Fault Value × Sink} (h : op.onArguments? args = some action) :
    (op ≠ .print ∧ ∃ r, action = fun s => (r, s)) ∨
      (op = .print ∧ ∃ x, args = [x] ∧ action = printLine x) := by
  unfold onArguments? at h
  split at h <;> cases h
  · exact Or.inl ⟨nofun, _, rfl⟩
  · exact Or.inl ⟨nofun, _, rfl⟩
  · exact Or.inl ⟨nofun, _, rfl⟩
  · exact Or.inr ⟨rfl, _, rfl, rfl⟩

/-- Nothing takes back what was printed. -/
theorem grows_onArguments? {op : Operation} {args : List Value}
    {action : Sink → Except Fault Value × Sink} (h : op.onArguments? args = some action)
    (s : Sink) : s.Grows (action s).2 := by
  rcases onArguments?_cases h with ⟨_, r, rfl⟩ | ⟨_, x, _, rfl⟩
  · exact .refl s
  · have hw := s.grows_write (x.text ++ "\n")
    unfold printLine
    generalize s.write (x.text ++ "\n") = out at hw ⊢
    rcases out with ⟨_ | _, s'⟩ <;> exact hw

end Operation

/-- Every answer of the run leaves a machine that stands in the relation to the one before. -/
def Run.Respects {α : Type} (R : Machine → Machine → Prop) (x : Run α) : Prop :=
  ∀ m r m', (x m).answer? = some (r, m') → R m m'

namespace Run.Respects

variable {α β : Type} {R : Machine → Machine → Prop}

theorem bind {x : Run α} {f : α → Run β} (hx : x.Respects R)
    (htrans : ∀ {m₁ m₂ m₃}, R m₁ m₂ → R m₂ m₃ → R m₁ m₃) (hf : ∀ a, (f a).Respects R) :
    (x >>= f).Respects R := by
  intro m r m'' hrun
  rcases Run.answer?_bind.mp hrun with ⟨a, m', ha, hb⟩ | ⟨fault, hfault, _⟩
  · exact htrans (hx m _ m' ha) (hf a m' r m'' hb)
  · exact hx m _ m'' hfault

theorem modify {f : Machine → Machine} (hf : ∀ m, R m (f m)) : (Run.modify f).Respects R := by
  intro m r m' hrun
  cases hrun
  exact hf m

variable (hrefl : ∀ m, R m m)

include hrefl

theorem gets (f : Machine → α) : (Run.gets f).Respects R := by
  intro m r m' hrun
  cases hrun
  exact hrefl m

theorem fail (fault : Fault) : (Run.fail fault : Run α).Respects R := by
  intro m r m' hrun
  cases hrun
  exact hrefl m

/-- A call respects the relation if its body does and leaving the frame keeps it. -/
theorem callProcedure {limits : Limits} {self : Value → Run Value} {p : Procedure Value}
    {args : List Value} (hbody : (self p.body).Respects R)
    (hcall : ∀ {m m'}, R (Evaluation.inCall p args m) m' → R m m'.pop) :
    (Evaluation.callProcedure limits self p args).Respects R := by
  intro m r m' hrun
  rcases Evaluation.answer?_callProcedure.mp hrun with
    ⟨_, _, rfl⟩ | ⟨_, _, _, _, rfl⟩ | ⟨_, _, n, hn, rfl⟩
  · exact hrefl _
  · exact hrefl _
  · exact hcall (hbody _ _ _ hn)

end Run.Respects

/-- The relation holds across every single effect, and across a call if it holds across the run of
the body in its frame. -/
structure Effects (R : Machine → Machine → Prop) : Prop where
  refl : ∀ m, R m m
  trans : ∀ {m₁ m₂ m₃}, R m₁ m₂ → R m₂ m₃ → R m₁ m₃
  record : ∀ m e, R m (m.record e)
  set : ∀ m name value, R m (m.set name value)
  define : ∀ m name parameters body, R m (m.define name parameters body)
  print : ∀ m s, m.sink.Grows s → R m (m.withSink s)
  frame : ∀ {m m' : Machine} {frame : Frame}, R (m.push frame) m' → R m m'.pop

namespace Effects

variable {R : Machine → Machine → Prop} (h : Effects R)

include h

theorem bind {α β : Type} {x : Run α} {f : α → Run β} (hx : x.Respects R)
    (hf : ∀ a, (f a).Respects R) : (x >>= f).Respects R :=
  hx.bind h.trans hf

theorem gets {α : Type} (f : Machine → α) : (Run.gets f).Respects R :=
  .gets h.refl f

theorem fail {α : Type} (fault : Fault) : (Run.fail fault : Run α).Respects R :=
  .fail h.refl fault

theorem callPrimitive (p : Primitive) (args : List Value) :
    (Evaluation.callPrimitive p args).Respects R := by
  intro m r m' hrun
  cases ho : p.operation.onArguments? args with
  | none =>
      rw [Evaluation.answer?_callPrimitive_none ho] at hrun
      cases hrun
      exact h.refl m
  | some action =>
      rw [Evaluation.answer?_callPrimitive ho] at hrun
      cases hrun
      exact h.trans (h.trans (h.record m _)
        (h.print _ _ (Operation.grows_onArguments? ho _))) (h.record _ _)

/-- A call respects the relation if the body does. -/
theorem callProcedure {limits : Limits} {self : Value → Run Value} {p : Procedure Value}
    (hbody : (self p.body).Respects R) (args : List Value) :
    (Evaluation.callProcedure limits self p args).Respects R :=
  .callProcedure h.refl hbody fun hin =>
    h.trans (h.trans (h.record _ _) (h.record _ _)) (h.frame hin)

/-- Respecting the relation is a property that every construct passes on. -/
def congruence (limits : Limits) : Congruence fun _ : Unit => limits where
  Holds X := (X ()).Respects R
  pure a := by
    intro m r m' hrun
    cases hrun
    exact h.refl m
  fail fault _ := h.fail fault
  bind hx hf := h.bind hx hf
  lookup name := h.gets _
  named name := h.gets _
  registry := h.gets _
  record e _ := .modify fun m => h.record m e
  assign name value := .modify fun m => h.set m name value
  register name parameters body := .modify fun m => h.define m name parameters body
  primitive p args := h.callPrimitive p args
  pass n hx := pass_of_fail (P := fun X => (X ()).Respects R) h.fail hx limits n
  policy name r hx := policy_of_fail (P := fun X => (X ()).Respects R) h.fail hx limits name r

theorem evaluate (limits : Limits) (fuel : Nat) (e : Value) :
    (PocketLisp.evaluate limits fuel e).Respects R := by
  apply (h.congruence limits).evaluate
  · intro m r m' hrun
    cases hrun
  · intro fuel p args hbody
    exact h.callProcedure hbody args

theorem evaluateSequence (limits : Limits) (fuel : Nat) (es : List Value) :
    (PocketLisp.evaluateSequence limits fuel es).Respects R := by
  have hes : ∀ e ∈ es, (h.congruence limits).Holds fun _ => PocketLisp.evaluate limits fuel e :=
    fun e _ => h.evaluate limits fuel e
  exact (h.congruence limits).evaluateAll hes

end Effects

end PocketLisp
