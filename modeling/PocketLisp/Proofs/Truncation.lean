import PocketLisp.Proofs.Journals
import PocketLisp.Proofs.Printing

/-!
# Sinks with little room

A sink that takes a number of bytes only makes no difference to a run that writes no more than that.
A run that writes more is cut at exactly that byte: the fault of the full sink passes through every
construct of the language without anything else being written. What a run would write to a sink
without a limit is told by its journal.
-/

namespace PocketLisp

open Evaluation

/-- Cutting behind the first part cuts the second. -/
theorem extract_append_of_size_le {a : ByteArray} {c : Nat} (h : a.size ≤ c) (b : ByteArray) :
    (a ++ b).extract 0 c = a ++ b.extract 0 (c - a.size) := by
  have hfirst : a.extract 0 c = a := by
    apply ByteArray.ext
    simp [Array.extract_eq_self_of_le, h]
  rw [ByteArray.extract_append, hfirst, Nat.zero_sub]

namespace Sink

/-- The sink with room for `c` bytes in total. -/
def withCapacity (s : Sink) (c : Nat) : Sink :=
  { s with device := s.device.limited c }

theorem Grows.size_le {s s' : Sink} (h : s.Grows s') : s.written.size ≤ s'.written.size := by
  obtain ⟨rest, hrest⟩ := h
  rw [hrest, ByteArray.size_append]
  exact Nat.le_add_right _ _

/-- What is written later does not show among the bytes that were there. -/
theorem Grows.extract {s s' : Sink} (h : s.Grows s') {c : Nat} (hc : c ≤ s.written.size) :
    s'.written.extract 0 c = s.written.extract 0 c := by
  obtain ⟨rest, hrest⟩ := h
  have hnone : rest.extract (0 - s.written.size) (c - s.written.size) = .empty :=
    ByteArray.extract_eq_empty_iff.mpr (by omega)
  rw [hrest, ByteArray.extract_append, hnone, ByteArray.append_empty]

/-- How a use of the sink compares with the same use when only `c` bytes are taken. -/
structure Cut (c : Nat) (action : Sink → Except Fault Value × Sink) (s : Sink) : Prop where
  unlimited : (action s).2.device.Unlimited
  fits : (action s).2.written.size ≤ c →
    action (s.withCapacity c) = ((action s).1, (action s).2.withCapacity c)
  full : s.written.size ≤ c → c < (action s).2.written.size →
    ∃ s', action (s.withCapacity c) = (.error (.output .full), s') ∧
      s'.written = (action s).2.written.extract 0 c

theorem put_of_room {s : Sink} {bytes : ByteArray} {c : Nat}
    (hfits : s.written.size + bytes.size ≤ c) (hs : s.device.Unlimited) :
    (s.withCapacity c).put bytes =
      (.ok (), (s.take bytes (s.device.receive s.state s.written bytes).2).withCapacity c) := by
  have hreceived : (s.withCapacity c).device.receive s.state s.written bytes =
      s.device.receive s.state s.written bytes := if_pos hfits
  have hwhole := hs s.state s.written bytes
  unfold put
  rw [show (s.withCapacity c).state = s.state from rfl,
    show (s.withCapacity c).written = s.written from rfl, hreceived]
  generalize s.device.receive s.state s.written bytes = received at hwhole ⊢
  obtain ⟨reception, state⟩ := received
  obtain rfl : reception = .whole := hwhole
  rfl

/-- Of bytes that do not fit, the sink keeps just those that do. -/
theorem put_of_full {s : Sink} {bytes : ByteArray} {c : Nat} (hsize : s.written.size ≤ c)
    (hfull : c < s.written.size + bytes.size) :
    ∃ s', (s.withCapacity c).put bytes = (.error .full, s') ∧
      s'.written = (s.written ++ bytes).extract 0 c := by
  have hreceived : (s.withCapacity c).device.receive s.state s.written bytes =
      (.cut (c - s.written.size) .full, s.state) := if_neg (by omega)
  refine ⟨(s.withCapacity c).take (bytes.extract 0 (c - s.written.size)) s.state, ?_, ?_⟩
  · unfold put
    rw [show (s.withCapacity c).state = s.state from rfl,
      show (s.withCapacity c).written = s.written from rfl, hreceived]
  · exact (extract_append_of_size_le hsize _).symm

theorem cut_printLine (c : Nat) (x : Value) {s : Sink} (hs : s.device.Unlimited) :
    Cut c (Operation.printLine x) s := by
  have hprint := Operation.printLine_of_unlimited hs x
  have hsize : (Operation.printLine x s).2.written.size =
      s.written.size + (x.text ++ "\n").toUTF8.size := by
    rw [hprint]
    exact ByteArray.size_append
  constructor
  · rw [hprint]
    exact hs
  · rw [hsize, hprint]
    intro hfits
    simp only [Operation.printLine, write, put_of_room hfits hs]
  · rw [hsize, hprint]
    intro hsize hfull
    obtain ⟨s', hput, hs'⟩ := put_of_full hsize hfull
    refine ⟨s', ?_, hs'⟩
    simp only [Operation.printLine, write, hput]

end Sink

theorem Operation.cut_onArguments? {op : Operation} {args : List Value}
    {action : Sink → Except Fault Value × Sink} (h : op.onArguments? args = some action) (c : Nat)
    {s : Sink} (hs : s.device.Unlimited) : s.Cut c action := by
  rcases onArguments?_cases h with ⟨_, r, rfl⟩ | ⟨_, x, _, rfl⟩
  · exact ⟨hs, fun _ => rfl, fun hsize hfull => absurd hfull (Nat.not_lt.mpr hsize)⟩
  · exact Sink.cut_printLine c x hs

/-- The machine with a sink that takes `c` bytes in total. -/
def Machine.withCapacity (m : Machine) (c : Nat) : Machine :=
  m.withSink (m.sink.withCapacity c)

/-- How an answer compares with that of the same run when only `c` bytes are taken: they are the
same if all that was written fits, else the sink is full, with the first `c` bytes in it. -/
structure Run.Cut {α : Type} (c : Nat) (x : Run α) (m : Machine) (r : Except Fault α)
    (m' : Machine) : Prop where
  unlimited : m'.sink.device.Unlimited
  grows : m.sink.Grows m'.sink
  fits : m'.sink.written.size ≤ c →
    (x (m.withCapacity c)).answer? = some (r, m'.withCapacity c)
  full : m.sink.written.size ≤ c → c < m'.sink.written.size →
    ∃ n, (x (m.withCapacity c)).answer? = some (.error (.output .full), n) ∧
      n.sink.written = m'.sink.written.extract 0 c

def Run.Cuts {α : Type} (c : Nat) (x : Run α) : Prop :=
  ∀ m r m', m.sink.device.Unlimited → (x m).answer? = some (r, m') → x.Cut c m r m'

namespace Run.Cuts

variable {α β : Type} {c : Nat}

/-- An answer that leaves the sink alone is not cut, if the capacity makes no difference to it. -/
theorem quiet {x : Run α} {m m' : Machine} {r : Except Fault α} (hm : m.sink.device.Unlimited)
    (hsink : m'.sink = m.sink)
    (hsame : (x (m.withCapacity c)).answer? = some (r, m'.withCapacity c)) : x.Cut c m r m' := by
  refine ⟨hsink ▸ hm, hsink ▸ .refl _, fun _ => hsame, ?_⟩
  rw [hsink]
  exact fun hsize hfull => absurd hfull (Nat.not_lt.mpr hsize)

theorem gets {f : Machine → α} (hf : ∀ m, f (m.withCapacity c) = f m) :
    (Run.gets f).Cuts c := by
  intro m r m' hm hrun
  cases hrun
  exact quiet hm rfl (by rw [Run.answer?_gets, hf])

theorem fail (fault : Fault) : (Run.fail fault : Run α).Cuts c := by
  intro m r m' hm hrun
  cases hrun
  exact quiet hm rfl rfl

theorem modify {f : Machine → Machine} (hsink : ∀ m, (f m).sink = m.sink)
    (hf : ∀ m, f (m.withCapacity c) = (f m).withCapacity c) : (Run.modify f).Cuts c := by
  intro m r m' hm hrun
  cases hrun
  apply quiet hm (hsink m)
  show some (_, f (m.withCapacity c)) = _
  rw [hf]

/-- The second run starts where the first was not cut. -/
theorem bind {x : Run α} {f : α → Run β} (hx : x.Cuts c) (hf : ∀ a, (f a).Cuts c) :
    (x >>= f).Cuts c := by
  intro m r m'' hm hrun
  rcases Run.answer?_bind.mp hrun with ⟨a, m', ha, hb⟩ | ⟨fault, hfault, rfl⟩
  · have h₁ := hx m _ m' hm ha
    have h₂ := hf a m' r m'' h₁.unlimited hb
    refine ⟨h₂.unlimited, h₁.grows.trans h₂.grows, ?_, ?_⟩
    · intro hfits
      exact Run.answer?_bind.mpr (Or.inl ⟨a, m'.withCapacity c,
        h₁.fits (Nat.le_trans h₂.grows.size_le hfits), h₂.fits hfits⟩)
    · intro hsize hfull
      rcases Nat.lt_or_ge c m'.sink.written.size with hcut | hroom
      · obtain ⟨n, hn, hwritten⟩ := h₁.full hsize hcut
        refine ⟨n, Run.answer?_bind.mpr (Or.inr ⟨_, hn, rfl⟩), ?_⟩
        rw [hwritten, h₂.grows.extract (Nat.le_of_lt hcut)]
      · obtain ⟨n, hn, hwritten⟩ := h₂.full hroom hfull
        exact ⟨n, Run.answer?_bind.mpr (Or.inl ⟨a, _, h₁.fits hroom, hn⟩), hwritten⟩
  · have h := hx m _ m'' hm hfault
    refine ⟨h.unlimited, h.grows, ?_, ?_⟩
    · intro hfits
      exact Run.answer?_bind.mpr (Or.inr ⟨fault, h.fits hfits, rfl⟩)
    · intro hsize hfull
      obtain ⟨n, hn, hwritten⟩ := h.full hsize hfull
      exact ⟨n, Run.answer?_bind.mpr (Or.inr ⟨_, hn, rfl⟩), hwritten⟩

theorem callPrimitive (p : Primitive) (args : List Value) :
    (Evaluation.callPrimitive p args).Cuts c := by
  intro m r m' hm hrun
  cases ho : p.operation.onArguments? args with
  | none =>
      rw [answer?_callPrimitive_none ho] at hrun
      cases hrun
      exact quiet hm rfl (answer?_callPrimitive_none ho _)
  | some action =>
      have hcut := Operation.cut_onArguments? ho c hm
      have hlimited := answer?_callPrimitive ho (m.withCapacity c)
      rw [show (m.withCapacity c).sink = m.sink.withCapacity c from rfl] at hlimited
      rw [answer?_callPrimitive ho] at hrun
      cases hrun
      refine ⟨hcut.unlimited, Operation.grows_onArguments? ho _, ?_, ?_⟩
      · intro hfits
        rw [hlimited, hcut.fits hfits]
        rfl
      · intro hsize hfull
        obtain ⟨s', hs', hwritten⟩ := hcut.full hsize hfull
        rw [hs'] at hlimited
        exact ⟨_, hlimited, hwritten⟩

/-- The frame of a call is dropped after the fault of the full sink as after any answer. -/
theorem callProcedure {limits : Limits} {self : Value → Run Value} {p : Procedure Value}
    (hbody : (self p.body).Cuts c) (args : List Value) :
    (Evaluation.callProcedure limits self p args).Cuts c := by
  intro m r m' hm hrun
  rcases answer?_callProcedure.mp hrun with
    ⟨hl, rfl, rfl⟩ | ⟨hl, limit, hb, rfl, rfl⟩ | ⟨hl, hb, n, hn, rfl⟩
  · exact quiet hm rfl (answer?_callProcedure.mpr (Or.inl ⟨hl, rfl, rfl⟩))
  · exact quiet hm rfl (answer?_callProcedure.mpr (Or.inr (Or.inl ⟨hl, limit, hb, rfl, rfl⟩)))
  · have hin := hbody (inCall p args m) r n hm hn
    refine ⟨hin.unlimited, hin.grows, ?_, ?_⟩
    · intro hfits
      exact answer?_callProcedure.mpr (Or.inr (Or.inr ⟨hl, hb, _, hin.fits hfits, rfl⟩))
    · intro hsize hfull
      obtain ⟨k, hk, hwritten⟩ := hin.full hsize hfull
      exact ⟨k.pop, answer?_callProcedure.mpr (Or.inr (Or.inr ⟨hl, hb, k, hk, rfl⟩)), hwritten⟩

/-- Being cut at a byte is a property that every construct passes on. -/
def congruence (limits : Limits) (c : Nat) : Congruence fun _ : Unit => limits where
  Holds X := (X ()).Cuts c
  pure _ := gets fun _ => rfl
  fail fault _ := fail fault
  bind hx hf := hx.bind hf
  lookup _ := gets fun _ => rfl
  named _ := gets fun _ => rfl
  registry := gets fun _ => rfl
  record _ _ := modify (fun _ => rfl) fun _ => rfl
  assign _ _ := modify (fun _ => rfl) fun _ => rfl
  register _ _ _ := modify (fun _ => rfl) fun _ => rfl
  primitive p args := callPrimitive p args
  pass n hx := pass_of_fail (P := fun X => (X ()).Cuts c) fail hx limits n
  policy name r hx := policy_of_fail (P := fun X => (X ()).Cuts c) fail hx limits name r

end Run.Cuts

theorem cuts_evaluate (limits : Limits) (c fuel : Nat) (e : Value) :
    (evaluate limits fuel e).Cuts c := by
  apply (Run.Cuts.congruence limits c).evaluate
  · intro m r m' _ hrun
    cases hrun
  · intro fuel p args hbody
    exact hbody.callProcedure args

/-- The machine with room for `n` more bytes in its sink. -/
def Machine.withRoom (m : Machine) (n : Nat) : Machine :=
  m.withCapacity (m.sink.written.size + n)

/-- An evaluation that would write the bytes `o` ends in the same way if there is room for them.
With room for fewer, it ends with the fault of the full sink as soon as the bytes that fit are
written, and leaves as many calls in progress as it found. The bytes are the lines that a journal
tells of, in its order. -/
theorem full_sink_truncates {limits : Limits} {e : Value} {m m₁ : Machine} {r : Except Fault Value}
    (hunlimited : m.sink.device.Unlimited) (hrun : Finishes (evaluate limits · e) m r m₁) :
    ∃ o : ByteArray, m₁.sink.written = m.sink.written ++ o ∧
      (∀ n, o.size ≤ n →
        Finishes (evaluate limits · e) (m.withRoom n) r (m₁.withRoom (n - o.size))) ∧
      (∀ n, n < o.size → ∃ m₂,
        Finishes (evaluate limits · e) (m.withRoom n) (.error (.output .full)) m₂ ∧
        m₂.sink.written = m.sink.written ++ o.extract 0 n ∧ m₂.depth = m.depth) ∧
      ∃ m₂, Finishes (evaluate limits · e) m.withJournal r m₂ ∧ m₂.Twin m₁ ∧
        o = (linesOf (printed m₂.journal.events.toList)).toUTF8 := by
  obtain ⟨fuel, hrun⟩ := hrun
  obtain ⟨m₂, hjournal, htwin⟩ :=
    twin_evaluate limits fuel e m m.withJournal r m₁ m.twin_withJournal hrun
  obtain ⟨es, htold⟩ := tells_evaluate limits fuel e _ r m₂ hjournal ⟨rfl, hunlimited⟩
  have hevents : m₂.journal.events.toList = es := htold.events
  have hwritten : m₁.sink.written = m.sink.written ++ (linesOf (printed es)).toUTF8 := by
    rw [htwin.sink]
    exact htold.written
  have hsize := congrArg ByteArray.size hwritten
  rw [ByteArray.size_append] at hsize
  refine ⟨(linesOf (printed es)).toUTF8, hwritten, ?_, ?_, m₂, ⟨fuel, hjournal⟩, htwin.symm, ?_⟩
  · intro n hn
    have hcut := cuts_evaluate limits (m.sink.written.size + n) fuel e m r m₁ hunlimited hrun
    have hroom : m₁.withRoom (n - (linesOf (printed es)).toUTF8.size) =
        m₁.withCapacity (m.sink.written.size + n) := by
      unfold Machine.withRoom
      congr 1
      omega
    rw [hroom]
    exact ⟨fuel, hcut.fits (by omega)⟩
  · intro n hn
    have hcut := cuts_evaluate limits (m.sink.written.size + n) fuel e m r m₁ hunlimited hrun
    obtain ⟨m₃, hfull, hfirst⟩ := hcut.full (Nat.le_add_right _ n) (by omega)
    have hkept := effects_kept.evaluate limits fuel e _ _ _ hfull
    refine ⟨m₃, ⟨fuel, hfull⟩, ?_, hkept.depth⟩
    rw [hfirst, hwritten, extract_append_of_size_le (Nat.le_add_right _ n), Nat.add_sub_cancel_left]
  · rw [hevents]

/-- `SHOW` prints its parameter. -/
def showing : Machine :=
  ⟨⟨⟨[("T", .truth)]⟩, []⟩,
    ⟨⟨[("SHOW", ⟨0, "SHOW", ["X"], .list [.symbol "PRINT", .symbol "X"]⟩)]⟩, 1⟩, {}, {}⟩

/-- `(BEGIN (SHOW T) (SHOW ()))` -/
def showTwice : Value :=
  .list [.symbol "BEGIN", .list [.symbol "SHOW", .symbol "T"], .list [.symbol "SHOW", .null]]

/-- Two lines of five bytes are printed. With room for three bytes, the second line is cut in the
middle, inside of the second call. -/
theorem full_sink_truncates_secondCall :
    showing.sink.device.Unlimited ∧
    Finishes (evaluate {} · showTwice) showing (.ok .null)
      (showing.withSink { written := "t\n()\n".toUTF8 }) ∧
    ∃ m₂, Finishes (evaluate {} · showTwice) (showing.withRoom 3) (.error (.output .full)) m₂ ∧
      m₂.sink.written = "t\n(".toUTF8 ∧ m₂.depth = 0 := by
  have hrun : Finishes (evaluate {} · showTwice) showing (.ok .null)
      (showing.withSink { written := "t\n()\n".toUTF8 }) := ⟨5, rfl⟩
  have hunlimited : showing.sink.device.Unlimited := fun _ _ _ => rfl
  obtain ⟨o, ho, -, hcut, -⟩ := full_sink_truncates hunlimited hrun
  have hbytes : "t\n()\n".toUTF8 = o := by
    rw [← ByteArray.empty_append (b := o)]
    exact ho
  subst hbytes
  obtain ⟨m₂, hfull, hwritten, hdepth⟩ := hcut 3 (by decide)
  exact ⟨hunlimited, hrun, m₂, hfull, hwritten, hdepth⟩

end PocketLisp
