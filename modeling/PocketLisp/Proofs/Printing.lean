import PocketLisp.Proofs.Effects

/-!
# What is printed

A journal that is kept tells what was printed: the primitive that prints is called with a value, and
the very next event is its return. A procedure that happens to have the name of the primitive is
entered instead. Main statement: into a sink that takes everything, an evaluation writes the texts
of the values that its events tell of, one a line and in the order of the events, and nothing else.
-/

namespace PocketLisp

open Evaluation

/-- What two neighbouring events tell of. -/
def printedBetween : Event → Event → List Value
  | .calling _ [v], .callReturned callee _ => if callee = Primitive.print.name then [v] else []
  | _, _ => []

/-- The values printed, in order. -/
def printed : List Event → List Value
  | e :: e' :: es => printedBetween e e' ++ printed (e' :: es)
  | _ => []

/-- Every value on a line of its own. -/
def linesOf (vs : List Value) : String :=
  String.join (vs.map fun v => v.text ++ "\n")

theorem toUTF8_linesOf_nil : (linesOf []).toUTF8 = .empty := rfl

theorem toUTF8_linesOf_append (vs ws : List Value) :
    (linesOf (vs ++ ws)).toUTF8 = (linesOf vs).toUTF8 ++ (linesOf ws).toUTF8 := by
  simp only [linesOf, List.map_append, String.join_append, String.toUTF8_eq_toByteArray,
    String.toByteArray_append]

def Event.isReturn : Event → Bool
  | .callReturned _ _ => true
  | _ => false

/-- The events can stand after any others without telling more together with them. -/
def Opening (es : List Event) : Prop :=
  ∀ e ∈ es.head?, e.isReturn = false

theorem Opening.append {es es' : List Event} (h : Opening es) (h' : Opening es') :
    Opening (es ++ es') := by
  cases es with
  | nil => exact h'
  | cons e es => exact h

theorem printedBetween_of_isReturn (e : Event) {e' : Event} (h : e'.isReturn = false) :
    printedBetween e e' = [] := by
  unfold printedBetween
  split
  · cases h
  · rfl

theorem printed_append (es : List Event) {es' : List Event} (h : Opening es') :
    printed (es ++ es') = printed es ++ printed es' := by
  induction es with
  | nil => rfl
  | cons e es ih =>
      cases es with
      | nil =>
          cases es' with
          | nil => rfl
          | cons e' es' =>
              show printedBetween e e' ++ printed (e' :: es') = printed (e' :: es')
              rw [printedBetween_of_isReturn e (h e' rfl), List.nil_append]
      | cons e₁ es =>
          show printedBetween e e₁ ++ printed (e₁ :: es ++ es') = _
          rw [ih, ← List.append_assoc]
          rfl

/-- Everything that happens to the machine shows: its journal is kept, and its sink takes all. -/
structure Machine.Followed (m : Machine) : Prop where
  kept : m.journal.kept = true
  unlimited : m.sink.device.Unlimited

/-- The events added on the way from one machine to the other tell what was written on it. -/
structure Machine.Told (m m' : Machine) (es : List Event) : Prop where
  followed : m'.Followed
  events : m'.journal.events.toList = m.journal.events.toList ++ es
  opening : Opening es
  written : m'.sink.written = m.sink.written ++ (linesOf (printed es)).toUTF8

/-- If everything shows, then there are events that tell what was written. -/
def Machine.Tells (m m' : Machine) : Prop :=
  m.Followed → ∃ es, m.Told m' es

namespace Machine

/-- Nothing shows where neither the journal nor the sink has changed. -/
theorem tells_of_eq {m m' : Machine} (hjournal : m'.journal = m.journal)
    (hsink : m'.sink = m.sink) : m.Tells m' := by
  rintro ⟨hkept, hunlimited⟩
  refine ⟨[], ⟨hjournal ▸ hkept, hsink ▸ hunlimited⟩, ?_, nofun, ?_⟩
  · rw [hjournal, List.append_nil]
  · show _ = _ ++ (linesOf []).toUTF8
    rw [hsink, toUTF8_linesOf_nil, ByteArray.append_empty]

theorem Tells.refl (m : Machine) : m.Tells m :=
  tells_of_eq rfl rfl

theorem Tells.trans {m₁ m₂ m₃ : Machine} (h : m₁.Tells m₂) (h' : m₂.Tells m₃) : m₁.Tells m₃ := by
  intro hm
  obtain ⟨es, he⟩ := h hm
  obtain ⟨es', he'⟩ := h' he.followed
  refine ⟨es ++ es', he'.followed, ?_, he.opening.append he'.opening, ?_⟩
  · rw [he'.events, he.events, List.append_assoc]
  · rw [he'.written, he.written, printed_append es he'.opening, toUTF8_linesOf_append,
      ByteArray.append_assoc]

theorem Followed.record {m : Machine} (h : m.Followed) (e : Event) :
    (m.record e).Followed ∧
      (m.record e).journal.events.toList = m.journal.events.toList ++ [e] := by
  have hrecord : m.journal.record e = { m.journal with events := m.journal.events.push e } :=
    if_pos h.kept
  refine ⟨⟨?_, h.unlimited⟩, ?_⟩
  · show (m.journal.record e).kept = true
    rw [hrecord]
    exact h.kept
  · show (m.journal.record e).events.toList = _
    rw [hrecord]
    exact Array.toList_push

/-- An event that is no return tells of nothing by itself. -/
theorem tells_record (m : Machine) {e : Event} (he : e.isReturn = false) :
    m.Tells (m.record e) := by
  intro hm
  obtain ⟨hfollowed, hevents⟩ := hm.record e
  refine ⟨[e], hfollowed, hevents, ?_, ?_⟩
  · rintro _ ⟨⟩
    exact he
  · show m.sink.written = _ ++ (linesOf []).toUTF8
    rw [toUTF8_linesOf_nil, ByteArray.append_empty]

end Machine

theorem Event.isReturn_of_isOfCall {e : Event} (h : e.isOfCall = false) : e.isReturn = false := by
  cases e with
  | callReturned callee result => cases h
  | _ => rfl

namespace Primitive

theorem operation_eq_print {p : Primitive} : p.operation = .print ↔ p = .print := by
  cases p with
  | print => exact ⟨fun _ => rfl, fun _ => rfl⟩
  | _ => exact ⟨nofun, nofun⟩

theorem name_eq_print {p : Primitive} : p.name = print.name ↔ p = print := by
  cases p <;> decide

end Primitive

/-- A device that takes everything takes bytes as a whole. -/
theorem Sink.put_of_unlimited {s : Sink} (hs : s.device.Unlimited) (bytes : ByteArray) :
    s.put bytes = (.ok (), s.take bytes (s.device.receive s.state s.written bytes).2) := by
  have hwhole := hs s.state s.written bytes
  unfold put
  generalize s.device.receive s.state s.written bytes = received at hwhole ⊢
  obtain ⟨reception, state⟩ := received
  obtain rfl : reception = .whole := hwhole
  rfl

theorem Operation.printLine_of_unlimited {s : Sink} (hs : s.device.Unlimited) (x : Value) :
    printLine x s = (.ok .null, s.take (x.text ++ "\n").toUTF8
      (s.device.receive s.state s.written (x.text ++ "\n").toUTF8).2) := by
  simp only [printLine, Sink.write, Sink.put_of_unlimited hs]

/-- The two events of a primitive's call tell what it has written, if everything fits. -/
theorem written_onArguments? {p : Primitive} {args : List Value}
    {action : Sink → Except Fault Value × Sink}
    (h : p.operation.onArguments? args = some action) {s : Sink} (hs : s.device.Unlimited) :
    (action s).2.device = s.device ∧
      (action s).2.written = s.written ++
        (linesOf (printedBetween (.calling p.name args) (reported p (action s).1))).toUTF8 := by
  rcases Operation.onArguments?_cases h with ⟨hp, r, rfl⟩ | ⟨hp, x, rfl, rfl⟩
  · have hsilent : printedBetween (.calling p.name args) (reported p r) = [] := by
      unfold printedBetween
      split
      · rename_i hreported
        cases r with
        | error fault => cases hreported
        | ok v =>
            cases hreported
            exact if_neg fun hname => hp
              (Primitive.operation_eq_print.mpr (Primitive.name_eq_print.mp hname))
      · rfl
    refine ⟨rfl, ?_⟩
    rw [hsilent, toUTF8_linesOf_nil, ByteArray.append_empty]
  · obtain rfl := Primitive.operation_eq_print.mp hp
    have hprint := Operation.printLine_of_unlimited hs x
    have hline : linesOf [x] = x.text ++ "\n" := by
      simp only [linesOf, List.map_cons, List.map_nil, String.join_cons, String.join_nil,
        String.append_empty]
    rw [hprint]
    refine ⟨rfl, ?_⟩
    show _ = s.written ++ (linesOf [x]).toUTF8
    rw [hline]
    rfl

theorem tells_callPrimitive (p : Primitive) (args : List Value) :
    (callPrimitive p args).Respects Machine.Tells := by
  intro m r m' hrun
  cases ho : p.operation.onArguments? args with
  | none =>
      rw [answer?_callPrimitive_none ho] at hrun
      cases hrun
      exact .refl m
  | some action =>
      rw [answer?_callPrimitive ho] at hrun
      cases hrun
      intro hm
      obtain ⟨hdevice, hwritten⟩ := written_onArguments? ho hm.unlimited
      obtain ⟨hcalling, hevents⟩ := hm.record (.calling p.name args)
      have hran : ((m.record (.calling p.name args)).withSink (action m.sink).2).Followed :=
        ⟨hcalling.kept, hdevice ▸ hm.unlimited⟩
      obtain ⟨hfollowed, hevents'⟩ := hran.record (reported p (action m.sink).1)
      refine ⟨[.calling p.name args, reported p (action m.sink).1], hfollowed, ?_, ?_, ?_⟩
      · rw [hevents']
        show (m.record _).journal.events.toList ++ _ = _
        rw [hevents, List.append_assoc]
        rfl
      · rintro _ ⟨⟩
        rfl
      · show (action m.sink).2.written = _ ++ (linesOf (printedBetween _ _ ++ [])).toUTF8
        rw [List.append_nil]
        exact hwritten

/-- Telling what is written is a property that every construct passes on. -/
def telling (limits : Limits) : Congruence fun _ : Unit => limits where
  Holds X := (X ()).Respects Machine.Tells
  pure a := .gets .refl fun _ => a
  fail fault _ := .fail .refl fault
  bind hx hf := hx.bind .trans hf
  lookup _ := .gets .refl _
  named _ := .gets .refl _
  registry := .gets .refl _
  record _ he := .modify fun m => m.tells_record (Event.isReturn_of_isOfCall he)
  assign _ _ := .modify fun _ => Machine.tells_of_eq rfl rfl
  register _ _ _ := .modify fun _ => Machine.tells_of_eq rfl rfl
  primitive p args := tells_callPrimitive p args
  pass n hx :=
    pass_of_fail (P := fun X => (X ()).Respects Machine.Tells) (.fail .refl) hx limits n
  policy name r hx :=
    policy_of_fail (P := fun X => (X ()).Respects Machine.Tells) (.fail .refl) hx limits name r

theorem tells_evaluate (limits : Limits) (fuel : Nat) (e : Value) :
    (evaluate limits fuel e).Respects Machine.Tells := by
  apply (telling limits).evaluate
  · intro m r m' hrun
    cases hrun
  · intro fuel p args hbody
    apply Run.Respects.callProcedure .refl hbody
    intro m m' hin
    have hentered : m.Tells (inCall p args m) :=
      ((m.tells_record rfl).trans (Machine.tells_record _ rfl)).trans (Machine.tells_of_eq rfl rfl)
    exact (hentered.trans hin).trans (Machine.tells_of_eq rfl rfl)

end PocketLisp
