import PocketLisp.Fault

/-!
# Output sinks

Where a program prints to. A sink holds what has been written, and behind it stands a device. The
device takes a text that is written, or the start of it and fails; it may refuse to be flushed. What
it does can depend on everything that was asked of it before, so that it may also fail and recover.
A device with little room keeps of a text the part that fits.
-/

namespace PocketLisp

/-- How a device receives bytes: as a whole, or only the first ones of them. -/
inductive Reception where
  | whole
  | cut (taken : Nat) (cause : SinkFault)
  deriving DecidableEq, Repr

/-- What stands behind a sink, told by what it does in each of its states while the sink holds what
has been written, and by the state that comes next. The states mean nothing to anyone else. -/
structure Device where
  receive : (state : Nat) → (written bytes : ByteArray) → Reception × Nat :=
    fun state _ _ => (.whole, state)
  flush : (state : Nat) → (written : ByteArray) → Except SinkFault Unit × Nat :=
    fun state _ => (.ok (), state)

namespace Device

/-- The device takes everything. -/
def Unlimited (d : Device) : Prop :=
  ∀ state written bytes, (d.receive state written bytes).1 = .whole

/-- The same device with room for a number of bytes in total. -/
def limited (d : Device) (capacity : Nat) : Device :=
  { d with
    receive := fun state written bytes =>
      if written.size + bytes.size ≤ capacity then d.receive state written bytes
      else (.cut (capacity - written.size) .full, state) }

end Device

structure Sink where
  written : ByteArray := .empty
  device : Device := {}
  state : Nat := 0

namespace Sink

def take (s : Sink) (bytes : ByteArray) (state : Nat) : Sink :=
  { s with written := s.written ++ bytes, state }

def put (s : Sink) (bytes : ByteArray) : Except SinkFault Unit × Sink :=
  match s.device.receive s.state s.written bytes with
  | (.whole, state) => (.ok (), s.take bytes state)
  | (.cut taken cause, state) => (.error cause, s.take (bytes.extract 0 taken) state)

def write (s : Sink) (text : String) : Except SinkFault Unit × Sink :=
  s.put text.toUTF8

def flush (s : Sink) : Except SinkFault Unit × Sink :=
  let (answer, state) := s.device.flush s.state s.written
  (answer, { s with state })

end Sink

end PocketLisp
