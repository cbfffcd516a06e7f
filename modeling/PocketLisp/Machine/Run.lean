import PocketLisp.Machine.Basic

/-!
# Runs

A run takes a machine and ends in one of three ways: with a value, with a fault, or because its
fuel is used up. A value and a fault come with the machine that they leave behind. What has run out
of fuel says nothing about the program, and is not an answer.
-/

namespace PocketLisp

inductive Outcome (α : Type) where
  | returned (value : α) (machine : Machine)
  | failed (fault : Fault) (machine : Machine)
  | exhausted

/-- The answer and the machine after it, if the run ended by itself. -/
def Outcome.answer? {α : Type} : Outcome α → Option (Except Fault α × Machine)
  | .returned value m => some (.ok value, m)
  | .failed fault m => some (.error fault, m)
  | .exhausted => none

def Run (α : Type) : Type :=
  Machine → Outcome α

namespace Run

variable {α β : Type}

@[inline] protected def pure (a : α) : Run α :=
  fun m => .returned a m

/-- A fault ends the run, and so does an empty tank. -/
@[inline] protected def bind (x : Run α) (f : α → Run β) : Run β :=
  fun m =>
    match x m with
    | .returned a m => f a m
    | .failed fault m => .failed fault m
    | .exhausted => .exhausted

instance : Monad Run where
  pure := Run.pure
  bind := Run.bind

theorem bind_apply (x : Run α) (f : α → Run β) (m : Machine) :
    (x >>= f) m =
      match x m with
      | .returned a m => f a m
      | .failed fault m => .failed fault m
      | .exhausted => .exhausted := rfl

@[simp] theorem pure_apply (a : α) (m : Machine) : (pure a : Run α) m = .returned a m := rfl

instance : LawfulMonad Run := LawfulMonad.mk' Run
  (fun x => by
    funext m
    simp only [Functor.map, Run.bind, Function.comp]
    cases x m <;> rfl)
  (fun _ _ => rfl)
  (fun x f g => by
    funext m
    simp only [bind_apply]
    cases x m <;> rfl)

@[inline] def fail (fault : Fault) : Run α :=
  fun m => .failed fault m

@[inline] def outOfFuel : Run α :=
  fun _ => .exhausted

@[inline] def ofMismatch : Except Mismatch α → Run α
  | .ok a => Run.pure a
  | .error cause => fail (.mismatch cause)

/-- What `f` sees in the machine. -/
@[inline] def gets (f : Machine → α) : Run α :=
  fun m => .returned (f m) m

@[inline] def modify (f : Machine → Machine) : Run Unit :=
  fun m => .returned () (f m)

@[inline] def record (e : Event) : Run Unit :=
  modify (·.record e)

/-- Runs `body` with one more frame, which is dropped at the end, also after a fault. -/
@[inline] def inFrame (frame : Frame) (body : Run α) : Run α :=
  fun m =>
    match body (m.push frame) with
    | .returned a m => .returned a m.pop
    | .failed fault m => .failed fault m.pop
    | .exhausted => .exhausted

end Run

end PocketLisp
