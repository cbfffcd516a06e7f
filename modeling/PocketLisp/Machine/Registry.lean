import PocketLisp.Arity
import PocketLisp.Machine.Table

/-!
# Registries

The procedures defined so far, by name. Every definition takes the next number, so that no two
definitions of a registry's history share one.
-/

namespace PocketLisp

def Procedure.arity {Expression : Type} (p : Procedure Expression) : Arity :=
  .exactly p.parameters.length

structure Registry where
  procedures : Table (Procedure Value)
  /-- The number of definitions made, replaced ones included. -/
  made : Nat

namespace Registry

def empty : Registry :=
  ⟨Table.empty, 0⟩

def get? (r : Registry) (name : Symbol) : Option (Procedure Value) :=
  r.procedures.get? name

def contains (r : Registry) (name : Symbol) : Bool :=
  r.procedures.contains name

def size (r : Registry) : Nat :=
  r.procedures.size

/-- The procedure that the next definition makes. -/
def fresh (r : Registry) (name : Symbol) (parameters : List Symbol) (body : Value) :
    Procedure Value :=
  ⟨r.made, name, parameters, body⟩

/-- Registers a definition under its name, in place of an earlier one. -/
def define (r : Registry) (name : Symbol) (parameters : List Symbol) (body : Value) : Registry :=
  ⟨r.procedures.insert name (r.fresh name parameters body), r.made + 1⟩

end Registry

end PocketLisp
