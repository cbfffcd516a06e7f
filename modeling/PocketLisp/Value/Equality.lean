import PocketLisp.Value.Basic

/-!
# Equality of values

Numbers are equal as numbers, across integers and floats; lists element by element; symbols and
primitives by name. Procedures are equal when one definition made both. Since a NaN equals nothing,
this is not equality of the type.
-/

namespace PocketLisp.Value

mutual

def equal : Value → Value → Bool
  | .number a, .number b => a.equal b
  | .symbol a, .symbol b => a == b
  | .list a, .list b => equalAll a b
  | .primitive a, .primitive b => a == b
  | .procedure a, .procedure b => a.id == b.id
  | _, _ => false

def equalAll : List Value → List Value → Bool
  | [], [] => true
  | a :: as, b :: bs => a.equal b && equalAll as bs
  | _, _ => false

end

end PocketLisp.Value
