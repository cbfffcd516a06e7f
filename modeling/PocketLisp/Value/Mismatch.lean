import PocketLisp.Value.Text

/-!
# Mismatches

Where a value of one kind is needed and another kind is found, the failure carries the value found.
-/

namespace PocketLisp

inductive Mismatch where
  | notANumber (found : Value)
  | notAList (found : Value)
  | notASymbol (found : Value)
  | emptyList

def Mismatch.message : Mismatch → String
  | .notANumber found => "expected a number, found " ++ found.text
  | .notAList found => "expected a list, found " ++ found.text
  | .notASymbol found => "expected a symbol, found " ++ found.text
  | .emptyList => "expected a non-empty list, found ()"

namespace Value

def asNumber : Value → Except Mismatch Number
  | .number n => .ok n
  | found => .error (.notANumber found)

def asList : Value → Except Mismatch (List Value)
  | .list elements => .ok elements
  | found => .error (.notAList found)

def asSymbol : Value → Except Mismatch Symbol
  | .symbol name => .ok name
  | found => .error (.notASymbol found)

/-- All symbols, or the mismatch of the first value that is none. -/
def asSymbols : List Value → Except Mismatch (List Symbol)
  | [] => .ok []
  | v :: vs => do
    let name ← v.asSymbol
    let names ← asSymbols vs
    return name :: names

theorem asSymbols_eq_ok {operands : List Value} {names : List Symbol} :
    asSymbols operands = .ok names ↔ operands = names.map symbol := by
  induction operands generalizing names with
  | nil =>
      cases names with
      | nil => exact ⟨fun _ => rfl, fun _ => rfl⟩
      | cons name names => exact ⟨nofun, nofun⟩
  | cons v vs ih =>
      constructor
      · intro h
        cases v with
        | symbol name =>
            change (asSymbols vs).bind (fun names => .ok (name :: names)) = _ at h
            cases hvs : asSymbols vs with
            | ok rest =>
                rw [hvs] at h
                cases h
                rw [ih.mp hvs, List.map_cons]
            | error cause =>
                rw [hvs] at h
                cases h
        | _ => cases h
      · intro h
        cases names with
        | nil => cases h
        | cons name names =>
            obtain ⟨rfl, hvs⟩ := List.cons.inj h
            change (asSymbols vs).bind (fun names => .ok (name :: names)) = _
            rw [ih.mpr hvs]
            rfl

end Value

end PocketLisp
