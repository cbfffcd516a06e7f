import PocketLisp.Value.Basic

/-!
# Tables

Finite maps from names, with at most one entry for a name. Main statement: `get?_insert`.
-/

namespace PocketLisp

structure Table (α : Type) where
  entries : List (Symbol × α)

namespace Table

variable {α : Type}

def empty : Table α :=
  ⟨[]⟩

def findEntry? (name : Symbol) : List (Symbol × α) → Option α
  | [] => none
  | (key, value) :: entries => if key = name then some value else findEntry? name entries

def get? (t : Table α) (name : Symbol) : Option α :=
  findEntry? name t.entries

def contains (t : Table α) (name : Symbol) : Bool :=
  (t.get? name).isSome

def size (t : Table α) : Nat :=
  t.entries.length

/-- Replaces the entry of `name` where it stands, or adds one at the end. -/
def insertEntry (name : Symbol) (value : α) : List (Symbol × α) → List (Symbol × α)
  | [] => [(name, value)]
  | entry :: entries =>
    if entry.1 = name then (name, value) :: entries
    else entry :: insertEntry name value entries

def insert (t : Table α) (name : Symbol) (value : α) : Table α :=
  ⟨insertEntry name value t.entries⟩

/-- Of two values for one name the later one counts. -/
def ofList (pairs : List (Symbol × α)) : Table α :=
  pairs.foldl (fun t (name, value) => t.insert name value) empty

theorem findEntry?_insertEntry (name other : Symbol) (value : α) (entries : List (Symbol × α)) :
    findEntry? other (insertEntry name value entries) =
      if other = name then some value else findEntry? other entries := by
  induction entries with
  | nil => simp [insertEntry, findEntry?, eq_comm]
  | cons entry entries ih =>
      obtain ⟨key, old⟩ := entry
      by_cases hk : key = name
      · subst hk
        by_cases h : other = key
        · simp [insertEntry, findEntry?, h]
        · simp [insertEntry, findEntry?, h, Ne.symm h]
      · by_cases h : other = key
        · subst h
          simp [insertEntry, findEntry?, hk]
        · simp [insertEntry, findEntry?, hk, Ne.symm h, ih]

@[simp] theorem get?_empty (name : Symbol) : (empty : Table α).get? name = none := rfl

/-- A table answers what was put in last. -/
theorem get?_insert (t : Table α) (name other : Symbol) (value : α) :
    (t.insert name value).get? other = if other = name then some value else t.get? other :=
  findEntry?_insertEntry name other value t.entries

end Table

end PocketLisp
