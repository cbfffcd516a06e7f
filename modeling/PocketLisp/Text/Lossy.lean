/-!
# Bytes shown as text

Bytes that need not encode a text can be shown nevertheless: every character that they do encode
stands for itself, and what stands between the characters is shown as replacement characters, one
for each longest start of a character.
-/

namespace PocketLisp.Text

/-- The bounds of each byte that has to follow the first byte of a character. -/
def continuations? (lead : UInt8) : Option (List (UInt8 × UInt8)) :=
  if lead < 0x80 then some []
  else if lead < 0xC2 then none
  else if lead < 0xE0 then some [(0x80, 0xBF)]
  else if lead = 0xE0 then some [(0xA0, 0xBF), (0x80, 0xBF)]
  else if lead = 0xED then some [(0x80, 0x9F), (0x80, 0xBF)]
  else if lead < 0xF0 then some [(0x80, 0xBF), (0x80, 0xBF)]
  else if lead = 0xF0 then some [(0x90, 0xBF), (0x80, 0xBF), (0x80, 0xBF)]
  else if lead < 0xF4 then some [(0x80, 0xBF), (0x80, 0xBF), (0x80, 0xBF)]
  else if lead = 0xF4 then some [(0x80, 0x8F), (0x80, 0xBF), (0x80, 0xBF)]
  else none

/-- How many of the bytes are within their bounds, up to the first that is not. -/
def countWithin : List (UInt8 × UInt8) → List UInt8 → Nat
  | (low, high) :: bounds, b :: bytes =>
    if low ≤ b ∧ b ≤ high then countWithin bounds bytes + 1 else 0
  | _, _ => 0

/-- The character that a first byte and the bytes after it encode. -/
def decodedChar (lead : UInt8) (following : List UInt8) : Char :=
  let start :=
    match following.length with
    | 0 => lead.toNat
    | 1 => lead.toNat % 32
    | 2 => lead.toNat % 16
    | _ => lead.toNat % 8
  Char.ofNat (following.foldl (fun code b => 64 * code + b.toNat % 64) start)

/-- The next character, and how many bytes behind the first one it takes up. -/
def nextShown (lead : UInt8) (bytes : List UInt8) : Char × Nat :=
  match continuations? lead with
  | none => ('\uFFFD', 0)
  | some bounds =>
    let n := countWithin bounds bytes
    if n = bounds.length then (decodedChar lead (bytes.take n), n) else ('\uFFFD', n)

def charsShown : List UInt8 → List Char
  | [] => []
  | lead :: bytes =>
    let (c, n) := nextShown lead bytes
    c :: charsShown (bytes.drop n)
termination_by bytes => bytes.length
decreasing_by
  simp only [List.length_drop, List.length_cons]
  omega

/-- The text that bytes are shown as. -/
def shown (bytes : List UInt8) : String :=
  String.ofList (charsShown bytes)

end PocketLisp.Text
