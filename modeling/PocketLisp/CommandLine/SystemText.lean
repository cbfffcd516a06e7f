import PocketLisp.Text.Lossy

/-!
# Texts of the system

Arguments and the names of files come from the system, which does not see to it that they are texts.
-/

namespace PocketLisp.CommandLine

/-- A text, or bytes that are the encoding of none. -/
inductive SystemText where
  | text (s : String)
  | bytes (bs : List UInt8)
  deriving DecidableEq

namespace SystemText

instance : Coe String SystemText := ⟨.text⟩

def shown : SystemText → String
  | .text s => s
  | .bytes bs => Text.shown bs

def startsWithDash : SystemText → Bool
  | .text s => s.toList.head? == some '-'
  | .bytes bs => bs.head? == some 0x2D

end SystemText

end PocketLisp.CommandLine
