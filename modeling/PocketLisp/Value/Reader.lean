import PocketLisp.Number.Text
import PocketLisp.Token
import PocketLisp.Value.Basic

/-!
# Reading values

Forms are read from tokens. Open lists are kept on a stack, the innermost on top, so the nesting of
a text costs no nesting of calls. `Value.read` wants exactly one form, `Value.readAll` takes every
form of a text.
-/

namespace PocketLisp

inductive ReadError where
  | noMoreTokens
  | unclosedList
  | unexpectedClose
  | trailingTokens (text : String)
  deriving DecidableEq, Repr

namespace ReadError

def message : ReadError → String
  | .noMoreTokens => "expected an expression but the input ended"
  | .unclosedList => "input ended inside an open '('"
  | .unexpectedClose => "unmatched ')'"
  | .trailingTokens text => "unexpected input after the expression: " ++ text

end ReadError

namespace Value

/-- A word is a number if it writes one, else a symbol. -/
def ofAtom (word : String) : Value :=
  match Number.ofText? word with
  | some n => .number n
  | none => .symbol word

/-- The lists that are open, innermost first, each with its elements so far in reverse. -/
abbrev OpenLists := List (List Value)

/-- What one token makes of the open lists. -/
inductive Progress where
  | inside (lists : OpenLists)
  | complete (form : Value)

/-- Puts a finished value into the innermost open list; without one, it is the form read. -/
def place (v : Value) : OpenLists → Progress
  | [] => .complete v
  | elements :: outer => .inside ((v :: elements) :: outer)

def takeToken (lists : OpenLists) : Token → Except ReadError Progress
  | .openBracket => .ok (.inside ([] :: lists))
  | .closeBracket =>
    match lists with
    | [] => .error .unexpectedClose
    | elements :: outer => .ok (place (.list elements.reverse) outer)
  | .atom word => .ok (place (ofAtom word) lists)

/-- Reads up to the end of the first form; answers it with the tokens that follow. -/
def readForm (lists : OpenLists) : List Token → Except ReadError (Value × List Token)
  | [] => .error (if lists.isEmpty then .noMoreTokens else .unclosedList)
  | token :: tokens =>
    match takeToken lists token with
    | .error e => .error e
    | .ok (.inside lists) => readForm lists tokens
    | .ok (.complete form) => .ok (form, tokens)

/-- Reads form after form to the end; `forms` are those read before, in reverse. -/
def readForms (forms : List Value) (lists : OpenLists) :
    List Token → Except ReadError (List Value)
  | [] => if lists.isEmpty then .ok forms.reverse else .error .unclosedList
  | token :: tokens =>
    match takeToken lists token with
    | .error e => .error e
    | .ok (.inside lists) => readForms forms lists tokens
    | .ok (.complete form) => readForms (form :: forms) [] tokens

/-- The one form that the tokens make up. -/
def ofTokens (tokens : List Token) : Except ReadError Value :=
  match readForm [] tokens with
  | .error e => .error e
  | .ok (form, []) => .ok form
  | .ok (_, .closeBracket :: _) => .error .unexpectedClose
  | .ok (_, rest) => .error (.trailingTokens (" ".intercalate (rest.map Token.text)))

/-- The one form of a text. -/
def read (text : String) : Except ReadError Value :=
  ofTokens (Token.ofText text)

/-- Every form of a text, in order. -/
def readAll (text : String) : Except ReadError (List Value) :=
  readForms [] [] (Token.ofText text)

end Value

end PocketLisp
