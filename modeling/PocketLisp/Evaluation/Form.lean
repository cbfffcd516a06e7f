import PocketLisp.Keyword
import PocketLisp.Value.Basic

/-!
# Special forms

A keyword with its operands. Main statement: a keyword and some operands make a form exactly when
the keyword's arity accepts their number.
-/

namespace PocketLisp

inductive Form where
  | branch (test consequent alternative : Value)
  | loop (test body : Value)
  | assign (target expression : Value)
  | first (expression : Value)
  | rest (expression : Value)
  | pair (left right : Value)
  | isList (expression : Value)
  | isNumber (expression : Value)
  | isSymbol (expression : Value)
  | define (name parameters body : Value)
  | truth

namespace Form

def ofOperands? : Keyword → List Value → Option Form
  | .branch, [test, consequent, alternative] => some (.branch test consequent alternative)
  | .loop, [test, body] => some (.loop test body)
  | .assign, [target, expression] => some (.assign target expression)
  | .first, [expression] => some (.first expression)
  | .rest, [expression] => some (.rest expression)
  | .pair, [left, right] => some (.pair left right)
  | .isList, [expression] => some (.isList expression)
  | .isNumber, [expression] => some (.isNumber expression)
  | .isSymbol, [expression] => some (.isSymbol expression)
  | .define, [name, parameters, body] => some (.define name parameters body)
  | .truth, [] => some .truth
  | _, _ => none

theorem isSome_ofOperands? (keyword : Keyword) (operands : List Value) :
    (ofOperands? keyword operands).isSome = keyword.arity.accepts operands.length := by
  match operands with
  | [] | [_] | [_, _] | [_, _, _] | _ :: _ :: _ :: _ :: _ =>
      cases keyword <;> simp [ofOperands?, Keyword.arity, Arity.accepts]

end Form

end PocketLisp
