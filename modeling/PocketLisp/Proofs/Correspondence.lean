import Mathlib.Data.List.Forall2
import PocketLisp.Proofs.Answers

/-!
# Correspondences between two runs

Two runs whose programs, values and machines are not the same but correspond. What corresponds to
what is left open: an instance says it, and says how every single action of the language treats
what corresponds. Values must look alike from outside, since they are printed and compared. That
such runs stay in step is proved elsewhere, once for all instances; an invariant of one run is the
case in which what corresponds is the same.
-/

namespace PocketLisp

open Evaluation

namespace Value

/-- The values look alike from outside, and what is in them corresponds. -/
inductive Similar (V : Value → Value → Prop) : Value → Value → Prop
  | number (n : Number) : Similar V (.number n) (.number n)
  | symbol (name : Symbol) : Similar V (.symbol name) (.symbol name)
  | list {vs vs' : List Value} (elements : List.Forall₂ V vs vs') :
      Similar V (.list vs) (.list vs')
  | primitive (p : Primitive) : Similar V (.primitive p) (.primitive p)
  | procedure {p p' : Procedure Value} (id : p.id = p'.id) (name : p.name = p'.name) :
      Similar V (.procedure p) (.procedure p')

variable {V : Value → Value → Prop}

namespace Similar

variable {v v' : Value} (h : Similar V v v')

include h

theorem isTruth_eq : v.isTruth = v'.isTruth := by
  cases h <;> rfl

theorem isNumber_eq : v.isNumber = v'.isNumber := by
  cases h <;> rfl

theorem isSymbol_eq : v.isSymbol = v'.isSymbol := by
  cases h <;> rfl

theorem isCallable_eq : v.isCallable = v'.isCallable := by
  cases h <;> rfl

theorem isNull_eq : v.isNull = v'.isNull := by
  cases h with
  | list elements => cases elements <;> rfl
  | _ => rfl

end Similar

mutual

theorem text_eq (hV : ∀ v v', V v v' → Similar V v v') : (v : Value) → {v' : Value} →
    V v v' → v.text = v'.text
  | .number _, _, h => by cases hV _ _ h; rfl
  | .symbol _, _, h => by cases hV _ _ h; rfl
  | .list vs, _, h => by
      cases hV _ _ h with
      | list elements => rw [text, text, texts_eq hV vs elements]
  | .primitive _, _, h => by cases hV _ _ h; rfl
  | .procedure _, _, h => by
      cases hV _ _ h with
      | procedure _ name => rw [text, text, name]

theorem texts_eq (hV : ∀ v v', V v v' → Similar V v v') : (vs : List Value) →
    {vs' : List Value} → List.Forall₂ V vs vs' → texts vs = texts vs'
  | [], _, h => by cases h; rfl
  | v :: vs, _, h => by
      cases h with
      | cons head tail => rw [texts, texts, text_eq hV v head, texts_eq hV vs tail]

end

mutual

theorem equal_eq (hV : ∀ v v', V v v' → Similar V v v') : (v : Value) → {v' u u' : Value} →
    V v v' → V u u' → v.equal u = v'.equal u'
  | .number _, _, _, _, h, h' => by cases hV _ _ h; cases hV _ _ h' <;> simp only [equal]
  | .symbol _, _, _, _, h, h' => by cases hV _ _ h; cases hV _ _ h' <;> simp only [equal]
  | .list vs, _, _, _, h, h' => by
      cases hV _ _ h with
      | list elements =>
          cases hV _ _ h' with
          | list elements' => simp only [equal, equalAll_eq hV vs elements elements']
          | _ => simp only [equal]
  | .primitive _, _, _, _, h, h' => by cases hV _ _ h; cases hV _ _ h' <;> simp only [equal]
  | .procedure _, _, _, _, h, h' => by
      cases hV _ _ h with
      | procedure id _ =>
          cases hV _ _ h' with
          | procedure id' _ => simp only [equal, id, id']
          | _ => simp only [equal]

theorem equalAll_eq (hV : ∀ v v', V v v' → Similar V v v') : (vs : List Value) →
    {vs' us us' : List Value} → List.Forall₂ V vs vs' → List.Forall₂ V us us' →
    equalAll vs us = equalAll vs' us'
  | [], _, _, _, h, h' => by cases h; cases h' <;> simp only [equalAll]
  | v :: vs, _, _, _, h, h' => by
      cases h with
      | cons head tail =>
          cases h' with
          | nil => simp only [equalAll]
          | cons head' tail' =>
              simp only [equalAll, equal_eq hV v head head', equalAll_eq hV vs tail tail']

end

end Value

namespace Fault

/-- Whether a fault carries neither a computed value nor a piece of program. -/
def isPlain : Fault → Bool
  | .unknownOperator (.symbol _) => true
  | .unknownOperator _ => false
  | .mismatch .emptyList => true
  | .mismatch _ => false
  | _ => true

/-- The same fault, but for corresponding values and pieces of program that it carries. -/
inductive Similar (V S : Value → Value → Prop) : Fault → Fault → Prop
  | plain {fault : Fault} (h : fault.isPlain = true) : Similar V S fault fault
  | notCallable {v v' : Value} (h : V v v') : Similar V S (.unknownOperator v) (.unknownOperator v')
  | notANumber {v v' : Value} (h : V v v') :
      Similar V S (.mismatch (.notANumber v)) (.mismatch (.notANumber v'))
  | notAList {v v' : Value} (h : V v v') :
      Similar V S (.mismatch (.notAList v)) (.mismatch (.notAList v'))
  | sourceNotAList {e e' : Value} (h : S e e') :
      Similar V S (.mismatch (.notAList e)) (.mismatch (.notAList e'))
  | sourceNotASymbol {e e' : Value} (h : S e e') :
      Similar V S (.mismatch (.notASymbol e)) (.mismatch (.notASymbol e'))

theorem Similar.imp {V V' S : Value → Value → Prop} (himp : ∀ v v', V v v' → V' v v')
    {f g : Fault} (h : Similar V S f g) : Similar V' S f g := by
  cases h with
  | plain h => exact .plain h
  | notCallable h => exact .notCallable (himp _ _ h)
  | notANumber h => exact .notANumber (himp _ _ h)
  | notAList h => exact .notAList (himp _ _ h)
  | sourceNotAList h => exact .sourceNotAList h
  | sourceNotASymbol h => exact .sourceNotASymbol h

/-- Where only what is the same corresponds, faults that look alike are the same. -/
theorem Similar.eq {P : Value → Prop} {f g : Fault}
    (h : Similar (fun v v' => v' = v ∧ P v) Eq f g) : f = g := by
  cases h with
  | plain _ => rfl
  | notCallable h => rw [h.1]
  | notANumber h => rw [h.1]
  | notAList h => rw [h.1]
  | sourceNotAList h => rw [h]
  | sourceNotASymbol h => rw [h]

end Fault

namespace Result

/-- Corresponding values, or the same fault but for what corresponds in it. -/
inductive Similar (V S : Value → Value → Prop) : Except Fault Value → Except Fault Value → Prop
  | ok {v v' : Value} (h : V v v') : Similar V S (.ok v) (.ok v')
  | error {f g : Fault} (h : Fault.Similar V S f g) : Similar V S (.error f) (.error g)

theorem Similar.imp {V V' S : Value → Value → Prop} (himp : ∀ v v', V v v' → V' v v')
    {r r' : Except Fault Value} (h : Similar V S r r') : Similar V' S r r' := by
  cases h with
  | ok h => exact .ok (himp _ _ h)
  | error h => exact .error (h.imp himp)

theorem Similar.eq {P : Value → Prop} {r r' : Except Fault Value}
    (h : Similar (fun v v' => v' = v ∧ P v) Eq r r') : r = r' := by
  cases h with
  | ok h => rw [h.1]
  | error h => rw [h.eq]

end Result

/-- How the pieces of two programs correspond, at the place in a run where they stand. -/
structure Reading (Place : Type) where
  /-- Expressions that are evaluated. -/
  Code : Place → Value → Value → Prop
  /-- Names that stand for an operator. -/
  Named : Place → Symbol → Symbol → Prop
  /-- Names that are assigned to. -/
  Target : Place → Symbol → Symbol → Prop
  /-- The operands of a definition, of which only the body may differ. -/
  Definition : Place → (name parameters body body' : Value) → Prop
  /-- Pieces that a fault shows as they are written. -/
  Source : Value → Value → Prop

namespace Reading

variable {Place : Type} (R : Reading Place) (place : Place)

inductive Targets : Value → Value → Prop
  | symbol {name name' : Symbol} (h : R.Target place name name') :
      Targets (.symbol name) (.symbol name')
  | other {e e' : Value} (hsymbol : e.isSymbol = false) (hsymbol' : e'.isSymbol = false)
      (h : R.Source e e') : Targets e e'

inductive Forms : Form → Form → Prop
  | branch {t t' c c' a a' : Value} (test : R.Code place t t') (consequent : R.Code place c c')
      (alternative : R.Code place a a') : Forms (.branch t c a) (.branch t' c' a')
  | loop {t t' b b' : Value} (test : R.Code place t t') (body : R.Code place b b') :
      Forms (.loop t b) (.loop t' b')
  | assign {t t' e e' : Value} (target : R.Targets place t t') (expression : R.Code place e e') :
      Forms (.assign t e) (.assign t' e')
  | first {e e' : Value} (expression : R.Code place e e') : Forms (.first e) (.first e')
  | rest {e e' : Value} (expression : R.Code place e e') : Forms (.rest e) (.rest e')
  | pair {l l' r r' : Value} (left : R.Code place l l') (right : R.Code place r r') :
      Forms (.pair l r) (.pair l' r')
  | isList {e e' : Value} (expression : R.Code place e e') : Forms (.isList e) (.isList e')
  | isNumber {e e' : Value} (expression : R.Code place e e') : Forms (.isNumber e) (.isNumber e')
  | isSymbol {e e' : Value} (expression : R.Code place e e') : Forms (.isSymbol e) (.isSymbol e')
  | define {n ps b b' : Value} (h : R.Definition place n ps b b') :
      Forms (.define n ps b) (.define n ps b')
  | truth : Forms .truth .truth

inductive Heads : Value → Value → Prop
  | named {name name' : Symbol} (h : R.Named place name name') :
      Heads (.symbol name) (.symbol name')
  | computed {e e' : Value} (hsymbol : e.isSymbol = false) (hsymbol' : e'.isSymbol = false)
      (h : R.Code place e e') : Heads e e'

/-- Two expressions taken apart, one like the other. -/
inductive View : Value → Value → Prop
  | number (n : Number) : View (.number n) (.number n)
  | symbol {name name' : Symbol} : View (.symbol name) (.symbol name')
  | empty : View (.list []) (.list [])
  | refused {k : Keyword} {head head' : Value} {operands operands' : List Value}
      (hk : keyword? head = some k) (hk' : keyword? head' = some k)
      (hnone : Form.ofOperands? k operands = none) (hlength : operands.length = operands'.length) :
      View (.list (head :: operands)) (.list (head' :: operands'))
  | form {k : Keyword} {head head' : Value} {operands operands' : List Value} {form form' : Form}
      (hk : keyword? head = some k) (hk' : keyword? head' = some k)
      (hform : Form.ofOperands? k operands = some form)
      (hform' : Form.ofOperands? k operands' = some form') (h : R.Forms place form form') :
      View (.list (head :: operands)) (.list (head' :: operands'))
  | call {head head' : Value} {operands operands' : List Value} (hk : keyword? head = none)
      (hk' : keyword? head' = none) (hhead : R.Heads place head head')
      (hoperands : List.Forall₂ (R.Code place) operands operands') :
      View (.list (head :: operands)) (.list (head' :: operands'))

end Reading

/-- What a correspondence between two runs has to say about the single actions of the language. A
world is what has happened so far; values that correspond in it correspond later. -/
structure Correspondence (World Place : Type) extends Reading Place where
  Later : World → World → Prop
  Values : World → Value → Value → Prop
  Machines : Place → World → Machine → Machine → Prop
  refl : ∀ w, Later w w
  trans : ∀ {w₁ w₂ w₃}, Later w₁ w₂ → Later w₂ w₃ → Later w₁ w₃
  mono : ∀ {w w' v v'}, Later w w' → Values w v v' → Values w' v v'
  similar : ∀ {w} v v', Values w v v' → Value.Similar (Values w) v v'
  number : ∀ w n, Values w (.number n) (.number n)
  truth : ∀ w, Values w .truth .truth
  null : ∀ w, Values w .null .null
  pair : ∀ {w a a' b b'}, Values w a a' → Values w b b' →
    Values w (.list [a, b]) (.list [a', b'])
  tail : ∀ {w vs vs'}, Values w (.list vs) (.list vs') → Values w (.list vs.tail) (.list vs'.tail)
  source : ∀ e, Source e e
  view : ∀ {place e e'}, Code place e e' → toReading.View place e e'
  lookup : ∀ {place w m n name name'}, Machines place w m n →
    Code place (.symbol name) (.symbol name') →
    (∃ v v', m.lookup? name = some v ∧ n.lookup? name' = some v' ∧ Values w v v') ∨
      (m.lookup? name = none ∧ n.lookup? name' = none ∧ name = name')
  named : ∀ {place w m n name name'}, Machines place w m n → Named place name name' →
    (∃ v v', operatorNamed? m name = some v ∧ operatorNamed? n name' = some v' ∧ Values w v v') ∨
      (operatorNamed? m name = none ∧ operatorNamed? n name' = none ∧ name = name')
  sink : ∀ {place w m n}, Machines place w m n → m.sink = n.sink
  depth : ∀ {place w m n}, Machines place w m n → m.depth = n.depth
  record : ∀ {place w m n} event event', Machines place w m n →
    Machines place w (m.record event) (n.record event')
  print : ∀ {place w m n} s, Machines place w m n →
    Machines place w (m.withSink s) (n.withSink s)
  set : ∀ {place w m n name name' v v'}, Machines place w m n → Target place name name' →
    Values w v v' → Machines place w (m.set name v) (n.set name' v')
  registered : ∀ {place w m n} name, Machines place w m n →
    m.registry.contains name = n.registry.contains name
  define : ∀ {place w m n name operands parameters body body'}, Machines place w m n →
    Definition place (.symbol name) (.list operands) body body' →
    Value.asSymbols operands = .ok parameters →
    ∃ w', Later w w' ∧ Values w' (.symbol name) (.symbol name) ∧
      Machines place w'
        ((m.record (.defining (m.registry.fresh name parameters body))).define name parameters body)
        ((n.record (.defining (n.registry.fresh name parameters body'))).define name parameters
          body')
  parameters : ∀ {w p p'}, Values w (.procedure p) (.procedure p') →
    p.parameters.length = p'.parameters.length
  call : ∀ {place w m n p p' args args'}, Machines place w m n →
    Values w (.procedure p) (.procedure p') → List.Forall₂ (Values w) args args' →
    args.length = p.parameters.length →
    ∃ inner, Code inner p.body p'.body ∧ Machines inner w (inCall p args m) (inCall p' args' n) ∧
      ∀ w' m' n', Later w w' → Machines inner w' m' n' → Machines place w' m'.pop n'.pop

namespace Correspondence

variable {World Place : Type} (C : Correspondence World Place)

/-- The runs end in the same way, if they end, and in a later world. -/
inductive Agree {α β : Type} (place : Place) (w : World) (A : World → α → β → Prop) :
    Outcome α → Outcome β → Prop
  | returned {w' : World} {a : α} {b : β} {m n : Machine} (later : C.Later w w') (value : A w' a b)
      (machines : C.Machines place w' m n) : Agree place w A (.returned a m) (.returned b n)
  | failed {w' : World} {f g : Fault} {m n : Machine} (later : C.Later w w')
      (fault : Fault.Similar (C.Values w') C.Source f g)
      (machines : C.Machines place w' m n) : Agree place w A (.failed f m) (.failed g n)
  | exhausted : Agree place w A .exhausted .exhausted

def Lockstep {α β : Type} (place : Place) (w : World) (A : World → α → β → Prop) (x : Run α)
    (y : Run β) : Prop :=
  ∀ m n, C.Machines place w m n → C.Agree place w A (x m) (y n)

/-- Corresponding expressions are evaluated in step, everywhere and at any time. -/
def Follows (self self' : Value → Run Value) : Prop :=
  ∀ place w e e', C.Code place e e' → C.Lockstep place w C.Values (self e) (self' e')

variable {C} {α β α' β' : Type} {place : Place} {w : World} {A : World → α → β → Prop}
  {B : World → α' → β' → Prop}

theorem Agree.later {w₀ : World} {x : Outcome α} {y : Outcome β} (h : C.Agree place w A x y)
    (hw : C.Later w₀ w) : C.Agree place w₀ A x y := by
  cases h with
  | returned later value machines => exact .returned (C.trans hw later) value machines
  | failed later fault machines => exact .failed (C.trans hw later) fault machines
  | exhausted => exact .exhausted

namespace Lockstep

theorem pure {a : α} {b : β} (h : A w a b) : C.Lockstep place w A (Pure.pure a) (Pure.pure b) :=
  fun _ _ hm => .returned (C.refl w) h hm

theorem fail {fault fault' : Fault} (h : Fault.Similar (C.Values w) C.Source fault fault') :
    C.Lockstep place w A (Run.fail fault) (Run.fail fault') :=
  fun _ _ hm => .failed (C.refl w) h hm

theorem outOfFuel : C.Lockstep place w A Run.outOfFuel Run.outOfFuel :=
  fun _ _ _ => .exhausted

theorem bind {x : Run α} {y : Run β} {f : α → Run α'} {g : β → Run β'}
    (hx : C.Lockstep place w A x y)
    (hf : ∀ w' a b, C.Later w w' → A w' a b → C.Lockstep place w' B (f a) (g b)) :
    C.Lockstep place w B (x >>= f) (y >>= g) := by
  intro m n hm
  rw [Run.bind_apply, Run.bind_apply]
  generalize x m = xm, y n = yn, hx m n hm = h
  cases h with
  | returned later value machines => exact (hf _ _ _ later value _ _ machines).later later
  | failed later fault machines => exact .failed later fault machines
  | exhausted => exact .exhausted

theorem record (event event' : Event) :
    C.Lockstep place w (fun _ _ _ => True) (Run.record event) (Run.record event') :=
  fun _ _ hm => .returned (C.refl w) trivial (C.record event event' hm)

end Lockstep

end Correspondence

end PocketLisp
