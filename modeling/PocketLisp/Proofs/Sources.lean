import PocketLisp.Proofs.Congruence
import PocketLisp.Proofs.Correspondence
import PocketLisp.Proofs.RoundTrip

/-!
# Program text

Numbers, symbols and lists of these are program text: what the reader produces and what a program
consists of. A correspondence that leaves a piece of program text as it is has to say something
only about its names and about the parts that it evaluates.
-/

namespace PocketLisp

open Evaluation

namespace Value

/-- Neither a primitive nor a procedure is anywhere inside. -/
inductive IsSource : Value → Prop
  | number (n : Number) : IsSource (.number n)
  | symbol (name : Symbol) : IsSource (.symbol name)
  | list {elements : List Value} (all : ∀ e ∈ elements, IsSource e) : IsSource (.list elements)

attribute [simp] IsSource.number IsSource.symbol

theorem IsSource.elements {elements : List Value} (h : IsSource (.list elements)) :
    ∀ e ∈ elements, IsSource e := by
  cases h with
  | list all => exact all

@[simp] theorem isSource_list {elements : List Value} :
    IsSource (.list elements) ↔ ∀ e ∈ elements, IsSource e :=
  ⟨IsSource.elements, .list⟩

theorem Readable.isSource {v : Value} (h : Readable v) : IsSource v := by
  induction h with
  | number n => exact .number n
  | symbol _ _ _ => exact .symbol _
  | list _ ih => exact .list ih

/-- A symbol anywhere inside. -/
inductive Mentions (name : Symbol) : Value → Prop
  | symbol : Mentions name (.symbol name)
  | inside {elements : List Value} {e : Value} (hmem : e ∈ elements) (h : Mentions name e) :
      Mentions name (.list elements)

@[simp] theorem not_mentions_number (name : Symbol) (n : Number) : ¬ Mentions name (.number n) :=
  nofun

@[simp] theorem mentions_symbol {name other : Symbol} :
    Mentions name (.symbol other) ↔ name = other :=
  ⟨fun h => by cases h; rfl, fun h => h ▸ .symbol⟩

@[simp] theorem mentions_list {name : Symbol} {elements : List Value} :
    Mentions name (.list elements) ↔ ∃ e ∈ elements, Mentions name e := by
  constructor
  · rintro (_ | ⟨hmem, h⟩)
    exact ⟨_, hmem, h⟩
  · rintro ⟨e, hmem, h⟩
    exact .inside hmem h

/-- A definition under the name, anywhere inside. -/
inductive Defines (name : Symbol) : Value → Prop
  | here {head parameters body : Value} (hk : keyword? head = some .define) :
      Defines name (.list [head, .symbol name, parameters, body])
  | inside {elements : List Value} {e : Value} (hmem : e ∈ elements) (h : Defines name e) :
      Defines name (.list elements)

@[simp] theorem not_defines_number (name : Symbol) (n : Number) : ¬ Defines name (.number n) :=
  nofun

@[simp] theorem not_defines_symbol (name other : Symbol) : ¬ Defines name (.symbol other) :=
  nofun

@[simp] theorem defines_list {name : Symbol} {elements : List Value} :
    Defines name (.list elements) ↔
      (∃ head parameters body, elements = [head, .symbol name, parameters, body] ∧
        keyword? head = some .define) ∨ ∃ e ∈ elements, Defines name e := by
  constructor
  · rintro (⟨hk⟩ | ⟨hmem, h⟩)
    · exact Or.inl ⟨_, _, _, rfl, hk⟩
    · exact Or.inr ⟨_, hmem, h⟩
  · rintro (⟨head, parameters, body, rfl, hk⟩ | ⟨e, hmem, h⟩)
    · exact .here hk
    · exact .inside hmem h

/-- The property holds of the body of every procedure inside. -/
inductive Bodies (P : Value → Prop) : Value → Prop
  | number (n : Number) : Bodies P (.number n)
  | symbol (name : Symbol) : Bodies P (.symbol name)
  | list {vs : List Value} (elements : ∀ v ∈ vs, Bodies P v) : Bodies P (.list vs)
  | primitive (p : Primitive) : Bodies P (.primitive p)
  | procedure {q : Procedure Value} (h : P q.body) : Bodies P (.procedure q)

end Value

theorem Program.isSource_of_mem_statements {forms : List Value} (h : ∀ e ∈ forms, e.IsSource) :
    ∀ e ∈ statements forms, e.IsSource := by
  unfold statements
  split
  · rename_i elements
    split
    · exact (h _ (List.mem_singleton_self _)).elements
    · exact h
  · exact h

namespace Reading

variable {Place : Type} {R : Reading Place} {place : Place}

theorem forms_refl {form : Form} (hparts : ∀ e ∈ form.evaluated, R.Code place e e)
    (htarget : ∀ name e, form = .assign (.symbol name) e → R.Target place name name)
    (hdefinition : ∀ name parameters body, form = .define name parameters body →
      R.Definition place name parameters body body)
    (hsource : ∀ e, R.Source e e) : R.Forms place form form := by
  cases form with
  | branch test consequent alternative =>
      exact .branch (hparts test (by simp [Form.evaluated]))
        (hparts consequent (by simp [Form.evaluated]))
        (hparts alternative (by simp [Form.evaluated]))
  | loop test body =>
      exact .loop (hparts test (by simp [Form.evaluated])) (hparts body (by simp [Form.evaluated]))
  | assign target e =>
      refine .assign ?_ (hparts e (by simp [Form.evaluated]))
      cases target with
      | symbol name => exact .symbol (htarget name e rfl)
      | _ => exact .other rfl rfl (hsource _)
  | first e => exact .first (hparts e (by simp [Form.evaluated]))
  | rest e => exact .rest (hparts e (by simp [Form.evaluated]))
  | pair left right =>
      exact .pair (hparts left (by simp [Form.evaluated])) (hparts right (by simp [Form.evaluated]))
  | isList e => exact .isList (hparts e (by simp [Form.evaluated]))
  | isNumber e => exact .isNumber (hparts e (by simp [Form.evaluated]))
  | isSymbol e => exact .isSymbol (hparts e (by simp [Form.evaluated]))
  | define name parameters body => exact .define (hdefinition name parameters body rfl)
  | truth => exact .truth

/-- A form other than a definition, whose operands correspond one by one. -/
theorem forms_of_forall₂ {P : Value → Value → Prop} {k : Keyword} {operands operands' : List Value}
    {form : Form} (hne : k ≠ .define) (hcode : ∀ {e e'}, P e e' → R.Code place e e')
    (htarget : k = .assign → ∀ {e e'}, P e e' → R.Targets place e e')
    (hform : Form.ofOperands? k operands = some form) (h : List.Forall₂ P operands operands') :
    ∃ form', Form.ofOperands? k operands' = some form' ∧ R.Forms place form form' := by
  unfold Form.ofOperands? at hform
  split at hform <;> cases hform
  · obtain _ | ⟨test, _ | ⟨consequent, _ | ⟨alternative, ⟨_⟩⟩⟩⟩ := h
    exact ⟨_, rfl, .branch (hcode test) (hcode consequent) (hcode alternative)⟩
  · obtain _ | ⟨test, _ | ⟨body, ⟨_⟩⟩⟩ := h
    exact ⟨_, rfl, .loop (hcode test) (hcode body)⟩
  · obtain _ | ⟨target, _ | ⟨expression, ⟨_⟩⟩⟩ := h
    exact ⟨_, rfl, .assign (htarget rfl target) (hcode expression)⟩
  · obtain _ | ⟨expression, ⟨_⟩⟩ := h
    exact ⟨_, rfl, .first (hcode expression)⟩
  · obtain _ | ⟨expression, ⟨_⟩⟩ := h
    exact ⟨_, rfl, .rest (hcode expression)⟩
  · obtain _ | ⟨left, _ | ⟨right, ⟨_⟩⟩⟩ := h
    exact ⟨_, rfl, .pair (hcode left) (hcode right)⟩
  · obtain _ | ⟨expression, ⟨_⟩⟩ := h
    exact ⟨_, rfl, .isList (hcode expression)⟩
  · obtain _ | ⟨expression, ⟨_⟩⟩ := h
    exact ⟨_, rfl, .isNumber (hcode expression)⟩
  · obtain _ | ⟨expression, ⟨_⟩⟩ := h
    exact ⟨_, rfl, .isSymbol (hcode expression)⟩
  · exact absurd rfl hne
  · obtain ⟨_⟩ := h
    exact ⟨_, rfl, .truth⟩

theorem heads_refl {head : Value} (hnamed : ∀ name, head = .symbol name → R.Named place name name)
    (hcode : R.Code place head head) : R.Heads place head head := by
  cases head with
  | symbol name => exact .named (hnamed name rfl)
  | _ => exact .computed rfl rfl hcode

/-- A piece of program text seen from both sides, where it is the same on both. -/
theorem view_refl {e : Value} (he : e.IsSource)
    (hcall : ∀ head operands, e = .list (head :: operands) → keyword? head = none →
      R.Heads place head head ∧ ∀ x ∈ operands, R.Code place x x)
    (hforms : ∀ k head operands form, e = .list (head :: operands) → keyword? head = some k →
      Form.ofOperands? k operands = some form → R.Forms place form form) :
    R.View place e e := by
  cases he with
  | number n => exact .number n
  | symbol name => exact .symbol
  | @list elements all =>
      cases elements with
      | nil => exact .empty
      | cons head operands =>
          cases hk : keyword? head with
          | none =>
              obtain ⟨hhead, hoperands⟩ := hcall head operands rfl hk
              exact .call hk hk hhead (List.forall₂_same.mpr hoperands)
          | some k =>
              cases hform : Form.ofOperands? k operands with
              | none => exact .refused hk hk hform rfl
              | some form =>
                  exact .form hk hk hform hform (hforms k head operands form rfl hk hform)

/-- The same for a property of program text that its parts share, where every name is the same on
both sides. -/
theorem view_of_parts {P : Value → Prop} (hsource : ∀ e, P e → e.IsSource)
    (hparts : ∀ es, P (.list es) → ∀ e ∈ es, P e) (hcode : ∀ e, P e → R.Code place e e)
    (hnamed : ∀ name, R.Named place name name) (htarget : ∀ name, R.Target place name name)
    (hdefinition : ∀ head name parameters body, keyword? head = some .define →
      P (.list [head, name, parameters, body]) → R.Definition place name parameters body body)
    (hrefl : ∀ e, R.Source e e) {e : Value} (he : P e) : R.View place e e := by
  apply view_refl (hsource e he)
  · rintro head operands rfl _
    have hmembers := List.forall_mem_cons.mp (hparts _ he)
    exact ⟨heads_refl (fun name _ => hnamed name) (hcode head hmembers.1),
      fun x hx => hcode x (hmembers.2 x hx)⟩
  · rintro k head operands form rfl hk hform
    have hmembers := (List.forall_mem_cons.mp (hparts _ he)).2
    refine forms_refl ?_ (fun name _ _ => htarget name) ?_ hrefl
    · exact fun x hx => hcode x (hmembers x (Form.mem_operands_of_evaluated hform hx))
    · rintro name parameters body rfl
      obtain ⟨rfl, rfl⟩ := Form.of_define hform
      exact hdefinition head name parameters body hk he

end Reading

end PocketLisp
