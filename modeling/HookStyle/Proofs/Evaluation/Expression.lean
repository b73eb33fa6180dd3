import HookStyle.Css.Expression
import HookStyle.Proofs.Evaluation.Text

/-!
# Evaluation of expressions

The value of an expression is defined on the expression itself. Its text evaluates to that
value (`expand_render`), so the laws of the compiled chains can be proved on expressions.

The helpers of compound conditions ask names that are either invalid or blank:

* `value_nested`: nested references are invalid when all names are, and blank otherwise.
* `value_joined`: references side by side are invalid when some name is, and blank
  otherwise.
-/

namespace HookStyle.Css.Expression

open Evaluation

/-- The parentheses of raw text match, and references ask for names. -/
def Readable : Expression → Prop
  | raw text => closes 0 text.toList = true
  | var name => isName name = true
  | varOr name fallback => isName name = true ∧ fallback.Readable
  | beside left right => left.Readable ∧ right.Readable

/-- The value of an expression, without the white space at its ends being dropped. -/
def value (lookup : String → Computed) : Expression → Computed
  | raw text => expand lookup text.toList
  | var name => lookup name
  | varOr name fallback => (lookup name).or ((fallback.value lookup).map trim)
  | beside left right =>
    (left.value lookup).bind fun v => (right.value lookup).map fun w => v ++ ' ' :: w

/-! ## The text of an expression -/

theorem toList_render_var (layout : Layout) (name : String) :
    ((var name).render layout).toList = opening ++ (name.toList ++ [')']) := by
  simp [render, opening]

theorem toList_render_varOr (layout : Layout) (name : String) (fallback : Expression) :
    ((varOr name fallback).render layout).toList = opening ++ (name.toList ++
      ',' :: ((layout.space.toList ++ (fallback.render layout).toList) ++ [')'])) := by
  simp [render, opening]

theorem toList_render_beside (layout : Layout) (left right : Expression) :
    ((beside left right).render layout).toList =
      (left.render layout).toList ++ ' ' :: (right.render layout).toList := by
  simp [render]

theorem closes_opening (cs : List Char) : closes 0 (opening ++ cs) = closes 1 cs := by
  simp [opening, closes, level]

theorem closes_space (layout : Layout) (cs : List Char) :
    closes 0 (layout.space.toList ++ cs) = closes 0 cs := by
  cases layout with
  | compact => simp [Layout.space]
  | pretty => simp [Layout.space, closes, level]

/-- A readable expression closes every parenthesis that it opens, in either layout. -/
theorem closes_render {e : Expression} (layout : Layout) (h : e.Readable) :
    closes 0 (e.render layout).toList = true := by
  induction e with
  | raw text => exact h
  | var name =>
    rw [toList_render_var, closes_opening, closes_of_isName fun c => isNameChar_of_mem h]
    simp [closes, level]
  | varOr name fallback ih =>
    have hin : closes 0 (layout.space.toList ++ (fallback.render layout).toList) = true := by
      rw [closes_space]
      exact ih h.2
    rw [toList_render_varOr, closes_opening, closes_of_isName fun c => isNameChar_of_mem h.1]
    have := closes_append 1 [')'] hin
    simpa [closes, level] using this
  | beside left right ihl ihr =>
    rw [toList_render_beside, closes_append_cons (by decide) (ihl h.1)]
    exact ihr h.2

theorem expand_nil (lookup : String → Computed) : expand lookup [] = some [] :=
  expand_of_plain lookup rfl

/-- The space of the layout does not show in a computed value. -/
theorem evaluate_space (lookup : String → Computed) (layout : Layout) (cs : List Char) :
    evaluate lookup (layout.space.toList ++ cs) = evaluate lookup cs := by
  cases layout with
  | compact => simp [Layout.space]
  | pretty =>
    have hnil : closes 0 [] = true := rfl
    have hblank : ' ' ∉ opening := by decide
    have h := expand_append_cons lookup hblank hnil cs
    rw [expand_nil, Option.bind_some] at h
    simp only [Layout.space, evaluate]
    change (expand lookup ([] ++ ' ' :: cs)).map trim = _
    rw [h, Option.map_map]
    exact congrArg (Option.map · (expand lookup cs)) (funext fun w => trim_cons_blank (by decide) w)

/-- The text of an expression evaluates to the expression's value. -/
theorem expand_render {e : Expression} (lookup : String → Computed) (layout : Layout)
    (h : e.Readable) : expand lookup (e.render layout).toList = e.value lookup := by
  induction e with
  | raw text => rfl
  | var name =>
    rw [toList_render_var, expand_reference lookup h, expand_nil]
    simp [value]
  | varOr name fallback ih =>
    have hin : closes 0 (layout.space.toList ++ (fallback.render layout).toList) = true := by
      rw [closes_space]
      exact closes_render layout h.2
    rw [toList_render_varOr, expand_referenceOr lookup h.1 hin, evaluate_space, expand_nil,
      evaluate, ih h.2]
    simp [value]
  | beside left right ihl ihr =>
    rw [toList_render_beside, expand_append_cons lookup (by decide) (closes_render layout h.1),
      ihl h.1, ihr h.2]
    rfl

theorem evaluate_render {e : Expression} (lookup : String → Computed) (layout : Layout)
    (h : e.Readable) : evaluate lookup (e.render layout).toList = (e.value lookup).map trim := by
  rw [evaluate, expand_render lookup layout h]

/-! ## Names that are invalid or blank -/

theorem readable_nested {name : String} {rest : List String}
    (h : ∀ n ∈ name :: rest, isName n = true) : (nested name rest).Readable := by
  induction rest generalizing name with
  | nil => exact h name List.mem_cons_self
  | cons next rest ih =>
    exact ⟨h name List.mem_cons_self, ih fun n hn => h n (List.mem_cons_of_mem _ hn)⟩

theorem readable_joined {name : String} {rest : List String}
    (h : ∀ n ∈ name :: rest, isName n = true) : (joined name rest).Readable := by
  induction rest generalizing name with
  | nil => exact h name List.mem_cons_self
  | cons next rest ih =>
    exact ⟨h name List.mem_cons_self, ih fun n hn => h n (List.mem_cons_of_mem _ hn)⟩

/-- The value of a toggle's side: invalid or blank. -/
def blankUnless (invalid : Bool) : Computed := if invalid then none else some []

variable {α : Type} {lookup : String → Computed} {name : α → String} {invalid : α → Bool} {a : α}
  {rest : List α}

/-- Nested references are invalid only if every one of them is. -/
theorem value_nested (h : ∀ x ∈ a :: rest, lookup (name x) = blankUnless (invalid x)) :
    ((nested (name a) (rest.map name)).value lookup).map trim
      = blankUnless ((a :: rest).all invalid) := by
  induction rest generalizing a with
  | nil =>
    rw [List.map_nil, nested, value, h a List.mem_cons_self]
    cases hi : invalid a <;> simp [blankUnless, hi, trim]
  | cons b rest ih =>
    have hrest := ih fun x hx => h x (List.mem_cons_of_mem _ hx)
    rw [List.map_cons, nested, value, h a List.mem_cons_self, hrest]
    change _ = blankUnless (invalid a && (b :: rest).all invalid)
    cases invalid a <;> cases (b :: rest).all invalid <;> rfl

/-- References next to each other are invalid as soon as one of them is. -/
theorem value_joined (h : ∀ x ∈ a :: rest, lookup (name x) = blankUnless (invalid x)) :
    ((joined (name a) (rest.map name)).value lookup).map trim
      = blankUnless ((a :: rest).any invalid) := by
  induction rest generalizing a with
  | nil =>
    rw [List.map_nil, joined, value, h a List.mem_cons_self]
    cases hi : invalid a <;> simp [blankUnless, hi, trim]
  | cons b rest ih =>
    have hrest := ih fun x hx => h x (List.mem_cons_of_mem _ hx)
    rw [List.map_cons, joined, value, value, h a List.mem_cons_self]
    change _ = blankUnless (invalid a || (b :: rest).any invalid)
    cases invalid a with
    | true => simp [blankUnless]
    | false =>
      rw [Bool.false_or, ← hrest]
      -- the blank in front of the other references is dropped with the white space
      cases (joined (name b) (rest.map name)).value lookup with
      | none => rfl
      | some w => exact congrArg some (trim_cons_blank (by decide) w)

end HookStyle.Css.Expression
