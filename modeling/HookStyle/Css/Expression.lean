import HookStyle.Css.Layout

/-!
# Expressions over custom properties

The values that the compiler writes are built from raw text and `var()` references, with or
without a fallback, standing side by side.

* `render_nested_cons`, `render_joined`: the text of the two shapes that helpers have.
-/

namespace HookStyle.Css

inductive Expression where
  /-- Text that is taken as it is. -/
  | raw (text : String)
  /-- The value of a custom property. -/
  | var (name : String)
  /-- The value of a custom property, or the fallback when that is invalid. -/
  | varOr (name : String) (fallback : Expression)
  | beside (left right : Expression)
  deriving DecidableEq, Repr

namespace Expression

def render (layout : Layout) : Expression → String
  | raw text => text
  | var name => "var(" ++ name ++ ")"
  | varOr name fallback => "var(" ++ name ++ "," ++ layout.space ++ fallback.render layout ++ ")"
  | beside left right => left.render layout ++ " " ++ right.render layout

/-- The value of the first name that is valid; every name stands in the fallback of the
one before. -/
def nested (name : String) : List String → Expression
  | [] => var name
  | next :: rest => varOr name (nested next rest)

/-- The values of all names side by side. -/
def joined (name : String) : List String → Expression
  | [] => var name
  | next :: rest => beside (var name) (joined next rest)

theorem render_nested_cons (layout : Layout) (name next : String) (rest : List String) :
    (nested name (next :: rest)).render layout
      = "var(" ++ name ++ "," ++ layout.space ++ (nested next rest).render layout ++ ")" := rfl

/-- References next to each other are separated by one space. -/
theorem render_joined (layout : Layout) (name : String) (rest : List String) :
    (joined name rest).render layout
      = " ".intercalate ((name :: rest).map fun n => "var(" ++ n ++ ")") := by
  induction rest generalizing name with
  | nil => simp [joined, render]
  | cons next rest ih =>
    simp only [joined, render, ih]
    simp [String.intercalate_cons_cons]

end Expression

end HookStyle.Css
