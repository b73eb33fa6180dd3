import HookStyle.Css.Property
import HookStyle.Decimal.Plain

/-!
# Literal values

A value is a number or a piece of CSS text. A number stays a number until it is written,
since the property decides whether it takes the unit `px`.
-/

namespace HookStyle.Css

inductive Value where
  | number (x : Float)
  | text (s : String)
  deriving DecidableEq

namespace Value

/-- The value by itself, without a unit. -/
def display : Value → String
  | number x => Decimal.ofFloat x
  | text s => s

/-- The value as CSS text for a property. -/
def render (property : String) : Value → String
  | number x => if Property.isUnitless property then Decimal.ofFloat x
      else Decimal.ofFloat x ++ "px"
  | text s => s

/-- Equality of values: numbers are equal as numbers are, so that the two zeros agree and
what is no number agrees with nothing. -/
def agrees : Value → Value → Bool
  | number x, number y => x == y
  | text s, text t => s == t
  | _, _ => false

theorem render_text (property s : String) : (text s).render property = s := rfl

/-- A number gets no unit behind a property that takes plain numbers. -/
theorem render_unitless {property : String} (h : Property.isUnitless property = true)
    (v : Value) : v.render property = v.display := by
  cases v with
  | number x => simp [render, display, h]
  | text s => rfl

end Value

end HookStyle.Css
