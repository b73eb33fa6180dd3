import HookStyle.Css.Value
import HookStyle.OrderedMap.Basic

/-!
# Styles

A style says what each of its properties is set to, in order. A property may be cleared,
which is not the same as not being mentioned.

* `value?_eq_some_iff`: a property has a value when it is mentioned and not cleared.
-/

namespace HookStyle

open Css

/-- What a property is set to: a value, or nothing when it is cleared. -/
abbrev Setting := Option Value

/-- Equality of settings, where two cleared ones agree. -/
def Setting.agrees : Setting → Setting → Bool
  | some v, some w => v.agrees w
  | none, none => true
  | _, _ => false

/-- What each property is set to, in order. -/
abbrev Style := OrderedMap Setting

namespace Style

/-- The value of a property that is mentioned and not cleared. -/
def value? (s : Style) (property : String) : Option Value := (s.get? property).join

/-- Equality of styles, which does not regard the order. -/
def agrees (s t : Style) : Bool := s.sameEntries Setting.agrees t

theorem value?_eq_some_iff {s : Style} {property : String} {v : Value} :
    s.value? property = some v ↔ s.get? property = some (some v) := by
  simp [value?, Option.join_eq_some_iff]

end Style

end HookStyle
