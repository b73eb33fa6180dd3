import HookStyle.Error
import HookStyle.Style.Basic

/-!
# Parametric styles

A style compiled once over parameters, each a custom property. Applying it to arguments
sets the parameters behind the compiled properties, and compiles nothing anew.

* `apply_eq_error_iff`: the only failure is a wrong number of arguments.
-/

namespace HookStyle

open Css

/-- A compiled style and the custom properties that stand for its arguments. -/
structure ParametricStyle where
  template : Style
  parameters : List String

namespace ParametricStyle

def arity (p : ParametricStyle) : Nat := p.parameters.length

/-- The style for the given arguments. -/
def apply (p : ParametricStyle) (arguments : List Value) : Except StyleError Style :=
  if arguments.length = p.arity then
    .ok (p.template.insertAll (p.parameters.zip (arguments.map some)))
  else .error (.arityMismatch p.arity arguments.length)

/-- Equality of parametric styles: of the templates, and of the parameters in order. -/
def agrees (p q : ParametricStyle) : Bool :=
  p.template.agrees q.template && p.parameters == q.parameters

theorem apply_eq_error_iff {p : ParametricStyle} {arguments : List Value} {e : StyleError} :
    p.apply arguments = .error e ↔
      arguments.length ≠ p.arity ∧ e = .arityMismatch p.arity arguments.length := by
  unfold apply
  split
  next h => simp [h]
  next h => simp [h, eq_comm]

end ParametricStyle

end HookStyle
