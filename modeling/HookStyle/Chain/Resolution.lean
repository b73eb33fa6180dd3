import HookStyle.Css.Expression
import HookStyle.Hook.Condition
import HookStyle.Toggle.System

/-!
# Conditions as toggles

Every condition has a toggle. A hook's is its own, a negation's is its operand's with the
two sides swapped, and a compound condition of two or more operands gets helper properties:
a conjunction is false when some operand is false, since one invalid reference spoils the
whole value, and true when every nested fallback reaches an invalid reference. A
disjunction has the two sides exchanged.

* `resolve_hook`, `resolve_unknown`: the toggle of a hook, and its absence.
-/

namespace HookStyle

/-- Why a condition has no toggle. -/
inductive ConditionError where
  | unknownHook (name : String)
  | emptyAll
  | emptyAny
  deriving DecidableEq, Repr

def ConditionError.message : ConditionError → String
  | unknownHook name => "Hook '" ++ name ++ "' is not defined in this hook system"
  | emptyAll => "Empty 'and' condition"
  | emptyAny => "Empty 'or' condition"

structure Helper where
  name : String
  value : Css.Expression
  deriving Repr

/-- A condition's toggle, and the helpers it needs in the order of their use. -/
structure Resolution where
  toggle : Toggle
  helpers : List Helper
  deriving Repr

namespace Resolution

/-- The resolution of a compound condition from those of two or more operands. The helper
of the false side comes first. -/
def compound (id : String) (whenTrue whenFalse : Css.Expression) (operands : List Resolution) :
    Resolution where
  toggle := Toggle.ofId id
  helpers := operands.flatMap Resolution.helpers
    ++ [⟨(Toggle.ofId id).whenFalse, whenFalse⟩, ⟨(Toggle.ofId id).whenTrue, whenTrue⟩]

/-- The conjunction of the operands of a condition with identifier `id`. -/
def conjunction (id : String) : List Resolution → Except ConditionError Resolution
  | [] => .error .emptyAll
  | [r] => .ok r
  | r :: rs => .ok <| compound id
      (.nested r.toggle.whenTrue (rs.map (·.toggle.whenTrue)))
      (.joined r.toggle.whenFalse (rs.map (·.toggle.whenFalse))) (r :: rs)

/-- The disjunction of the operands of a condition with identifier `id`. -/
def disjunction (id : String) : List Resolution → Except ConditionError Resolution
  | [] => .error .emptyAny
  | [r] => .ok r
  | r :: rs => .ok <| compound id
      (.joined r.toggle.whenTrue (rs.map (·.toggle.whenTrue)))
      (.nested r.toggle.whenFalse (rs.map (·.toggle.whenFalse))) (r :: rs)

end Resolution

namespace ToggleSystem

mutual

def resolve (system : ToggleSystem) : Condition → Except ConditionError Resolution
  | .hook name =>
    match system.id? name with
    | some id => .ok ⟨Toggle.ofId id, []⟩
    | none => .error (.unknownHook name)
  | .not operand =>
    (system.resolve operand).map fun r => ⟨r.toggle.swap, r.helpers⟩
  | .all operands =>
    (system.resolveAll operands).bind
      (Resolution.conjunction (Identifier.ofCondition (Condition.all operands).text))
  | .any operands =>
    (system.resolveAll operands).bind
      (Resolution.disjunction (Identifier.ofCondition (Condition.any operands).text))

/-- The toggles of the operands, up to the first that has none. -/
def resolveAll (system : ToggleSystem) :
    List Condition → Except ConditionError (List Resolution)
  | [] => .ok []
  | c :: cs =>
    (system.resolve c).bind fun r => (system.resolveAll cs).map (r :: ·)

end

theorem resolve_hook {system : ToggleSystem} {name id : String} (h : system.id? name = some id) :
    system.resolve (.hook name) = .ok ⟨Toggle.ofId id, []⟩ := by
  simp [resolve, h]

theorem resolve_unknown {system : ToggleSystem} {name : String} (h : system.id? name = none) :
    system.resolve (.hook name) = .error (.unknownHook name) := by
  simp [resolve, h]

end ToggleSystem

end HookStyle
