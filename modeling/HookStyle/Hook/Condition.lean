/-!
# Conditions over hooks

A condition is a hook or a combination of conditions. Its text is canonical: helper
properties take their names from it.

* `holds`: the Boolean reading of a condition in a state of the hooks.
* `hooks`: the hooks that a condition names, in the order of its text.
-/

namespace HookStyle

inductive Condition where
  | hook (name : String)
  | all (operands : List Condition)
  | any (operands : List Condition)
  | not (operand : Condition)
  deriving Repr

namespace Condition

mutual

/-- The canonical text of a condition. -/
def text : Condition → String
  | hook name => name
  | all operands => "and(" ++ ", ".intercalate (texts operands) ++ ")"
  | any operands => "or(" ++ ", ".intercalate (texts operands) ++ ")"
  | not operand => "not(" ++ operand.text ++ ")"

def texts : List Condition → List String
  | [] => []
  | c :: cs => c.text :: texts cs

end

mutual

/-- The hooks that a condition names, in order and with repetitions. -/
def hooks : Condition → List String
  | hook name => [name]
  | all operands => hooksOf operands
  | any operands => hooksOf operands
  | not operand => operand.hooks

def hooksOf : List Condition → List String
  | [] => []
  | c :: cs => c.hooks ++ hooksOf cs

end

mutual

/-- Whether a condition holds when exactly the hooks of `active` are active. -/
def holds (active : String → Bool) : Condition → Bool
  | hook name => active name
  | all operands => allHold active operands
  | any operands => anyHolds active operands
  | not operand => !operand.holds active

def allHold (active : String → Bool) : List Condition → Bool
  | [] => true
  | c :: cs => c.holds active && allHold active cs

def anyHolds (active : String → Bool) : List Condition → Bool
  | [] => false
  | c :: cs => c.holds active || anyHolds active cs

end

theorem texts_eq_map (cs : List Condition) : texts cs = cs.map text := by
  induction cs with
  | nil => rfl
  | cons c cs ih => simp [texts, ih]

theorem hooksOf_eq_flatMap (cs : List Condition) : hooksOf cs = cs.flatMap hooks := by
  induction cs with
  | nil => rfl
  | cons c cs ih => simp [hooksOf, ih]

/-- A conjunction holds when all of its operands do, so the empty one holds. -/
theorem allHold_eq_all (active : String → Bool) (cs : List Condition) :
    allHold active cs = cs.all (holds active) := by
  induction cs with
  | nil => rfl
  | cons c cs ih => simp [allHold, ih]

theorem anyHolds_eq_any (active : String → Bool) (cs : List Condition) :
    anyHolds active cs = cs.any (holds active) := by
  induction cs with
  | nil => rfl
  | cons c cs ih => simp [anyHolds, ih]

end Condition

end HookStyle
