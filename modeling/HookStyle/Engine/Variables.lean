import HookStyle.Style.Basic

/-!
# Variables

Generated custom properties are numbered, and no number is used twice. A table remembers
which property stands behind an expression that was handed out.

* `lookup_record`: recording an expression changes the answer for that expression only.
-/

namespace HookStyle

open Css

/-- Keys with the expressions that stand for them, and the helper properties that the
defaults in these expressions need. -/
structure VariableGroup where
  expressions : OrderedMap String
  helpers : Style

/-- Equality of groups, which does not regard the order. -/
def VariableGroup.agrees (g h : VariableGroup) : Bool :=
  g.expressions.sameEntries (· == ·) h.expressions && g.helpers.agrees h.helpers

/-- The number of properties generated so far, and the properties behind expressions. -/
structure VariableTable where
  next : Nat
  names : OrderedMap String

namespace VariableTable

def empty : VariableTable := ⟨0, .empty⟩

def nameOf (namePart : String) (n : Nat) : String :=
  "--_" ++ namePart ++ "_var_" ++ toString n

/-- The custom properties of the next `count` numbers. -/
def fresh (table : VariableTable) (namePart : String) (count : Nat) : List String :=
  (List.range count).map fun i => nameOf namePart (table.next + i)

/-- The table after `count` more properties. -/
def advance (table : VariableTable) (count : Nat) : VariableTable :=
  { table with next := table.next + count }

/-- Remembers the property behind an expression. -/
def record (table : VariableTable) (expression name : String) : VariableTable :=
  { table with names := table.names.insert expression name }

def lookup (table : VariableTable) (expression : String) : Option String :=
  table.names.get? expression

/-- A recorded expression is found under its own text; the others are found as before. -/
theorem lookup_record (table : VariableTable) (expression name e : String) :
    (table.record expression name).lookup e
      = if e = expression then some name else table.lookup e :=
  OrderedMap.get?_insert table.names expression e name

end VariableTable

end HookStyle
