import HookStyle.Css.Rule
import HookStyle.Hook.Identifier
import HookStyle.OrderedMap.Basic
import HookStyle.Toggle.Basic

/-!
# Toggle systems

A toggle system gives every one of its hooks a toggle, and writes the style sheet that
drives them: a universal rule that switches all hooks off, then one rule per hook that
switches it on.
-/

namespace HookStyle

/-- Hooks with their definitions, the layout of all text, and the keyword that stands for a
missing value. A definition with `&` is a selector in which `&` is the styled element; any
other is the prelude of an at-rule. -/
structure ToggleSystem where
  definitions : OrderedMap String
  layout : Css.Layout
  fallback : String

namespace ToggleSystem

/-- The keyword that stands for a missing value unless another is chosen. -/
def defaultFallback : String := "revert-layer"

/-- The system of the given hooks. A repeated name has its last definition. -/
def ofHooks (hooks : List (String × String)) (layout : Css.Layout) (fallback : String) :
    ToggleSystem :=
  ⟨OrderedMap.ofList hooks, layout, fallback⟩

/-- The identifier of a hook of the system. -/
def id? (system : ToggleSystem) (name : String) : Option String :=
  (system.definitions.get? name).map (Identifier.ofHook system.layout name)

/-- The hooks of the system with their identifiers and definitions, in order. -/
def hooks (system : ToggleSystem) : List (String × String) :=
  system.definitions.entries.map fun e => (Identifier.ofHook system.layout e.1 e.2, e.2)

/-! ## The style sheet -/

/-- The declarations that make a toggle false: `whenFalse` is invalid. -/
def switchOff (id : String) : List Css.Rule :=
  [.declaration (Toggle.ofId id).whenFalse "initial", .declaration (Toggle.ofId id).whenTrue ""]

/-- The declarations that make a toggle true: `whenTrue` is invalid. -/
def switchOn (id : String) : List Css.Rule :=
  [.declaration (Toggle.ofId id).whenFalse "", .declaration (Toggle.ofId id).whenTrue "initial"]

def isSelector (definition : String) : Bool := definition.toList.contains '&'

def selector (definition : String) : String :=
  definition.map fun c => if c = '&' then '*' else c

/-- The rule that switches a hook on. -/
def hookRule (id definition : String) : Css.Rule :=
  if isSelector definition then .block (selector definition) (switchOn id)
  else .block definition [.block "*" (switchOn id)]

def rules (system : ToggleSystem) : List Css.Rule :=
  .block "*" (system.hooks.flatMap fun h => switchOff h.1)
    :: system.hooks.map fun h => hookRule h.1 h.2

def sheet (system : ToggleSystem) : String := Css.Rule.sheet system.layout system.rules

/-- Every defined hook has an identifier. -/
theorem id?_isSome {system : ToggleSystem} {name : String} :
    (system.id? name).isSome ↔ name ∈ system.definitions.keys := by
  rw [id?, Option.isSome_map, ← OrderedMap.contains_iff]
  rfl

end ToggleSystem

end HookStyle
