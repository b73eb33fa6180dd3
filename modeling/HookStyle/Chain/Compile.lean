import HookStyle.Chain.Resolution
import HookStyle.Style.Basic

/-!
# Fallback chains

A chain is a base setting and links, each a setting under a condition; later links come
before earlier ones. It compiles into one expression: every link asks its condition's
toggle and hands on to the links before it, the innermost being the base.

* `compileChain_of_no_links`: a chain without links is its base, unchanged.
-/

namespace HookStyle

open Css

/-- The settings of one property, the later before the earlier. -/
structure Chain where
  base : Setting
  links : List (Condition × Setting)

namespace ToggleSystem

/-- The text of a setting of a property, the fallback keyword when there is no value. -/
def renderSetting (system : ToggleSystem) (property : String) (s : Setting) : String :=
  match s with
  | some v => v.render property
  | none => system.fallback

/-- Chooses `value` while the toggle is true, and `otherwise` while it is false. -/
def choose (toggle : Toggle) (value : String) (otherwise : Expression) : Expression :=
  .beside (.varOr toggle.whenTrue (.raw value)) (.varOr toggle.whenFalse otherwise)

/-- Puts the links, in order, around an expression; the helpers they need come along. -/
def compileLinks (system : ToggleSystem) (property : String) :
    List (Condition × Setting) → List Helper → Expression →
      Except ConditionError (List Helper × Expression)
  | [], helpers, inner => .ok (helpers, inner)
  | (condition, setting) :: links, helpers, inner =>
    (system.resolve condition).bind fun r =>
      system.compileLinks property links (helpers ++ r.helpers)
        (choose r.toggle (system.renderSetting property setting) inner)

/-- The setting of a property that has a chain, and the helpers it needs. -/
def compileChain (system : ToggleSystem) (property : String) (chain : Chain) :
    Except ConditionError (List Helper × Setting) :=
  match chain.links with
  | [] => .ok ([], chain.base)
  | links =>
    (system.compileLinks property links [] (.raw (system.renderSetting property chain.base))).map
      fun (helpers, value) => (helpers, some (.text (value.render system.layout)))

/-- A style with a helper, unless it already has a property of that name. -/
def addHelper (system : ToggleSystem) (style : Style) (helper : Helper) : Style :=
  style.insertNew helper.name (some (.text (helper.value.render system.layout)))

/-- A style with one more property, behind the helpers it needs. -/
def addProperty (system : ToggleSystem) (style : Style) (property : String) (chain : Chain) :
    Except ConditionError Style :=
  (system.compileChain property chain).map fun (helpers, setting) =>
    (helpers.foldl system.addHelper style).insert property setting

def addProperties (system : ToggleSystem) :
    List (String × Chain) → Style → Except ConditionError Style
  | [], style => .ok style
  | (property, chain) :: rest, style =>
    (system.addProperty style property chain).bind (system.addProperties rest)

def compile (system : ToggleSystem) (chains : OrderedMap Chain) : Except ConditionError Style :=
  system.addProperties chains.entries .empty

theorem compileChain_of_no_links {system : ToggleSystem} {property : String} {base : Setting} :
    system.compileChain property ⟨base, []⟩ = .ok ([], base) := rfl

end ToggleSystem

end HookStyle
