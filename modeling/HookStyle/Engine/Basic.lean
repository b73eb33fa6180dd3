import HookStyle.Engine.Config
import HookStyle.Engine.Variables
import HookStyle.Engine.Registry
import HookStyle.Style.Keyframes
import HookStyle.Style.Merge
import HookStyle.Style.Parametric

/-!
# Engines

An engine compiles declarations against its hooks, and hands out custom properties and
keyframe names. Operations that use up a number return the engine after them, whether they
succeed or not; all others leave the engine as it is.
-/

namespace HookStyle

open Css

/-- A configuration at work. -/
structure Engine where
  config : Config
  registry : Registry
  table : VariableTable
  animations : AnimationStore

/-- The overrides of a group's variables, as a style. -/
structure Theme where
  style : Style

def Theme.agrees (t u : Theme) : Bool := t.style.agrees u.style

/-- Styles by name, in the order of their creation. -/
abbrev StyleSet := OrderedMap Style

/-- Equality of sets, which does not regard the order. -/
def StyleSet.agrees (s t : StyleSet) : Bool := s.sameEntries Style.agrees t

namespace Engine

def ofConfig (config : Config) : Except StyleError Engine :=
  config.validate.bind fun _ =>
    (Registry.ofNames config.hooks config.layout config.fallback).map fun registry =>
      ⟨config, registry, .empty, .empty config.namePart config.layout⟩

def sheet (engine : Engine) : String := engine.registry.toggles.sheet

/-! ## Styles -/

def inline (engine : Engine) (d : Declaration) : Except StyleError Style :=
  engine.registry.compile d

/-- The styles of named declarations, up to the first that fails. -/
def styles (engine : Engine) :
    List (String × Declaration) → Except StyleError (List (String × Style))
  | [] => .ok []
  | (name, d) :: rest =>
    (engine.inline d).bind fun s => (engine.styles rest).map ((name, s) :: ·)

/-- The set of the styles of named declarations. A repeated name has its last style. -/
def create (engine : Engine) (ds : List (String × Declaration)) : Except StyleError StyleSet :=
  (engine.styles ds).map OrderedMap.ofList

/-- Compiles a declaration over `arity` parameters. It is made from references to the
parameters, which are used up even if there is none or it does not compile. -/
def createParametric (engine : Engine) (arity : Nat)
    (declare : List String → Except StyleError Declaration) :
    Except StyleError ParametricStyle × Engine :=
  let parameters := engine.table.fresh engine.config.namePart arity
  let references := parameters.map fun name => (Expression.var name).render engine.config.layout
  (((declare references).bind engine.inline).map fun s => ⟨s, parameters⟩,
    { engine with table := engine.table.advance arity })

/-! ## Variables -/

/-- A variable that has been compiled: its key, its property, and the style of the property
alone. -/
structure Definition where
  key : String
  name : String
  style : Style

namespace Definition

/-- The expression that stands for a variable: a reference, with the default if there is
one. -/
def expression (layout : Layout) (d : Definition) : String :=
  match d.style.value? d.name with
  | some v => (Expression.varOr d.name (.raw (v.render d.name))).render layout
  | none => (Expression.var d.name).render layout

/-- The helper properties that a variable's default needs. -/
def helpers (d : Definition) : Style := d.style.erase d.name

end Definition

/-- Compiles the defaults of variables from number `n` on, each to a property of its own. The
second part is the next number, behind the first default that fails. -/
def define (engine : Engine) :
    Nat → List (String × KeyedTree) → Except StyleError (List Definition) × Nat
  | n, [] => (.ok [], n)
  | n, (key, t) :: rest =>
    let name := VariableTable.nameOf engine.config.namePart n
    match engine.inline (.single name t) with
    | .error e => (.error e, n + 1)
    | .ok s =>
      let (ds, next) := engine.define (n + 1) rest
      (ds.map (⟨key, name, s⟩ :: ·), next)

def groupOf (layout : Layout) (ds : List Definition) : VariableGroup where
  expressions := .ofList (ds.map fun d => (d.key, d.expression layout))
  helpers := ds.foldl (fun style d => style.insertAll d.helpers.entries) .empty

/-- Remembers the expressions of compiled variables. -/
def recordAll (layout : Layout) (table : VariableTable) (ds : List Definition) : VariableTable :=
  ds.foldl (fun acc d => acc.record (d.expression layout) d.name) table

/-- Defines a group of variables with the given defaults. Their expressions are remembered
only if all defaults compile. -/
def defineVariables (engine : Engine) (defaults : Declaration) :
    Except StyleError VariableGroup × Engine :=
  let (result, next) := engine.define engine.table.next defaults.entries
  let table := { engine.table with next := next }
  match result with
  | .error e => (.error e, { engine with table := table })
  | .ok ds =>
    (.ok (groupOf engine.config.layout ds),
      { engine with table := recordAll engine.config.layout table ds })

/-- The property that a group's key stands for on this engine. -/
def property (engine : Engine) (group : VariableGroup) (key : String) :
    Except StyleError String :=
  match group.expressions.get? key with
  | none => .error (.unknownVariable key)
  | some expression =>
    match engine.table.lookup expression with
    | none => .error (.foreignVariable expression)
    | some name => .ok name

/-- The overrides of a theme, each under its property, up to the first key that has none. -/
def overrides (engine : Engine) (group : VariableGroup) :
    List (String × KeyedTree) → Except StyleError (List (String × KeyedTree))
  | [] => .ok []
  | (key, t) :: rest =>
    (engine.property group key).bind fun name =>
      (engine.overrides group rest).map ((name, t) :: ·)

def createTheme (engine : Engine) (group : VariableGroup) (d : Declaration) :
    Except StyleError Theme :=
  (engine.overrides group d.entries).bind fun es =>
    (engine.inline (.ofList es)).map Theme.mk

/-! ## Keyframes -/

def animate (engine : Engine) (animation : Animation) : String × Engine :=
  let (name, animations) := engine.animations.register animation
  (name, { engine with animations := animations })

def keyframeSheet (engine : Engine) (names : List String) : Except StyleError String :=
  engine.animations.sheet names

end Engine

end HookStyle
