import HookStyle.Chain.Compile
import HookStyle.Tree.Basic

/-!
# The layers of a tree

A tree is flattened into a base setting and overrides, each under the hooks on its way from
the root, the later before the earlier. The layers make the chain of a property.

* `chain?_leaf`: a leaf's chain is its setting.
-/

namespace HookStyle

open Css

/-- A setting that applies while all of its hooks are active. The outermost hook of the
tree comes first. -/
structure Override where
  hooks : List String
  setting : Setting

def Override.condition (o : Override) : Condition :=
  match o.hooks with
  | [hook] => .hook hook
  | hooks => .all (hooks.map .hook)

/-- What a tree says: a setting for when no hook is asked, and overrides, the lowest
precedence first. -/
structure Layers where
  base : Option Setting
  overrides : List Override

namespace Layers

/-- Puts a leaf under the given hooks in front of the layers. -/
def add (hooks : List String) (s : Setting) (layers : Layers) : Layers :=
  match hooks with
  | [] => { layers with base := some s }
  | _ :: _ => { layers with overrides := ⟨hooks, s⟩ :: layers.overrides }

def chain? (layers : Layers) : Option Chain :=
  match layers.base, layers.overrides with
  | none, [] => none
  | base, overrides => some ⟨base.join, overrides.map fun o => (o.condition, o.setting)⟩

end Layers

namespace Tree

mutual

/-- Puts the leaves of a tree that stands under `hooks`, the innermost first, in front of
the layers. -/
def gather (hooks : List String) (layers : Layers) : Tree → Layers
  | leaf s => layers.add hooks.reverse s
  | branch children => gatherAll hooks layers children

/-- Puts the leaves of children in front of the layers. -/
def gatherAll (hooks : List String) (layers : Layers) : List (String × Tree) → Layers
  | [] => layers
  | (key, t) :: rest =>
    t.gather (if key = defaultKey then hooks else key :: hooks) (gatherAll hooks layers rest)

end

def layers (t : Tree) : Layers := t.gather [] ⟨none, []⟩

/-- The chain of a tree, or `none` for a tree without leaves. -/
def chain? (t : Tree) : Option Chain := t.layers.chain?

theorem chain?_leaf (s : Setting) : (leaf s).chain? = some ⟨s, []⟩ := rfl

end Tree

/-! ## The hooks of a tree -/

namespace Tree

mutual

/-- The first hook of a tree that is not known. A branch is asked for its own keys before
its children are, and the children from the last to the first. -/
def unknownHook? (known : String → Bool) : Tree → Option String
  | leaf _ => none
  | branch children =>
    ((Entries.keys children).find? fun key => key ≠ defaultKey && !known key)
      <|> unknownBelow? known children

/-- The first hook that is not known below the keys of a branch. -/
def unknownBelow? (known : String → Bool) : List (String × Tree) → Option String
  | [] => none
  | (_, t) :: rest => unknownBelow? known rest <|> t.unknownHook? known

end

end Tree

namespace Declaration

/-- The first hook of a declaration that is not known, by the order of its properties. -/
def unknownHook? (known : String → Bool) (d : Declaration) : Option String :=
  d.entries.findSome? fun e => e.2.tree.unknownHook? known

/-- The chains of the properties that have one. -/
def chains (d : Declaration) : OrderedMap Chain := d.filterMap fun t => t.tree.chain?

end Declaration

end HookStyle
