import HookStyle.Error
import HookStyle.Hook.Name
import HookStyle.Tree.Layers

/-!
# Hook registries

The hooks of an engine, in the order of their registration, which is also the order of
their rules in the style sheet. Declarations are compiled against a registry: a hook that
it does not hold is refused before anything is compiled.

* `nodup_dropRepeated`: a name is registered once; its later repetitions are dropped.
* `contains_iff`: the registry contains exactly the names of its hooks.
-/

namespace HookStyle

open Css

/-- Distinct hooks, the layout of all text, and the keyword for a missing value. -/
structure Registry where
  hooks : List Hook
  names_nodup : (hooks.map Hook.name).Nodup
  layout : Layout
  fallback : String

namespace Registry

/-- The hooks with the given names, or the error of the first text that names none. -/
def hooksOf : List String → Except StyleError (List Hook)
  | [] => .ok []
  | name :: names =>
    match Hook.ofName? name with
    | none => .error (.invalidHook name)
    | some hook => (hooksOf names).map (hook :: ·)

/-- The hooks that are not in `seen`, each once. -/
def dropRepeated (seen : List String) : List Hook → List Hook
  | [] => []
  | hook :: hooks =>
    if hook.name ∈ seen then dropRepeated seen hooks
    else hook :: dropRepeated (hook.name :: seen) hooks

theorem name_of_mem_dropRepeated {seen : List String} {hooks : List Hook} {hook : Hook}
    (h : hook ∈ dropRepeated seen hooks) : hook.name ∉ seen := by
  induction hooks generalizing seen with
  | nil => cases h
  | cons g hooks ih =>
    rw [dropRepeated] at h
    split at h
    · exact ih h
    next hg =>
      rcases List.mem_cons.mp h with rfl | h
      · exact hg
      · exact fun hs => ih h (List.mem_cons_of_mem _ hs)

/-- No name is kept twice. -/
theorem nodup_dropRepeated (seen : List String) (hooks : List Hook) :
    ((dropRepeated seen hooks).map Hook.name).Nodup := by
  induction hooks generalizing seen with
  | nil => exact List.nodup_nil
  | cons hook hooks ih =>
    rw [dropRepeated]
    split
    · exact ih seen
    · rw [List.map_cons, List.nodup_cons]
      refine ⟨?_, ih _⟩
      intro h
      obtain ⟨g, hg, hn⟩ := List.mem_map.mp h
      exact name_of_mem_dropRepeated hg (hn ▸ List.mem_cons_self)

def ofNames (names : List String) (layout : Layout) (fallback : String) :
    Except StyleError Registry :=
  (hooksOf names).map fun hooks =>
    ⟨dropRepeated [] hooks, nodup_dropRepeated [] hooks, layout, fallback⟩

def toggles (r : Registry) : ToggleSystem :=
  .ofHooks (r.hooks.map fun hook => (hook.name, hook.definition)) r.layout r.fallback

def contains (r : Registry) (name : String) : Bool := (r.hooks.map Hook.name).contains name

/-- Refuses a hook that is not registered. -/
def check (r : Registry) (name : String) : Except StyleError Unit :=
  if r.contains name then .ok () else .error (.unknownHook name)

def compileChains (r : Registry) (chains : OrderedMap Chain) : Except StyleError Style :=
  (r.toggles.compile chains).mapError .condition

def compile (r : Registry) (d : Declaration) : Except StyleError Style :=
  match d.unknownHook? r.contains with
  | some hook => .error (.unknownHook hook)
  | none => r.compileChains d.chains

theorem contains_iff {r : Registry} {name : String} :
    r.contains name ↔ ∃ hook ∈ r.hooks, hook.name = name := by
  simp [contains]

end Registry

end HookStyle
