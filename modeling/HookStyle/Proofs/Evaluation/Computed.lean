import HookStyle.Proofs.Evaluation.Expression
import HookStyle.Proofs.Hook.Identifier
import HookStyle.Style.Basic
import HookStyle.Toggle.System

/-!
# Computed values

The computed value of a property is the evaluation of its text. References to the toggles
of the hooks are answered by the state of the hooks, and all others by the computed values
of the same style. A property that is asked for while it is being computed is invalid, so
that every property of every style has a computed value.

* `computed_of_value?`: the evaluation of the property's text.
* `toggleState?_whenTrue`, `toggleState?_whenFalse`: the state of a hook's toggle, when no
  two hooks share an identifier.
-/

namespace HookStyle

open Css Evaluation

theorem OrderedMap.size_erase_lt {α : Type} {m : OrderedMap α} {key : String} {value : α}
    (h : m.get? key = some value) : (m.erase key).size < m.size := by
  have hm := OrderedMap.mem_of_get? h
  refine List.length_filter_lt_length_iff_exists.mpr ⟨_, hm, ?_⟩
  simp

namespace ToggleSystem

open Css.Expression (blankUnless)

/-- The value of a side of a toggle: the true side is invalid while the hook is active, and
blank otherwise; the false side is the other way round. -/
def toggleState? (system : ToggleSystem) (active : String → Bool) (name : String) :
    Option Computed :=
  system.definitions.entries.findSome? fun e =>
    let toggle := Toggle.ofId (Identifier.ofHook system.layout e.1 e.2)
    if name = toggle.whenTrue then some (blankUnless (active e.1))
    else if name = toggle.whenFalse then some (blankUnless (!active e.1))
    else none

/-- The computed value of a property of a style, in a state of the hooks. -/
def computed (system : ToggleSystem) (active : String → Bool) (style : Style)
    (property : String) : Computed :=
  match _ : style.value? property with
  | none => none
  | some v =>
    evaluate (fun name =>
      match system.toggleState? active name with
      | some state => state
      | none => system.computed active (style.erase property) name) (v.render property).toList
termination_by style.size
decreasing_by
  exact OrderedMap.size_erase_lt (Style.value?_eq_some_iff.mp ‹style.value? property = some v›)

/-- The value of a name that is asked for in a style. -/
def lookup (system : ToggleSystem) (active : String → Bool) (style : Style) (name : String) :
    Computed :=
  match system.toggleState? active name with
  | some state => state
  | none => system.computed active style name

/-- A property is evaluated in the style without it, so that it cannot refer to itself. -/
theorem computed_of_value? {system : ToggleSystem} {active : String → Bool} {style : Style}
    {property : String} {v : Value} (h : style.value? property = some v) :
    system.computed active style property =
      evaluate (system.lookup active (style.erase property)) (v.render property).toList := by
  rw [computed]
  split
  next hn =>
    rw [h] at hn
    cases hn
  next w hw =>
    obtain rfl := Option.some.inj (h.symm.trans hw)
    rfl

/-- A cleared property has no value, like one that is not mentioned. -/
theorem computed_of_no_value {system : ToggleSystem} {active : String → Bool} {style : Style}
    {property : String} (h : style.value? property = none) :
    system.computed active style property = none := by
  rw [computed]
  split
  · rfl
  next w hw =>
    rw [h] at hw
    cases hw

/-! ## The states of the toggles -/

def DistinctHooks (system : ToggleSystem) : Prop :=
  ∀ name name' id, system.id? name = some id → system.id? name' = some id → name = name'

theorem id?_of_mem {system : ToggleSystem} {e : String × String}
    (h : e ∈ system.definitions.entries) :
    system.id? e.1 = some (Identifier.ofHook system.layout e.1 e.2) := by
  rw [id?, OrderedMap.get?_of_mem h, Option.map_some]

/-- A hook has an identifier only if the system defines it. -/
theorem exists_mem_of_id? {system : ToggleSystem} {name id : String}
    (h : system.id? name = some id) :
    ∃ definition, (name, definition) ∈ system.definitions.entries ∧
      id = Identifier.ofHook system.layout name definition := by
  obtain ⟨definition, hd, rfl⟩ := Option.map_eq_some_iff.mp h
  exact ⟨definition, OrderedMap.mem_of_get? hd, rfl⟩

theorem isName_of_id? {system : ToggleSystem} {name id : String} (h : system.id? name = some id) :
    isName id = true := by
  obtain ⟨definition, -, rfl⟩ := exists_mem_of_id? h
  exact Identifier.isName_ofHook _ _ _

theorem findSome?_eq_of_unique {α β : Type} {f : α → Option β} {xs : List α} {b : β}
    (hf : ∀ a ∈ xs, f a = none ∨ f a = some b) (hx : ∃ a ∈ xs, f a = some b) :
    xs.findSome? f = some b := by
  cases h : xs.findSome? f with
  | none =>
    obtain ⟨a, ha, hb⟩ := hx
    rw [List.findSome?_eq_none_iff.mp h a ha] at hb
    cases hb
  | some c =>
    obtain ⟨a, ha, hc⟩ := List.exists_of_findSome?_eq_some h
    rcases hf a ha with hn | hb
    · rw [hn] at hc
      cases hc
    · exact hc.symm.trans hb

variable {system : ToggleSystem} {active : String → Bool}

/-- Without a collision, a toggle shows the state of its own hook. -/
theorem toggleState?_whenTrue (hd : system.DistinctHooks) {name id : String}
    (h : system.id? name = some id) :
    system.toggleState? active (Toggle.ofId id).whenTrue = some (blankUnless (active name)) := by
  obtain ⟨definition, hm, hid⟩ := exists_mem_of_id? h
  refine findSome?_eq_of_unique ?_ ⟨_, hm, ?_⟩
  · intro e he
    dsimp only
    split
    next hw =>
      have hi := Toggle.whenTrue_injective hw
      rw [hd _ _ _ (id?_of_mem he) (hi ▸ h)]
      exact Or.inr rfl
    next =>
      rw [if_neg (Toggle.whenTrue_ne_whenFalse _ _)]
      exact Or.inl rfl
  · dsimp only
    rw [if_pos (by rw [hid])]

theorem toggleState?_whenFalse (hd : system.DistinctHooks) {name id : String}
    (h : system.id? name = some id) :
    system.toggleState? active (Toggle.ofId id).whenFalse
      = some (blankUnless (!active name)) := by
  obtain ⟨definition, hm, hid⟩ := exists_mem_of_id? h
  refine findSome?_eq_of_unique ?_ ⟨_, hm, ?_⟩
  · intro e he
    dsimp only
    rw [if_neg (Toggle.whenTrue_ne_whenFalse _ _).symm]
    split
    next hw =>
      have hi := Toggle.whenFalse_injective hw
      rw [hd _ _ _ (id?_of_mem he) (hi ▸ h)]
      exact Or.inr rfl
    next => exact Or.inl rfl
  · dsimp only
    rw [if_neg (Toggle.whenTrue_ne_whenFalse _ _).symm, if_pos (by rw [hid])]

/-- The sides of a toggle that no hook owns have no state of their own. -/
theorem toggleState?_ofId_eq_none (active : String → Bool) {id : String}
    (h : ∀ name, system.id? name ≠ some id) :
    system.toggleState? active (Toggle.ofId id).whenTrue = none ∧
      system.toggleState? active (Toggle.ofId id).whenFalse = none := by
  refine ⟨List.findSome?_eq_none_iff.mpr ?_, List.findSome?_eq_none_iff.mpr ?_⟩
  · intro e he
    have hne : (Toggle.ofId id).whenTrue
        ≠ (Toggle.ofId (Identifier.ofHook system.layout e.1 e.2)).whenTrue := fun hw =>
      h e.1 (Toggle.whenTrue_injective hw ▸ id?_of_mem he)
    dsimp only
    rw [if_neg hne, if_neg (Toggle.whenTrue_ne_whenFalse _ _)]
  · intro e he
    have hne : (Toggle.ofId id).whenFalse
        ≠ (Toggle.ofId (Identifier.ofHook system.layout e.1 e.2)).whenFalse := fun hw =>
      h e.1 (Toggle.whenFalse_injective hw ▸ id?_of_mem he)
    dsimp only
    rw [if_neg (Toggle.whenTrue_ne_whenFalse _ _).symm, if_neg hne]

end ToggleSystem

end HookStyle
