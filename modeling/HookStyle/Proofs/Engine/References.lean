import HookStyle.Engine.Basic
import HookStyle.Proofs.Engine.Variables
import HookStyle.Proofs.Style.Mentions

/-!
# References to variables

The expression of a variable refers to its property and holds the text of its default. So a
property with this text shows the variable, and the default while the variable has no value.

* `Tree.displayed`: what the tree of a variable shows.
* `displayed_eq_none_iff`: only a tree that clears shows nothing.
* `evaluate_default`: the text of a default, beside a style that serves the default.
* `evaluate_expression`: the reference to a variable.
-/

namespace HookStyle

open Css Evaluation

/-! ## What a variable shows -/

namespace Tree

/-- No leaf gives a value, and none stands under a hook. So the tree is cleared, or a branch
whose only leaf is a cleared default, or it has no leaf. -/
def Clears (t : Tree) : Prop := ∀ l ∈ t.leaves, l.hooks = [] ∧ l.setting = none

instance (t : Tree) : Decidable t.Clears :=
  inferInstanceAs (Decidable (∀ l ∈ t.leaves, l.hooks = [] ∧ l.setting = none))

/-- What the tree of a variable shows: the setting that the tree selects, a number without a
unit. The fallback keyword stands for a missing value when the tree has leaves under hooks. -/
def displayed (system : ToggleSystem) (active : String → Bool) (t : Tree) : Computed :=
  let s := (t.selected active).bind Leaf.setting
  if t.hookLeaves = [] then s.map fun v => trim v.display.toList
  else some (trim ((s.map Value.display).getD system.fallback).toList)

variable {system : ToggleSystem} {active : String → Bool} {t : Tree}

/-- A property that takes plain numbers shows a setting as it is displayed anywhere. -/
theorem shown_eq_displayed {property : String} (h : Property.isUnitless property = true) :
    t.shown system property ((t.selected active).bind Leaf.setting)
      = t.displayed system active := by
  unfold shown displayed
  dsimp only
  cases (t.selected active).bind Leaf.setting with
  | none => rfl
  | some v => simp [ToggleSystem.renderSetting, Value.render_unitless h]

theorem selected_of_no_hooks (h : t.hookLeaves = []) : t.selected active = t.defaultLeaf? := by
  rw [selected, h]
  rfl

theorem clears_iff (ht : t.Keyed) :
    t.Clears ↔ t.hookLeaves = [] ∧ t.defaultLeaf?.bind Leaf.setting = none := by
  constructor
  · intro h
    refine ⟨List.filter_eq_nil_iff.mpr fun l hl => by simp [(h l hl).1], ?_⟩
    rw [Option.bind_eq_none_iff]
    intro l hl
    exact (h l (mem_of_defaultLeaf? hl)).2
  · rintro ⟨hhooks, hsetting⟩ l hl
    have hl' : l.hooks = [] := by simpa using List.filter_eq_nil_iff.mp hhooks l hl
    refine ⟨hl', ?_⟩
    rwa [(defaultLeaf?_eq_some ht).mpr ⟨hl, hl'⟩, Option.bind_some] at hsetting

/-- A variable shows nothing exactly when its tree clears it. -/
theorem displayed_eq_none_iff (ht : t.Keyed) : t.displayed system active = none ↔ t.Clears := by
  rw [clears_iff ht, displayed]
  split
  next h => simp [selected_of_no_hooks h, h]
  next h => simp [h]

theorem map_trim_displayed : (t.displayed system active).map trim = t.displayed system active := by
  unfold displayed
  dsimp only
  split
  · rw [Option.map_map]
    exact congrArg (Option.map · _) (funext fun v => trim_trim _)
  · rw [Option.map_some, trim_trim]

end Tree

/-! ## The text of a default -/

namespace ToggleSystem

variable {system : ToggleSystem} {active : String → Bool} {cs : List Condition} {style : Style}
  {name : String} {t : Tree}

/-- The text that a variable has for its default, where the variable is referred to. -/
theorem evaluate_default (hs : system.Separate cs)
    (hserved : ∀ l ∈ t.chain.links, system.Served cs style l.1) (hplain : t.IsPlain system)
    (hname : Property.isUnitless name = true) {v : Value}
    (hv : system.chainSetting name t.chain = some v) :
    closes 0 (v.render name).toList = true ∧
      evaluate (system.lookup active style) (v.render name).toList
        = t.displayed system active := by
  have hsettings := Tree.isPlain_settings hplain
  rw [← Tree.shown_eq_displayed hname, Tree.shown]
  by_cases hlinks : t.chain.links = []
  · have hhooks : t.hookLeaves = [] := List.map_eq_nil_iff.mp hlinks
    have hbase : t.chain.base = some v := by rwa [chainSetting, hlinks] at hv
    have hvplain : Evaluation.isPlain (v.render name) = true := by
      refine Value.isPlain_render name ?_
      have := hsettings _ List.mem_cons_self
      rwa [hbase] at this
    refine ⟨closes_of_isPlain hvplain, ?_⟩
    rw [if_pos hhooks, Tree.selected_of_no_hooks hhooks]
    change _ = t.chain.base.map _
    rw [hbase, evaluate, expand_of_isPlain _ hvplain]
    rfl
  · have hhooks : t.hookLeaves ≠ [] := fun h => hlinks (List.map_eq_nil_iff.mpr h)
    rw [chainSetting_of_links hlinks] at hv
    obtain rfl := Option.some.inj hv
    have hreadable : (system.chainExpression name t.chain).Readable :=
      readable_chainExpression name (fun l hl => (hserved l hl).resolves) hsettings
    refine ⟨Expression.closes_render system.layout hreadable, ?_⟩
    rw [if_neg hhooks, Value.render_text, evaluate_chainExpression hs hserved hsettings,
      Tree.select_chain]

end ToggleSystem

/-! ## References to variables -/

namespace Engine

variable {engine : Engine} {ds : List Declaration} {d : Definition} {t : KeyedTree}

/-- The style of a variable sets it to the expression of its tree, unless the tree has no
leaves. -/
theorem value?_definition (h : engine.registry.Admits ds) (hd : .single d.name t ∈ ds)
    (hc : engine.inline (.single d.name t) = .ok d.style)
    (hname : d.name ∉ ToggleSystem.helperNames (conjunctions ds)) :
    d.style.value? d.name = if t.tree.leaves = [] then none
      else engine.registry.toggles.chainSetting d.name t.tree.chain := by
  rw [Style.value?, Registry.get?_compile h hd hc hname, OrderedMap.get?_single,
    Option.bind_some]
  split <;> rfl

/-- A reference to a variable shows the variable, and the default when it has no value. -/
theorem evaluate_expression (active : String → Bool) (h : engine.registry.Admits ds)
    (hd : .single d.name t ∈ ds) (hc : engine.inline (.single d.name t) = .ok d.style)
    (hn : isName d.name = true) (hunitless : Property.isUnitless d.name = true)
    (hname : d.name ∉ ToggleSystem.helperNames (conjunctions ds))
    (hplain : t.tree.IsPlain engine.registry.toggles) {style : Style}
    (hserved : ∀ l ∈ t.tree.chain.links,
      engine.registry.toggles.Served (conjunctions ds) style l.1) (layout : Layout) :
    evaluate (engine.registry.toggles.lookup active style) (d.expression layout).toList =
      ((engine.registry.toggles.lookup active style d.name).or
        (t.tree.displayed engine.registry.toggles active)).map trim := by
  have hvalue := value?_definition h hd hc hname
  unfold Definition.expression
  split
  next v hv =>
    rw [hv] at hvalue
    split at hvalue
    · cases hvalue
    obtain ⟨hcloses, heval⟩ := ToggleSystem.evaluate_default h.separate hserved hplain hunitless
      hvalue.symm
    have hreadable : (Expression.varOr d.name (.raw (v.render d.name))).Readable := ⟨hn, hcloses⟩
    rw [Expression.evaluate_render _ _ hreadable, Expression.value, Expression.value, ← heval]
    rfl
  next hv =>
    rw [hv] at hvalue
    have hreadable : (Expression.var d.name).Readable := hn
    have hnone : t.tree.displayed engine.registry.toggles active = none := by
      rw [Tree.displayed_eq_none_iff t.keyed, Tree.clears_iff t.keyed]
      split at hvalue
      next hleaves => simp [Tree.hookLeaves, Tree.defaultLeaf?, Tree.defaultOf, hleaves]
      next hleaves =>
        have hlinks : t.tree.chain.links = [] := by
          by_contra hne
          rw [ToggleSystem.chainSetting_of_links hne] at hvalue
          cases hvalue
        rw [ToggleSystem.chainSetting, hlinks] at hvalue
        exact ⟨List.map_eq_nil_iff.mp hlinks, hvalue.symm⟩
    rw [Expression.evaluate_render _ _ hreadable, Expression.value, hnone, Option.or_none]

end Engine

end HookStyle
