import HookStyle.Engine.Basic
import HookStyle.Proofs.Tree.Declarations

/-!
# The meaning of a declaration

In every state of the hooks, a property of a compiled declaration has the value of the leaf
that its tree selects: the last one whose hooks are all active, in depth-first order, and
the default leaf when there is none.

* `computed_of_served`: the value of a property in any style that has its chain and serves
  the conditions of its leaves.
* `computed_inline`: the value of a property in the style of its declaration, and what the
  style holds for a tree without leaves under hooks.
-/

namespace HookStyle

open Css Evaluation

/-- What a property with a tree shows when the tree gives it a setting. Without leaves under
hooks the style holds the setting itself, and a cleared property shows nothing; otherwise
it holds a text, in which the fallback keyword stands for a missing value. -/
def Tree.shown (system : ToggleSystem) (property : String) (t : Tree) (s : Setting) : Computed :=
  if t.hookLeaves = [] then s.map fun v => trim (v.render property).toList
  else some (trim (system.renderSetting property s).toList)

namespace ToggleSystem

variable {system : ToggleSystem} {active : String → Bool} {cs : List Condition} {style : Style}
  {property : String} {t : Tree}

theorem computed_of_served (hs : system.Separate cs)
    (hserved : ∀ l ∈ t.chain.links, system.Served cs style l.1)
    (hname : property ∉ helperNames cs)
    (hget : style.get? property = some (system.chainSetting property t.chain))
    (hplain : t.IsPlain system) :
    system.computed active style property =
      t.shown system property ((t.selected active).bind Leaf.setting) := by
  have hsettings := Tree.isPlain_settings hplain
  unfold Tree.shown
  split
  next hnone =>
    have hlinks : t.chain.links = [] := by rw [Tree.chain, hnone, List.map_nil]
    have hbase : system.chainSetting property t.chain = t.chain.base := by
      rw [chainSetting, hlinks]
    rw [hbase] at hget
    rw [computed_of_no_links hget (hsettings _ List.mem_cons_self), Tree.selected, hnone]
    rfl
  next hsome =>
    have hlinks : t.chain.links ≠ [] := by
      rw [Tree.chain]
      simpa using hsome
    have hsub : ∀ c ∈ t.chain.compounds, c ∈ cs := by
      intro c hc
      obtain ⟨l, hl, hc⟩ := List.mem_flatMap.mp hc
      exact (hserved l hl).within c hc
    have hname' : property ∉ helperNames t.chain.compounds :=
      fun h => hname (mem_helperNames_of_subset hsub h)
    rw [computed_of_links hs hserved hname' hlinks hget hsettings, Tree.select_chain]

end ToggleSystem

namespace Engine

theorem computed_of_get? {engine : Engine} (active : String → Bool) {ds : List Declaration}
    (h : engine.registry.Admits ds) {d : Declaration} (hd : d ∈ ds) {style : Style}
    (hc : engine.inline d = .ok style) {property : String} {t : KeyedTree}
    (ht : d.get? property = some t) (hplain : t.tree.IsPlain engine.registry.toggles) :
    engine.registry.toggles.computed active style property =
      t.tree.shown engine.registry.toggles property
        ((t.tree.selected active).bind Leaf.setting) := by
  by_cases hleaves : t.tree.leaves = []
  · have hnone := Registry.get?_compile_of_no_leaves h hd hc ht hleaves
    rw [ToggleSystem.computed_of_no_value (by rw [Style.value?, hnone]; rfl)]
    simp [Tree.shown, Tree.selected, Tree.hookLeaves, Tree.defaultLeaf?, Tree.defaultOf, hleaves]
  · have hk : property ∈ d.keys := Entries.mem_keys.mpr ⟨t, OrderedMap.mem_of_get? ht⟩
    exact ToggleSystem.computed_of_served h.separate (Registry.served_of_compile h hd hc ht)
      (h.names d hd property hk) (Registry.get?_compile_of_leaves hc ht hleaves) hplain

/-- The meaning of a property of a declaration. -/
theorem computed_inline (engine : Engine) (active : String → Bool) {d : Declaration}
    {style : Style} (hc : engine.inline d = .ok style) (h : engine.registry.Admits [d])
    {property : String} {t : KeyedTree} (ht : d.get? property = some t)
    (hplain : t.tree.IsPlain engine.registry.toggles) :
    engine.registry.toggles.computed active style property =
        t.tree.shown engine.registry.toggles property
          ((t.tree.selected active).bind Leaf.setting) ∧
      (t.tree.leaves = [] → style.get? property = none) ∧
      (∀ l, t.tree.leaves = [l] → l.hooks = [] → style.get? property = some l.setting) ∧
      ∀ l ∈ t.tree.leaves, ∀ k ∈ t.tree.leaves, l.hooks = [] → k.hooks = [] → l = k := by
  have hd : d ∈ [d] := List.mem_singleton.mpr rfl
  refine ⟨computed_of_get? active h hd hc ht hplain, ?_, ?_, ?_⟩
  · exact Registry.get?_compile_of_no_leaves h hd hc ht
  · intro l hl hh
    have hchain : t.tree.chain = ⟨l.setting, []⟩ := by
      simp [Tree.chain, Tree.defaultLeaf?, Tree.defaultOf, Tree.hookLeaves, hl, hh]
    rw [Registry.get?_compile_of_leaves hc ht (by simp [hl]), hchain]
    rfl
  · intro l hl k hk hlh hkh
    exact Tree.eq_of_hooks_eq_nil t.keyed hl hk hlh hkh

def hoverFocus : Engine where
  config := .withHooks [":hover", ":focus"]
  registry := ⟨[⟨":hover", .selector, by decide⟩, ⟨":focus", .selector, by decide⟩], by decide,
    .compact, ToggleSystem.defaultFallback⟩
  table := .empty
  animations := .empty Config.defaultNamePart .compact

theorem ofConfig_hoverFocus : ofConfig (.withHooks [":hover", ":focus"]) = .ok hoverFocus := rfl

theorem hoverFocus_distinctHooks : hoverFocus.registry.toggles.DistinctHooks := by
  have hs : hoverFocus.registry.toggles.Separate [] :=
    ToggleSystem.Separate.of_nodup (by decide +kernel)
  exact hs.hooks

def focusInHover : KeyedTree :=
  KeyedTree.empty.base (.literal (.text "black"))
    |>.on ":hover" (KeyedTree.empty.base (.literal (.text "red"))
      |>.on ":focus" (.literal (.text "blue")))

theorem isPlain_focusInHover : focusInHover.tree.IsPlain hoverFocus.registry.toggles := by
  decide +kernel

theorem computed_inline_hover : ∃ style,
    hoverFocus.inline (.single "color" focusInHover) = .ok style ∧
      hoverFocus.registry.toggles.computed (· == ":hover") style "color"
        = some "red".toList := by
  obtain ⟨style, hc⟩ : ∃ style, hoverFocus.inline (.single "color" focusInHover) = .ok style :=
    Registry.compile_succeeds_iff.mpr (by decide +kernel)
  have h : hoverFocus.registry.Admits [.single "color" focusInHover] :=
    ⟨hoverFocus_distinctHooks, by decide +kernel, by decide +kernel⟩
  exact ⟨style, hc,
    (computed_inline hoverFocus (· == ":hover") hc h rfl isPlain_focusInHover).1⟩

end Engine

end HookStyle
