import HookStyle.Proofs.Chain.Soundness
import HookStyle.Tree.Layers

/-!
# The leaves of a tree

The leaves of a tree in depth-first order, each with the keys on its way from the root. A
leaf stands under the hooks among its keys; it is a default leaf when all of its keys are
the word `default`.

* `layers_eq`: the layers of a tree are its default leaf and, in order, its other leaves.
* `eq_of_hooks_eq_nil`: there is at most one default leaf.
* `select_chain`: the chain of a tree shows the last leaf whose hooks are all active, and
  the default leaf when there is none.
-/

namespace HookStyle

open Css

/-- A setting of a tree, with the keys on its way from the root. -/
structure Leaf where
  path : List String
  setting : Setting

namespace Leaf

/-- The hooks that a leaf stands under, the outermost first. -/
def hooks (l : Leaf) : List String := l.path.filter (· ≠ Tree.defaultKey)

/-- The leaf in a tree that has its own tree under a key. -/
def under (key : String) (l : Leaf) : Leaf := ⟨key :: l.path, l.setting⟩

/-- Whether all hooks of a leaf are active. -/
def applies (active : String → Bool) (l : Leaf) : Bool := l.hooks.all active

def condition (l : Leaf) : Condition := Override.condition ⟨l.hooks, l.setting⟩

/-- The condition of a leaf holds when all hooks above it are active. -/
theorem holds_condition (active : String → Bool) (l : Leaf) :
    l.condition.holds active = l.applies active := by
  unfold condition Override.condition applies
  split
  next hook h =>
    dsimp only at h
    rw [h]
    simp [Condition.holds]
  next hooks _ =>
    rw [Condition.holds, Condition.allHold_eq_all, List.all_map]
    rfl

theorem compoundsOf_map_hook (hooks : List String) :
    Condition.compoundsOf (hooks.map .hook) = [] := by
  rw [Condition.compoundsOf_eq_flatMap, List.flatMap_map, List.flatMap_eq_nil_iff]
  intro name _
  exact rfl

theorem compounds_condition (l : Leaf) :
    l.condition.compounds = if 2 ≤ l.hooks.length then [.all (l.hooks.map .hook)] else [] := by
  unfold condition Override.condition
  split
  next hook h =>
    dsimp only at h
    rw [h]
    rfl
  next hooks _ =>
    rw [Condition.compounds, compoundsOf_map_hook, List.length_map]
    rfl

theorem resolves_condition {system : ToggleSystem} (l : Leaf) (hne : l.hooks ≠ [])
    (h : ∀ hook ∈ l.hooks, (system.id? hook).isSome) : system.Resolves l.condition := by
  unfold condition Override.condition
  split
  next hook hh =>
    dsimp only at hh
    exact ToggleSystem.resolves_hook.mpr (h hook (by simp [hh]))
  next hooks _ =>
    refine ToggleSystem.resolves_all.mpr ⟨by simpa using hne, ?_⟩
    intro c hc
    obtain ⟨hook, hm, rfl⟩ := List.mem_map.mp hc
    exact ToggleSystem.resolves_hook.mpr (h hook hm)

@[simp] theorem setting_under (key : String) (l : Leaf) : (l.under key).setting = l.setting := rfl

@[simp] theorem path_under (key : String) (l : Leaf) : (l.under key).path = key :: l.path := rfl

theorem hooks_under_default (l : Leaf) : (l.under Tree.defaultKey).hooks = l.hooks := by
  simp [hooks]

theorem hooks_under {key : String} (h : key ≠ Tree.defaultKey) (l : Leaf) :
    (l.under key).hooks = key :: l.hooks := by
  simp [hooks, h]

theorem under_injective {key : String} {l k : Leaf} (h : l.under key = k.under key) : l = k := by
  obtain ⟨path, setting⟩ := l
  obtain ⟨path', setting'⟩ := k
  cases h
  rfl

end Leaf

namespace Tree

mutual

/-- The leaves of a tree in depth-first order. -/
def leaves : Tree → List Leaf
  | leaf s => [⟨[], s⟩]
  | branch children => leavesAll children

def leavesAll : List (String × Tree) → List Leaf
  | [] => []
  | (key, t) :: rest => t.leaves.map (Leaf.under key) ++ leavesAll rest

end

theorem mem_leavesAll {children : List (String × Tree)} {l : Leaf} :
    l ∈ leavesAll children ↔ ∃ e ∈ children, ∃ k ∈ e.2.leaves, k.under e.1 = l := by
  induction children with
  | nil => simp [leavesAll]
  | cons e children ih =>
    obtain ⟨key, t⟩ := e
    simp [leavesAll, ih]

/-! ## The layers -/

/-- Puts leaves under the given hooks in front of the layers. -/
def addLeaves (hooks : List String) (layers : Layers) (ls : List Leaf) : Layers :=
  ls.foldr (fun l acc => acc.add (hooks.reverse ++ l.hooks) l.setting) layers

theorem addLeaves_under (hooks : List String) (layers : Layers) (key : String) (ls : List Leaf) :
    addLeaves hooks layers (ls.map (Leaf.under key))
      = addLeaves (if key = defaultKey then hooks else key :: hooks) layers ls := by
  unfold addLeaves
  rw [List.foldr_map]
  split
  next hk => simp only [hk, Leaf.hooks_under_default, Leaf.setting_under]
  next hk =>
    simp only [Leaf.hooks_under hk, Leaf.setting_under, List.reverse_cons, List.append_assoc,
      List.singleton_append]

mutual

/-- Gathering a tree adds its leaves one by one. -/
theorem gather_eq (hooks : List String) (layers : Layers) (t : Tree) :
    t.gather hooks layers = addLeaves hooks layers t.leaves := by
  cases t with
  | leaf s => simp [gather, leaves, addLeaves, Leaf.hooks]
  | branch children => rw [gather, leaves, gatherAll_eq]

theorem gatherAll_eq (hooks : List String) (layers : Layers) (children : List (String × Tree)) :
    gatherAll hooks layers children = addLeaves hooks layers (leavesAll children) := by
  match children with
  | [] => rfl
  | (key, t) :: rest =>
    rw [gatherAll, gather_eq, gatherAll_eq, leavesAll, ← addLeaves_under]
    unfold addLeaves
    rw [List.foldr_append]

end

def defaultOf (ls : List Leaf) : Option Leaf := ls.find? fun l => l.hooks.isEmpty

/-- The leaf of a tree that stands under no hook. -/
def defaultLeaf? (t : Tree) : Option Leaf := defaultOf t.leaves

theorem defaultOf_eq_none {ls : List Leaf} : defaultOf ls = none ↔ ∀ l ∈ ls, l.hooks ≠ [] := by
  simp [defaultOf, List.find?_eq_none]

/-- The leaves that stand under hooks, in depth-first order. -/
def hookLeaves (t : Tree) : List Leaf := t.leaves.filter fun l => !l.hooks.isEmpty

theorem addLeaves_nil (ls : List Leaf) :
    addLeaves [] ⟨none, []⟩ ls =
      ⟨(defaultOf ls).map Leaf.setting,
        (ls.filter fun l => !l.hooks.isEmpty).map fun l => ⟨l.hooks, l.setting⟩⟩ := by
  induction ls with
  | nil => rfl
  | cons l ls ih =>
    change Layers.add ([].reverse ++ l.hooks) l.setting (addLeaves [] ⟨none, []⟩ ls) = _
    rw [ih, List.reverse_nil, List.nil_append]
    cases hl : l.hooks with
    | nil => simp [Layers.add, defaultOf, hl]
    | cons hook hooks => simp [Layers.add, defaultOf, hl]

/-- The layers of a tree are its default leaf and, in order, its leaves under hooks. -/
theorem layers_eq (t : Tree) :
    t.layers =
      ⟨t.defaultLeaf?.map Leaf.setting, t.hookLeaves.map fun l => ⟨l.hooks, l.setting⟩⟩ := by
  rw [layers, gather_eq]
  exact addLeaves_nil t.leaves

/-! ## The default leaf -/

/-- Induction with a hypothesis for every child. -/
@[elab_as_elim]
theorem childInduction {motive : Tree → Prop} (leaf : ∀ s, motive (.leaf s))
    (branch : ∀ children, (∀ e ∈ children, motive e.2) → motive (.branch children)) :
    ∀ t, motive t
  | .leaf s => leaf s
  | .branch children => branch children fun e _ => childInduction leaf branch e.2
termination_by t => sizeOf t
decreasing_by
  have := List.sizeOf_lt_of_mem ‹e ∈ children›
  obtain ⟨key, t⟩ := e
  simp only [Prod.mk.sizeOf_spec, Tree.branch.sizeOf_spec] at this ⊢
  omega

/-- A keyed tree has at most one leaf that no hook stands above. -/
theorem eq_of_hooks_eq_nil {t : Tree} (ht : t.Keyed) {l k : Leaf} (hl : l ∈ t.leaves)
    (hk : k ∈ t.leaves) (hlh : l.hooks = []) (hkh : k.hooks = []) : l = k := by
  induction t using childInduction generalizing l k with
  | leaf s =>
    rw [leaves, List.mem_singleton] at hl hk
    rw [hl, hk]
  | branch children ih =>
    obtain ⟨hnodup, hchildren⟩ := keyed_branch.mp ht
    obtain ⟨⟨key, u⟩, he, l, hlu, rfl⟩ := mem_leavesAll.mp hl
    obtain ⟨⟨key', u'⟩, he', k, hku, rfl⟩ := mem_leavesAll.mp hk
    -- only the child with the key `default` can have a default leaf
    have hdefault : ∀ key : String, ∀ l : Leaf, (l.under key).hooks = [] → key = defaultKey := by
      intro key l h
      by_contra hne
      rw [Leaf.hooks_under hne] at h
      cases h
    obtain rfl := hdefault key l hlh
    obtain rfl := hdefault key' k hkh
    obtain rfl : u = u' := Option.some.inj
      ((Entries.lookup_of_mem hnodup he).symm.trans (Entries.lookup_of_mem hnodup he'))
    rw [Leaf.hooks_under_default] at hlh hkh
    rw [ih _ he (childrenKeyed_iff.mp hchildren _ he) hlu hku hlh hkh]

theorem mem_of_defaultLeaf? {t : Tree} {l : Leaf} (h : t.defaultLeaf? = some l) : l ∈ t.leaves :=
  List.mem_of_find?_eq_some h

/-- The default leaf is the leaf under no hook. -/
theorem defaultLeaf?_eq_some {t : Tree} (ht : t.Keyed) {l : Leaf} :
    t.defaultLeaf? = some l ↔ l ∈ t.leaves ∧ l.hooks = [] := by
  have hhooks : ∀ k, t.defaultLeaf? = some k → k.hooks = [] := fun k hk => by
    simpa using List.find?_some hk
  constructor
  · exact fun h => ⟨mem_of_defaultLeaf? h, hhooks l h⟩
  · rintro ⟨hl, hl'⟩
    cases hk : t.defaultLeaf? with
    | none => exact absurd hl' (defaultOf_eq_none.mp hk l hl)
    | some k => rw [eq_of_hooks_eq_nil ht hl (mem_of_defaultLeaf? hk) hl' (hhooks k hk)]

/-! ## The chain -/

/-- The chain of a tree that has a leaf. -/
def chain (t : Tree) : Chain where
  base := t.defaultLeaf?.bind Leaf.setting
  links := t.hookLeaves.map fun l => (l.condition, l.setting)

theorem chain?_eq (t : Tree) : t.chain? = if t.leaves = [] then none else some t.chain := by
  rw [chain?, layers_eq, Layers.chain?]
  split
  next hb ho =>
    dsimp only at hb ho
    rw [if_pos]
    rw [Option.map_eq_none_iff, defaultLeaf?, defaultOf_eq_none] at hb
    rw [List.map_eq_nil_iff, hookLeaves, List.filter_eq_nil_iff] at ho
    rw [List.eq_nil_iff_forall_not_mem]
    intro l hl
    exact ho l hl (by simpa using hb l hl)
  next hne =>
    dsimp only at hne
    rw [if_neg]
    · rw [chain, List.map_map]
      cases t.defaultLeaf? <;> rfl
    · intro h
      exact hne (by simp [defaultLeaf?, defaultOf, h]) (by simp [hookLeaves, h])

/-- The leaf that a tree shows: the last one under hooks that are all active, else the
default leaf. -/
def selected (active : String → Bool) (t : Tree) : Option Leaf :=
  (t.hookLeaves.filter (Leaf.applies active)).getLast?.or t.defaultLeaf?

/-- The chain of a tree selects the setting of the selected leaf. -/
theorem select_chain (active : String → Bool) (t : Tree) :
    t.chain.select active = (t.selected active).bind Leaf.setting := by
  have hlinks : t.chain.links.filter (fun l => l.1.holds active) =
      (t.hookLeaves.filter (Leaf.applies active)).map fun l => (l.condition, l.setting) := by
    rw [chain, List.filter_map]
    congr 2
    funext l
    exact l.holds_condition active
  rw [Chain.select, hlinks, List.getLast?_map, selected]
  cases (t.hookLeaves.filter (Leaf.applies active)).getLast? with
  | none => rfl
  | some l => rfl

end Tree

end HookStyle
