import HookStyle.Proofs.Evaluation.Substitution
import HookStyle.Proofs.Tree.Declarations

/-!
# Declarations with other values

The values at the leaves of a declaration may be replaced while its trees keep their shape.
Such a declaration has the same hooks, and its chains are the chains of the old one with the
values replaced. Filling a declaration replaces the references in its texts.

* `leaves_mapValues`, `chains_mapValues`: the leaves and the chains, value by value.
* `unknownHook?_mapValues`: replaced values need no other hooks.
* `mem_texts_of_mem_settings`: the texts of the chains are texts of the declaration.
-/

namespace HookStyle

open Css

/-! ## Trees -/

namespace Tree

mutual

/-- The tree with its values replaced. -/
def mapValues (f : Value → Value) : Tree → Tree
  | leaf s => leaf (s.map f)
  | branch children => branch (mapChildren f children)

def mapChildren (f : Value → Value) : List (String × Tree) → List (String × Tree)
  | [] => []
  | (key, t) :: rest => (key, t.mapValues f) :: mapChildren f rest

end

variable (f : Value → Value)

theorem keys_mapChildren (children : List (String × Tree)) :
    Entries.keys (mapChildren f children) = Entries.keys children := by
  induction children with
  | nil => rfl
  | cons e children ih => rw [mapChildren, Entries.keys_cons, Entries.keys_cons, ih]

mutual

theorem keyed_mapValues {t : Tree} (h : t.Keyed) : (t.mapValues f).Keyed := by
  cases t with
  | leaf s => exact keyed_leaf _
  | branch children =>
    rw [keyed_branch] at h
    rw [mapValues, keyed_branch, keys_mapChildren]
    exact ⟨h.1, childrenKeyed_mapChildren h.2⟩

theorem childrenKeyed_mapChildren {children : List (String × Tree)}
    (h : ChildrenKeyed children) : ChildrenKeyed (mapChildren f children) := by
  match children with
  | [] => exact h
  | (key, t) :: rest =>
    rw [ChildrenKeyed] at h
    rw [mapChildren, ChildrenKeyed]
    exact ⟨keyed_mapValues h.1, childrenKeyed_mapChildren h.2⟩

end

mutual

theorem unknownHook?_mapValues (known : String → Bool) (t : Tree) :
    (t.mapValues f).unknownHook? known = t.unknownHook? known := by
  cases t with
  | leaf s => simp [mapValues, unknownHook?]
  | branch children =>
    rw [mapValues, unknownHook?, unknownHook?, keys_mapChildren, unknownBelow?_mapChildren]

theorem unknownBelow?_mapChildren (known : String → Bool) (children : List (String × Tree)) :
    unknownBelow? known (mapChildren f children) = unknownBelow? known children := by
  match children with
  | [] => rfl
  | (key, t) :: rest =>
    rw [mapChildren, unknownBelow?, unknownBelow?, unknownHook?_mapValues,
      unknownBelow?_mapChildren]

end

end Tree

/-- The leaf with its value replaced. -/
def Leaf.mapValue (f : Value → Value) (l : Leaf) : Leaf := ⟨l.path, l.setting.map f⟩

/-- The chain with its values replaced. -/
def Chain.mapValues (f : Value → Value) (chain : Chain) : Chain where
  base := chain.base.map f
  links := chain.links.map fun l => (l.1, l.2.map f)

namespace Tree

variable (f : Value → Value)

mutual

/-- The leaves keep their places and hooks. -/
theorem leaves_mapValues (t : Tree) : (t.mapValues f).leaves = t.leaves.map (Leaf.mapValue f) := by
  cases t with
  | leaf s => simp [mapValues, leaves, Leaf.mapValue]
  | branch children => rw [mapValues, leaves, leaves, leavesAll_mapChildren]

theorem leavesAll_mapChildren (children : List (String × Tree)) :
    leavesAll (mapChildren f children) = (leavesAll children).map (Leaf.mapValue f) := by
  match children with
  | [] => rfl
  | (key, t) :: rest =>
    rw [mapChildren, leavesAll, leavesAll, leaves_mapValues, leavesAll_mapChildren,
      List.map_append, List.map_map, List.map_map]
    rfl

end

theorem chain_mapValues (t : Tree) : (t.mapValues f).chain = t.chain.mapValues f := by
  unfold chain Chain.mapValues defaultLeaf? defaultOf hookLeaves
  rw [leaves_mapValues, List.find?_map, List.filter_map, List.map_map, List.map_map]
  congr 1
  change ((t.leaves.find? fun l => l.hooks.isEmpty).map (Leaf.mapValue f)).bind Leaf.setting = _
  cases t.leaves.find? fun l => l.hooks.isEmpty <;> rfl

theorem chain?_mapValues (t : Tree) :
    (t.mapValues f).chain? = t.chain?.map (Chain.mapValues f) := by
  have hleaves : (t.mapValues f).leaves = [] ↔ t.leaves = [] := by
    rw [leaves_mapValues, List.map_eq_nil_iff]
  rw [chain?_eq, chain?_eq, chain_mapValues]
  by_cases h : t.leaves = []
  · rw [if_pos h, if_pos (hleaves.mpr h), Option.map_none]
  · rw [if_neg h, if_neg (mt hleaves.mp h), Option.map_some]

end Tree

/-! ## Declarations -/

/-- The tree with its values replaced. -/
def KeyedTree.mapValues (f : Value → Value) (t : KeyedTree) : KeyedTree :=
  ⟨t.tree.mapValues f, Tree.keyed_mapValues f t.keyed⟩

namespace Declaration

/-- The declaration with its values replaced. -/
def mapValues (f : Value → Value) (d : Declaration) : Declaration :=
  d.filterMap fun t => some (t.mapValues f)

variable (f : Value → Value)

theorem entries_mapValues (d : Declaration) :
    (d.mapValues f).entries = d.entries.map fun e => (e.1, e.2.mapValues f) := by
  simp [mapValues, OrderedMap.filterMap]

theorem unknownHook?_mapValues (known : String → Bool) (d : Declaration) :
    (d.mapValues f).unknownHook? known = d.unknownHook? known := by
  rw [unknownHook?, unknownHook?, entries_mapValues, List.findSome?_map]
  congr 1
  funext e
  exact Tree.unknownHook?_mapValues f known e.2.tree

theorem chains_mapValues (d : Declaration) :
    (d.mapValues f).chains.entries = d.chains.entries.map fun e => (e.1, e.2.mapValues f) := by
  change (d.mapValues f).entries.filterMap _ = (d.entries.filterMap _).map _
  rw [entries_mapValues, List.filterMap_map, List.map_filterMap]
  congr 1
  funext e
  have hchain := Tree.chain?_mapValues f e.2.tree
  change ((e.2.tree.mapValues f).chain?).map _ = (e.2.tree.chain?.map _).map _
  rw [hchain, Option.map_map, Option.map_map]
  rfl

end Declaration

/-! ## Texts -/

/-- The text that a value is written as, if it is no number. -/
def Css.Value.text? : Value → Option String
  | number _ => none
  | text s => some s

/-- The texts at the leaves of a declaration. -/
def Declaration.texts (d : Declaration) : List String :=
  d.entries.flatMap fun e => e.2.tree.leaves.filterMap fun l => l.setting.bind Value.text?

theorem Tree.mem_settings_chain {t : Tree} {v : Value} (h : some v ∈ t.chain.settings) :
    ∃ l ∈ t.leaves, l.setting = some v := by
  rcases List.mem_cons.mp h with h | h
  · obtain ⟨l, hl, hv⟩ := Option.bind_eq_some_iff.mp h.symm
    exact ⟨l, mem_of_defaultLeaf? hl, hv⟩
  · rw [chain, List.map_map, List.mem_map] at h
    obtain ⟨l, hl, hv⟩ := h
    exact ⟨l, List.mem_of_mem_filter hl, hv⟩

/-- Every text that is compiled stands in the declaration. -/
theorem Declaration.mem_texts_of_mem_settings {d : Declaration} {e : String × Chain}
    (he : e ∈ d.chains.entries) {s : String} (h : some (.text s) ∈ e.2.settings) : s ∈ d.texts := by
  obtain ⟨t, ht, hchain⟩ := exists_of_mem_chains he
  rw [hchain] at h
  obtain ⟨l, hl, hs⟩ := Tree.mem_settings_chain h
  refine List.mem_flatMap.mpr ⟨_, OrderedMap.mem_of_get? ht, List.mem_filterMap.mpr ⟨l, hl, ?_⟩⟩
  rw [hs]
  rfl

/-! ## Filling -/

/-- The value with the references to bound names replaced in its text. -/
def Css.Value.fill (bindings : List (String × List Char)) : Value → Value
  | number x => number x
  | text s => text (String.ofList (Evaluation.substitute bindings 0 s.toList))

/-- The declaration with the references to bound names replaced in its texts. -/
def Declaration.fill (bindings : List (String × List Char)) (d : Declaration) : Declaration :=
  d.mapValues (Value.fill bindings)

end HookStyle
