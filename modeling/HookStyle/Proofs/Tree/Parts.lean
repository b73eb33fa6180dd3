import HookStyle.Proofs.Chain.Shape
import HookStyle.Proofs.Tree.Declarations

/-!
# The two parts of a compiled declaration

When no property is named like a helper, the style of a declaration falls into two parts that
the names tell apart: the properties whose trees have leaves, each set by its own tree alone,
and the helpers, which depend on the conditions of the trees only and not on the properties.

* `properties_of_compile`, `helpers_of_compile`: the two parts, in their order.
* `get?_of_compile`: what a name that is no helper's is set to.
-/

namespace HookStyle

open Css

namespace Declaration

/-- The compound conditions of the trees of a declaration. -/
def compounds (d : Declaration) : List Condition :=
  d.entries.flatMap fun e => e.2.tree.chain.compounds

variable {d : Declaration}

/-- A property without leaves has no chain; the others keep their order. -/
theorem entries_chains (d : Declaration) : d.chains.entries =
    (d.entries.filter fun e => e.2.tree.leaves ≠ []).map fun e => (e.1, e.2.tree.chain) := by
  change d.entries.filterMap (fun e => e.2.tree.chain?.map fun chain => (e.1, chain)) = _
  generalize d.entries = es
  induction es with
  | nil => rfl
  | cons e es ih =>
    rw [List.filterMap_cons, ih, Tree.chain?_eq]
    by_cases h : e.2.tree.leaves = []
    · rw [if_pos h, List.filter_cons_of_neg (by simpa using h)]
      rfl
    · rw [if_neg h, List.filter_cons_of_pos (by simpa using h)]
      rfl

theorem compounds_of_leaves_eq_nil {t : Tree} (h : t.leaves = []) : t.chain.compounds = [] := by
  simp [Tree.chain, Tree.hookLeaves, h, Chain.compounds]

theorem compoundsOfChains_chains (d : Declaration) :
    compoundsOfChains d.chains.entries = d.compounds := by
  rw [entries_chains, compoundsOfChains, compounds, List.flatMap_map]
  generalize d.entries = es
  induction es with
  | nil => rfl
  | cons e es ih =>
    rw [List.flatMap_cons, ← ih]
    by_cases h : e.2.tree.leaves = []
    · rw [List.filter_cons_of_neg (by simpa using h), compounds_of_leaves_eq_nil h,
        List.nil_append]
    · rw [List.filter_cons_of_pos (by simpa using h), List.flatMap_cons]

/-- The compound conditions of a declaration are told apart by their identifiers when the
sequences of hooks are. -/
theorem distinct_compounds (h : ∀ s ∈ d.sequences, ∀ s' ∈ d.sequences,
    (conjunctionOf s).identifier = (conjunctionOf s').identifier → s = s') :
    DistinctConditions d.compounds := by
  have hsequence : ∀ c ∈ d.compounds, ∃ s ∈ d.sequences, c = conjunctionOf s := by
    intro c hc
    obtain ⟨e, he, hc⟩ := List.mem_flatMap.mp hc
    obtain ⟨s, hs, rfl⟩ := Tree.mem_compounds_chain.mp hc
    exact ⟨s, List.mem_flatMap.mpr ⟨e, he, hs⟩, rfl⟩
  intro c hc c' hc' hid
  obtain ⟨s, hs, rfl⟩ := hsequence c hc
  obtain ⟨s', hs', rfl⟩ := hsequence c' hc'
  rw [h s hs s' hs' hid]

end Declaration

namespace ToggleSystem

variable {system : ToggleSystem} {cs : List Condition}

/-- The helpers of distinct conditions are entries of which those with one name are the
same. -/
theorem helperEntries_consistent (h : DistinctConditions cs) :
    ∀ e ∈ system.helperEntries cs, ∀ d ∈ system.helperEntries cs, e.1 = d.1 → e = d := by
  intro e he d hd hname
  obtain ⟨helper, hhelper, rfl⟩ := List.mem_map.mp he
  obtain ⟨helper', hhelper', rfl⟩ := List.mem_map.mp hd
  rw [helper_unique h hhelper hhelper' hname]

theorem helperEntries_flatMap {α : Type} (f : α → List Condition) (as : List α) :
    system.helperEntries (as.flatMap f) = as.flatMap fun a => system.helperEntries (f a) := by
  simp only [helperEntries, List.flatMap_assoc, List.map_flatMap]

end ToggleSystem

namespace Registry

open ToggleSystem

variable {r : Registry} {d : Declaration} {style : Style}

theorem properties_of_compile (hc : r.compile d = .ok style)
    (hnames : ∀ property ∈ d.keys, ¬ IsHelperName property) :
    style.entries.filter (fun e => ¬ IsHelperName e.1) =
      (d.entries.filter fun e => e.2.tree.leaves ≠ []).map fun e =>
        (e.1, r.toggles.chainSetting e.1 e.2.tree.chain) := by
  have hchains : ∀ property ∈ d.chains.keys, ¬ IsHelperName property :=
    fun property hp => hnames property (keys_chains_subset hp)
  have hproperties := (filter_writes r.toggles hchains).2
  have hnodup : (Entries.keys (d.chains.entries.map fun e =>
      (e.1, r.toggles.chainSetting e.1 e.2))).Nodup := by
    rw [Entries.keys, List.map_map]
    exact d.chains.keys_nodup
  rw [entries_compile (compile_eq_ok.mp hc).2 hchains,
    Entries.filter_firstWrites fun k => ¬ IsHelperName k, hproperties,
    Entries.firstWrites_of_nodup hnodup, Declaration.entries_chains, List.map_map]
  rfl

/-- The entries under other names than those of the properties are the helpers, and only the
conditions of the trees decide about them. -/
theorem helpers_of_compile (hc : r.compile d = .ok style) {names : List String}
    (hkeys : ∀ property ∈ d.keys, property ∈ names)
    (hnames : ∀ name ∈ names, ¬ IsHelperName name) :
    style.entries.filter (fun e => e.1 ∉ names) =
      Entries.firstWrites (r.toggles.helperEntries d.compounds) := by
  have hchains : ∀ property ∈ d.chains.keys, ¬ IsHelperName property :=
    fun property hp => hnames property (hkeys property (keys_chains_subset hp))
  have hentries := entries_compile (compile_eq_ok.mp hc).2 hchains
  rw [← Declaration.compoundsOfChains_chains, ← (filter_writes r.toggles hchains).1,
    ← Entries.filter_firstWrites fun k => IsHelperName k, ← hentries]
  refine List.filter_congr fun e he => ?_
  rw [decide_eq_decide]
  constructor
  · intro hnot
    by_contra hname
    rw [hentries] at he
    have hkey := Entries.mem_keys_firstWrites.mp (List.mem_map_of_mem he)
    rcases mem_keys_writes.mp hkey with hkey | hkey
    · exact hname (isHelperName_of_mem hkey)
    · exact hnot (hkeys e.1 (keys_chains_subset hkey))
  · exact fun hname hmem => hnames e.1 hmem hname

/-- A name that is no helper's is set by its own tree, and only when this has a leaf. -/
theorem get?_of_compile (hc : r.compile d = .ok style) {name : String}
    (hname : ¬ IsHelperName name) :
    style.get? name = ((d.get? name).filter fun t => t.tree.leaves ≠ []).map fun t =>
      r.toggles.chainSetting name t.tree.chain := by
  have hother : name ∉ helperNames (compoundsOfChains d.chains.entries) :=
    fun hmem => hname (isHelperName_of_mem hmem)
  have hchains : d.chains.get? name = none → style.get? name = none := fun hnone => by
    refine get?_compile_eq_none (compile_eq_ok.mp hc).2 ?_ hother
    rw [← OrderedMap.contains_iff, OrderedMap.contains, hnone]
    exact Bool.false_ne_true
  cases ht : d.get? name with
  | none =>
    refine hchains ?_
    rw [Declaration.chains, OrderedMap.get?_filterMap, ht]
    rfl
  | some t =>
    by_cases hleaves : t.tree.leaves = []
    · rw [Option.filter_some_neg (by simpa using hleaves)]
      refine hchains ?_
      rw [get?_chains ht, if_pos hleaves]
    · rw [Option.filter_some_pos (by simpa using hleaves)]
      exact get?_compile_of_leaves hc ht hleaves

end Registry

end HookStyle
