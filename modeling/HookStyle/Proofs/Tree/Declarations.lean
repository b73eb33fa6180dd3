import HookStyle.Engine.Registry
import HookStyle.Proofs.Tree.Hooks

/-!
# Compiled declarations

The compound conditions of a declaration are the conjunctions of the sequences of two or
more hooks that its leaves stand under. The laws of compiled styles ask for names that do
not collide, over all declarations whose styles meet.

* `Admits`: the names of the hooks, of the sequences and of the properties are apart. A
  registered hook never shares its identifier with a conjunction, so this is not asked for.
* `compile_eq_error_iff`: the only failure is a hook that is not registered.
* `get?_compile_of_leaves`, `get?_compile_of_no_leaves`: what a property is set to.
* `served_of_compile`, `fits_of_compile`: the style has the helpers of all leaves, and
  whatever it has under the name of any helper is that helper.
-/

namespace HookStyle

open Css

theorem OrderedMap.get?_filterMap {α β : Type} (f : α → Option β) (m : OrderedMap α)
    (key : String) : (m.filterMap f).get? key = (m.get? key).bind f := by
  obtain ⟨es, hnodup⟩ := m
  change (es.filterMap fun e => (f e.2).map fun b => (e.1, b)).lookup key = (es.lookup key).bind f
  induction es with
  | nil => rfl
  | cons e es ih =>
    rw [Entries.keys_cons, List.nodup_cons] at hnodup
    rw [List.filterMap_cons, Entries.lookup_cons]
    by_cases hk : key = e.1
    · rw [if_pos hk, Option.bind_some]
      cases hf : f e.2 with
      | none =>
        -- the key does not come again
        have hnone : es.lookup key = none := by
          rw [← Option.not_isSome_iff_eq_none, Entries.lookup_isSome, hk]
          exact hnodup.1
        rw [Option.map_none]
        change (es.filterMap _).lookup key = none
        rw [ih hnodup.2, hnone]
        rfl
      | some b => simp [hk]
    · rw [if_neg hk, ← ih hnodup.2]
      cases f e.2 with
      | none => rfl
      | some b => simp [Entries.lookup_cons, hk]

/-! ## Sequences of hooks -/

def conjunctionOf (hooks : List String) : Condition := .all (hooks.map .hook)

theorem condition_of_two_le {l : Leaf} (h : 2 ≤ l.hooks.length) :
    l.condition = conjunctionOf l.hooks := by
  unfold Leaf.condition Override.condition
  split
  next hook hh =>
    dsimp only at hh
    simp [hh] at h
  next => rfl

namespace Tree

/-- The sequences of two or more hooks that leaves of a tree stand under. -/
def sequences (t : Tree) : List (List String) :=
  (t.leaves.map Leaf.hooks).filter fun hooks => 2 ≤ hooks.length

/-- No text that a tree can show has references, and their parentheses match. -/
def IsPlain (system : ToggleSystem) (t : Tree) : Prop :=
  system.IsPlain none ∧ ∀ l ∈ t.leaves, system.IsPlain l.setting

instance (system : ToggleSystem) (t : Tree) : Decidable (t.IsPlain system) :=
  inferInstanceAs (Decidable (_ ∧ _))

theorem mem_sequences {t : Tree} {hooks : List String} :
    hooks ∈ t.sequences ↔ ∃ l ∈ t.leaves, 2 ≤ l.hooks.length ∧ l.hooks = hooks := by
  simp only [sequences, List.mem_filter, List.mem_map, decide_eq_true_eq]
  constructor
  · rintro ⟨⟨l, hl, rfl⟩, hlen⟩
    exact ⟨l, hl, hlen, rfl⟩
  · rintro ⟨l, hl, hlen, rfl⟩
    exact ⟨⟨l, hl, rfl⟩, hlen⟩

theorem mem_compounds_chain {t : Tree} {c : Condition} :
    c ∈ t.chain.compounds ↔ ∃ hooks ∈ t.sequences, c = conjunctionOf hooks := by
  simp only [Chain.compounds, chain, List.flatMap_map, List.mem_flatMap, Leaf.compounds_condition,
    sequences, hookLeaves, List.mem_filter, List.mem_map, decide_eq_true_eq]
  constructor
  · rintro ⟨l, ⟨hl, -⟩, hc⟩
    split at hc
    next h => exact ⟨l.hooks, ⟨⟨l, hl, rfl⟩, h⟩, List.mem_singleton.mp hc⟩
    next => cases hc
  · rintro ⟨-, ⟨⟨l, hl, rfl⟩, h⟩, rfl⟩
    refine ⟨l, ⟨hl, ?_⟩, ?_⟩
    · cases hh : l.hooks with
      | nil => simp [hh] at h
      | cons hook hooks => rfl
    · rw [if_pos h]
      exact List.mem_singleton.mpr rfl

theorem isPlain_settings {system : ToggleSystem} {t : Tree} (h : t.IsPlain system) :
    ∀ s ∈ t.chain.settings, system.IsPlain s := by
  intro s hs
  rcases List.mem_cons.mp hs with rfl | hs
  · change system.IsPlain (t.defaultLeaf?.bind Leaf.setting)
    cases hl : t.defaultLeaf? with
    | none => exact h.1
    | some l => exact h.2 l (mem_of_defaultLeaf? hl)
  · rw [chain, List.map_map, List.mem_map] at hs
    obtain ⟨l, hl, rfl⟩ := hs
    exact h.2 l (List.mem_of_mem_filter hl)

end Tree

def Declaration.sequences (d : Declaration) : List (List String) :=
  d.entries.flatMap fun e => e.2.tree.sequences

theorem Declaration.mem_sequences {d : Declaration} {property : String} {t : KeyedTree}
    (h : d.get? property = some t) {hooks : List String} (hm : hooks ∈ t.tree.sequences) :
    hooks ∈ d.sequences :=
  List.mem_flatMap.mpr ⟨_, OrderedMap.mem_of_get? h, hm⟩

theorem Declaration.two_le_of_mem_sequences {d : Declaration} {hooks : List String}
    (h : hooks ∈ d.sequences) : 2 ≤ hooks.length := by
  obtain ⟨e, -, hm⟩ := List.mem_flatMap.mp h
  obtain ⟨l, -, hlen, rfl⟩ := Tree.mem_sequences.mp hm
  exact hlen

/-- The compound conditions of declarations. -/
def conjunctions (ds : List Declaration) : List Condition :=
  (ds.flatMap Declaration.sequences).map conjunctionOf

theorem mem_conjunctions {ds : List Declaration} {d : Declaration} (hd : d ∈ ds)
    {hooks : List String} (h : hooks ∈ d.sequences) : conjunctionOf hooks ∈ conjunctions ds :=
  List.mem_map_of_mem (List.mem_flatMap.mpr ⟨d, hd, h⟩)

/-- The chains of a declaration are those of its trees. -/
theorem Declaration.exists_of_mem_chains {d : Declaration} {e : String × Chain}
    (h : e ∈ d.chains.entries) :
    ∃ t : KeyedTree, d.get? e.1 = some t ∧ e.2 = t.tree.chain := by
  have hget := OrderedMap.get?_of_mem h
  rw [Declaration.chains, OrderedMap.get?_filterMap] at hget
  obtain ⟨t, ht, hchain⟩ := Option.bind_eq_some_iff.mp hget
  rw [Tree.chain?_eq] at hchain
  split at hchain
  · cases hchain
  · exact ⟨t, ht, (Option.some.inj hchain).symm⟩

theorem mem_conjunctions_of_chains {ds : List Declaration} {d : Declaration} (hd : d ∈ ds)
    {c : Condition} (hc : c ∈ compoundsOfChains d.chains.entries) : c ∈ conjunctions ds := by
  obtain ⟨e, he, hc⟩ := List.mem_flatMap.mp hc
  obtain ⟨t, ht, hchain⟩ := Declaration.exists_of_mem_chains he
  rw [hchain] at hc
  obtain ⟨hooks, hm, rfl⟩ := Tree.mem_compounds_chain.mp hc
  exact mem_conjunctions hd (Declaration.mem_sequences ht hm)

/-! ## Names that do not collide -/

theorem OrderedMap.mem_keys_insertAll {α : Type} {es : List (String × α)} {m : OrderedMap α}
    {key : String} : key ∈ (m.insertAll es).keys ↔ key ∈ m.keys ∨ key ∈ Entries.keys es := by
  induction es generalizing m with
  | nil => simp [insertAll]
  | cons e es ih =>
    have hstep : m.insertAll (e :: es) = (m.insert e.1 e.2).insertAll es := rfl
    have hinsert : key ∈ (m.insert e.1 e.2).keys ↔ key ∈ m.keys ∨ key = e.1 := by
      rw [keys_insert]
      split
      next he =>
        refine ⟨Or.inl, ?_⟩
        rintro (hk | rfl)
        · exact hk
        · exact he
      next => rw [List.mem_append, List.mem_singleton]
    rw [hstep, ih, hinsert, Entries.keys_cons, List.mem_cons, or_assoc]

namespace Registry

/-- What has to be asked of the declarations whose styles meet: no two hooks and no two
sequences of hooks share an identifier, and no property is named like a helper. -/
structure Admits (r : Registry) (ds : List Declaration) : Prop where
  hooks : r.toggles.DistinctHooks
  sequences : ∀ s ∈ ds.flatMap Declaration.sequences, ∀ s' ∈ ds.flatMap Declaration.sequences,
    (conjunctionOf s).identifier = (conjunctionOf s').identifier → s = s'
  names : ∀ d ∈ ds, ∀ property ∈ d.keys, property ∉ ToggleSystem.helperNames (conjunctions ds)

variable {r : Registry} {ds : List Declaration} {d : Declaration} {style : Style}

/-- The hooks with a toggle are the registered ones. -/
theorem id?_isSome_iff {name : String} :
    (r.toggles.id? name).isSome ↔ r.contains name = true := by
  rw [ToggleSystem.id?_isSome, contains_iff]
  change name ∈ (OrderedMap.empty.insertAll _).keys ↔ _
  rw [OrderedMap.mem_keys_insertAll]
  simp [Entries.keys]

theorem exists_hook_of_id? {name id : String} (h : r.toggles.id? name = some id) :
    ∃ hook ∈ r.hooks, hook.name = name :=
  contains_iff.mp (id?_isSome_iff.mp (by rw [h]; rfl))

/-- A registered hook never has the identifier of a condition. -/
theorem id?_ne_identifier (c : Condition) (name : String) :
    r.toggles.id? name ≠ some c.identifier := by
  intro hid
  obtain ⟨hook, -, rfl⟩ := exists_hook_of_id? hid
  obtain ⟨definition, -, heq⟩ := ToggleSystem.exists_mem_of_id? hid
  exact Identifier.ofHook_ne_ofCondition _ hook definition c.text heq.symm

theorem Admits.separate (h : r.Admits ds) : r.toggles.Separate (conjunctions ds) := by
  refine ⟨h.hooks, ?_, ?_⟩
  · intro c hc c' hc' hid
    obtain ⟨s, hs, rfl⟩ := List.mem_map.mp hc
    obtain ⟨s', hs', rfl⟩ := List.mem_map.mp hc'
    rw [h.sequences s hs s' hs' hid]
  · exact fun c _ name => id?_ne_identifier c name

/-! ## The style of a declaration -/

theorem compile_eq_ok : r.compile d = .ok style ↔
    d.unknownHook? r.contains = none ∧ r.toggles.compile d.chains = .ok style := by
  unfold compile
  split
  next hook h => simp [h]
  next h =>
    rw [compileChains, Outcome.mapError_eq_ok, h]
    simp

/-- A declaration compiles exactly when all of its hooks are registered. -/
theorem compile_succeeds_iff :
    (∃ style, r.compile d = .ok style) ↔ d.unknownHook? r.contains = none := by
  simp only [compile_eq_ok, exists_and_left]
  refine ⟨And.left, fun h => ⟨h, ToggleSystem.compile_succeeds_iff.mpr ?_⟩⟩
  intro e he link hlink
  obtain ⟨t, ht, hchain⟩ := Declaration.exists_of_mem_chains he
  rw [hchain] at hlink
  obtain ⟨l, hl, rfl⟩ := List.mem_map.mp hlink
  obtain ⟨hmem, hne⟩ := List.mem_filter.mp hl
  have hknown := Declaration.unknownHook?_eq_none_iff.mp h _ (OrderedMap.mem_of_get? ht)
  exact l.resolves_condition (by simpa using hne) fun hook hh =>
    id?_isSome_iff.mpr (hknown hook (Tree.asks_of_mem_leaves hmem hh))

/-- The only failure is the one that the check of the hooks reports. -/
theorem compile_eq_error_iff {error : StyleError} : r.compile d = .error error ↔
    ∃ hook, d.unknownHook? r.contains = some hook ∧ error = .unknownHook hook := by
  cases h : d.unknownHook? r.contains with
  | none =>
    obtain ⟨style, hstyle⟩ := compile_succeeds_iff.mpr h
    simp [hstyle]
  | some hook =>
    have hcompile : r.compile d = .error (.unknownHook hook) := by rw [compile, h]
    simp [hcompile, eq_comm]

theorem keys_chains_subset {property : String} (h : property ∈ d.chains.keys) :
    property ∈ d.keys :=
  (Entries.keys_filterMap_sublist (fun t : KeyedTree => t.tree.chain?) d.entries).mem h

theorem get?_chains {property : String} {t : KeyedTree} (h : d.get? property = some t) :
    d.chains.get? property = if t.tree.leaves = [] then none else some t.tree.chain := by
  rw [Declaration.chains, OrderedMap.get?_filterMap, h]
  exact Tree.chain?_eq t.tree

theorem helperNames_chains_subset (hd : d ∈ ds) {name : String}
    (h : name ∈ ToggleSystem.helperNames (compoundsOfChains d.chains.entries)) :
    name ∈ ToggleSystem.helperNames (conjunctions ds) :=
  ToggleSystem.mem_helperNames_of_subset (fun _ hc => mem_conjunctions_of_chains hd hc) h

variable {property : String} {t : KeyedTree}

theorem get?_compile_of_no_leaves (h : r.Admits ds) (hd : d ∈ ds) (hc : r.compile d = .ok style)
    (ht : d.get? property = some t) (hleaves : t.tree.leaves = []) :
    style.get? property = none := by
  refine ToggleSystem.get?_compile_eq_none (compile_eq_ok.mp hc).2 ?_ ?_
  · rw [← OrderedMap.contains_iff, OrderedMap.contains, get?_chains ht, if_pos hleaves]
    simp
  · have hk : property ∈ d.keys := Entries.mem_keys.mpr ⟨t, OrderedMap.mem_of_get? ht⟩
    intro hn
    exact h.names d hd property hk (helperNames_chains_subset hd hn)

theorem get?_compile_of_leaves (hc : r.compile d = .ok style) (ht : d.get? property = some t)
    (hleaves : t.tree.leaves ≠ []) :
    style.get? property = some (r.toggles.chainSetting property t.tree.chain) := by
  have hchain : d.chains.get? property = some t.tree.chain := by
    rw [get?_chains ht, if_neg hleaves]
  exact (ToggleSystem.get?_compile (compile_eq_ok.mp hc).2 hchain).1

/-- What is asked of all declarations is what is asked of the chains of one of them. -/
theorem Admits.chains (h : r.Admits ds) (hd : d ∈ ds) :
    DistinctConditions (compoundsOfChains d.chains.entries) ∧
      ∀ property ∈ d.chains.keys,
        property ∉ ToggleSystem.helperNames (compoundsOfChains d.chains.entries) := by
  refine ⟨?_, ?_⟩
  · intro c hc c' hc'
    exact h.separate.conditions c (mem_conjunctions_of_chains hd hc) c'
      (mem_conjunctions_of_chains hd hc')
  · intro property hp hn
    exact h.names d hd property (keys_chains_subset hp) (helperNames_chains_subset hd hn)

theorem served_of_compile (h : r.Admits ds) (hd : d ∈ ds) (hc : r.compile d = .ok style)
    (ht : d.get? property = some t) :
    ∀ l ∈ t.tree.chain.links, r.toggles.Served (conjunctions ds) style l.1 := by
  by_cases hleaves : t.tree.leaves = []
  · intro l hl
    simp [Tree.chain, Tree.hookLeaves, hleaves] at hl
  · have hchain : d.chains.get? property = some t.tree.chain := by
      rw [get?_chains ht, if_neg hleaves]
    obtain ⟨hdistinct, hnames⟩ := h.chains hd
    have hserved := ToggleSystem.served_of_compile (compile_eq_ok.mp hc).2 hdistinct hnames hchain
    intro l hl
    exact (hserved l hl).mono fun c hc => mem_conjunctions_of_chains hd hc

/-- The style serves the conjunction of every sequence of the declaration. -/
theorem served_sequence (h : r.Admits ds) (hd : d ∈ ds) (hc : r.compile d = .ok style)
    {hooks : List String} (hm : hooks ∈ d.sequences) :
    r.toggles.Served (conjunctions ds) style (conjunctionOf hooks) := by
  obtain ⟨⟨property, t⟩, he, hm⟩ := List.mem_flatMap.mp hm
  obtain ⟨l, hl, hlen, rfl⟩ := Tree.mem_sequences.mp hm
  have hlink : (l.condition, l.setting) ∈ t.tree.chain.links := by
    refine List.mem_map.mpr ⟨l, List.mem_filter.mpr ⟨hl, ?_⟩, rfl⟩
    cases hh : l.hooks with
    | nil => simp [hh] at hlen
    | cons hook hooks => rfl
  have hserved := served_of_compile h hd hc (OrderedMap.get?_of_mem he) _ hlink
  rwa [condition_of_two_le hlen] at hserved

/-- The style has nothing but its properties and its helpers, and the helpers are those of
the sequences. -/
theorem fits_of_compile (h : r.Admits ds) (hd : d ∈ ds) (hc : r.compile d = .ok style) :
    r.toggles.Fits ((conjunctions ds).flatMap r.toggles.pair) style :=
  ToggleSystem.fits_compile (compile_eq_ok.mp hc).2 h.separate.conditions
    (fun _ hm => mem_conjunctions_of_chains hd hm)
    fun property hp => h.names d hd property (keys_chains_subset hp)

end Registry

end HookStyle
