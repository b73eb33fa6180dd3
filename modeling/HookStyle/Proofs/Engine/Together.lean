import HookStyle.Proofs.Engine.Ledger
import HookStyle.Proofs.Tree.Meaning
import HookStyle.Proofs.Tree.Parts

/-!
# Variables that are defined together

The defaults of a group are compiled one by one, each to a property of its own, and their
helpers are gathered. When the sequences of hooks are told apart by their identifiers, this
gives the same helpers in the same order, and the same settings, as one declaration with all
of the properties.

* `exists_pairs_of_group`: the variables of a group that is issued, beside their trees.
* `entries_helpers_groupOf`: the helpers that are gathered are the first writes for all
  conditions.
* `defineVariables_together`: a group against the one declaration of its defaults.
-/

namespace HookStyle

open Css ToggleSystem

/-- The trees of a declaration under other names, in order. -/
def Declaration.under (names : List String) (d : Declaration) : Declaration :=
  .ofList (names.zip (d.entries.map Prod.snd))

namespace Engine

variable {engine : Engine}

/-- The text that refers to a property, with a default when there is one. -/
def reference (layout : Layout) (name : String) : Option Value → String
  | none => "var(" ++ name ++ ")"
  | some v => "var(" ++ name ++ "," ++ layout.space ++ v.render name ++ ")"

theorem expression_eq_reference (layout : Layout) (d : Definition) :
    d.expression layout = reference layout d.name (d.style.value? d.name) := by
  unfold Definition.expression
  cases d.style.value? d.name with
  | none => rfl
  | some v => rfl

/-! ## What is built -/

/-- When all defaults compile, every variable stands beside the tree of its default. -/
theorem exists_pairs {n : Nat} {es : List (String × KeyedTree)}
    (h : (engine.built n es).length = es.length) :
    ∃ ps : List (Definition × KeyedTree), engine.built n es = ps.map Prod.fst ∧
      es = ps.map (fun p => (p.1.key, p.2)) ∧
      ps.map (fun p => p.1.name) =
        (List.range' n es.length).map (VariableTable.nameOf engine.config.namePart) ∧
      ∀ p ∈ ps, engine.inline (.single p.1.name p.2) = .ok p.1.style := by
  induction es generalizing n with
  | nil => exact ⟨[], rfl, rfl, rfl, fun p hp => absurd hp List.not_mem_nil⟩
  | cons e es ih =>
    obtain ⟨key, t⟩ := e
    rw [built] at h ⊢
    split at h
    · cases h
    next s hs =>
      rw [List.length_cons, List.length_cons, Nat.add_right_cancel_iff] at h
      obtain ⟨ps, hbuilt, hes, hnames, hps⟩ := ih h
      refine ⟨(⟨key, VariableTable.nameOf engine.config.namePart n, s⟩, t) :: ps, ?_, ?_, ?_, ?_⟩
      · rw [hbuilt]
        rfl
      · rw [hes]
        rfl
      · rw [List.map_cons, hnames]
        rfl
      · intro p hp
        rcases List.mem_cons.mp hp with rfl | hp
        · exact hs
        · exact hps p hp

/-! ## Helpers -/

/-- The helpers of one variable are the first writes for its conditions. -/
theorem entries_helpers {d : Definition} {t : KeyedTree} (hname : ¬ IsHelperName d.name)
    (h : engine.inline (.single d.name t) = .ok d.style) :
    d.helpers.entries =
      Entries.firstWrites (engine.registry.toggles.helperEntries t.tree.chain.compounds) := by
  have hkeys : ∀ property ∈ OrderedMap.keys (.single d.name t), property ∈ [d.name] :=
    fun _ hp => hp
  have hpart := Registry.helpers_of_compile h hkeys fun name hn => List.mem_singleton.mp hn ▸ hname
  have hcompounds : Declaration.compounds (.single d.name t) = t.tree.chain.compounds :=
    List.append_nil _
  rw [hcompounds] at hpart
  rw [← hpart]
  exact List.filter_congr fun e _ => by simp

/-- The helpers of a group are the first writes for the conditions of all variables. -/
theorem entries_helpers_groupOf (layout : Layout) {ps : List (Definition × KeyedTree)}
    (hnames : ∀ p ∈ ps, ¬ IsHelperName p.1.name)
    (hps : ∀ p ∈ ps, engine.inline (.single p.1.name p.2) = .ok p.1.style)
    (hdistinct : DistinctConditions (ps.flatMap fun p => p.2.tree.chain.compounds)) :
    (groupOf layout (ps.map Prod.fst)).helpers.entries =
      Entries.firstWrites (engine.registry.toggles.helperEntries
        (ps.flatMap fun p => p.2.tree.chain.compounds)) := by
  have hgather : (groupOf layout (ps.map Prod.fst)).helpers =
      .ofList (ps.flatMap fun p => p.1.helpers.entries) := by
    rw [OrderedMap.ofList, OrderedMap.insertAll, List.foldl_flatMap]
    exact List.foldl_map
  have hpieces : (ps.flatMap fun p => p.1.helpers.entries) = ps.flatMap fun p =>
      Entries.firstWrites (engine.registry.toggles.helperEntries p.2.tree.chain.compounds) :=
    List.flatMap_congr fun p hp => entries_helpers (hnames p hp) (hps p hp)
  have hconsistent := @helperEntries_consistent engine.registry.toggles _ hdistinct
  rw [helperEntries_flatMap] at hconsistent ⊢
  rw [hgather, hpieces, OrderedMap.entries_ofList_of_consistent, Entries.firstWrites_flatMap]
  have hmem : ∀ e ∈ ps.flatMap (fun p => Entries.firstWrites
      (engine.registry.toggles.helperEntries p.2.tree.chain.compounds)),
        e ∈ ps.flatMap fun p => engine.registry.toggles.helperEntries p.2.tree.chain.compounds := by
    intro e he
    obtain ⟨p, hp, he⟩ := List.mem_flatMap.mp he
    exact List.mem_flatMap.mpr ⟨p, hp, Entries.mem_of_mem_firstWrites he⟩
  exact fun e he d hd => hconsistent e (hmem e he) d (hmem d hd)

/-! ## One declaration -/

section Together

variable {defaults : Declaration} {ps : List (Definition × KeyedTree)}

/-- The declaration of all defaults, in terms of what is built for them. -/
theorem entries_under (hentries : defaults.entries = ps.map fun p => (p.1.key, p.2))
    (hnodup : (ps.map fun p => p.1.name).Nodup) :
    (defaults.under (ps.map fun p => p.1.name)).entries = ps.map fun p => (p.1.name, p.2) := by
  have hzip : (ps.map fun p => p.1.name).zip (defaults.entries.map Prod.snd) =
      ps.map fun p => (p.1.name, p.2) := by
    rw [hentries, List.map_map]
    exact List.zip_map'
  rw [Declaration.under, hzip, OrderedMap.entries_ofList]
  rwa [Entries.keys, List.map_map]

theorem keys_under (hentries : defaults.entries = ps.map fun p => (p.1.key, p.2))
    (hnodup : (ps.map fun p => p.1.name).Nodup) :
    (defaults.under (ps.map fun p => p.1.name)).keys = ps.map fun p => p.1.name := by
  rw [OrderedMap.keys, entries_under hentries hnodup, Entries.keys, List.map_map]
  rfl

theorem compounds_eq (hentries : defaults.entries = ps.map fun p => (p.1.key, p.2)) :
    defaults.compounds = ps.flatMap fun p => p.2.tree.chain.compounds := by
  rw [Declaration.compounds, hentries, List.flatMap_map]

/-- The properties have no part in the conditions. -/
theorem compounds_under (hentries : defaults.entries = ps.map fun p => (p.1.key, p.2))
    (hnodup : (ps.map fun p => p.1.name).Nodup) :
    (defaults.under (ps.map fun p => p.1.name)).compounds = defaults.compounds := by
  rw [compounds_eq hentries, Declaration.compounds, entries_under hentries hnodup,
    List.flatMap_map]

/-- Defaults that compile one by one compile together. -/
theorem exists_whole {whole : Declaration}
    (hwhole : whole.entries = ps.map fun p => (p.1.name, p.2))
    (hps : ∀ p ∈ ps, engine.inline (.single p.1.name p.2) = .ok p.1.style) :
    ∃ style, engine.inline whole = .ok style := by
  refine Registry.compile_succeeds_iff.mpr (Declaration.unknownHook?_eq_none_iff.mpr ?_)
  intro e he
  rw [hwhole] at he
  obtain ⟨p, hp, rfl⟩ := List.mem_map.mp he
  have hknown := Registry.compile_succeeds_iff.mp ⟨_, hps p hp⟩
  exact Declaration.unknownHook?_eq_none_iff.mp hknown _ List.mem_cons_self

/-- A property is set to the same among all properties as alone. -/
theorem value?_whole {whole : Declaration} {style : Style}
    (hwhole : whole.entries = ps.map fun p => (p.1.name, p.2))
    (hstyle : engine.inline whole = .ok style) {p : Definition × KeyedTree} (hp : p ∈ ps)
    (hname : ¬ IsHelperName p.1.name)
    (halone : engine.inline (.single p.1.name p.2) = .ok p.1.style) :
    p.1.style.value? p.1.name = style.value? p.1.name := by
  have hget : whole.get? p.1.name = some p.2 := OrderedMap.get?_of_mem (by
    rw [hwhole]
    exact List.mem_map_of_mem hp)
  rw [Style.value?, Style.value?, Registry.get?_of_compile halone hname,
    Registry.get?_of_compile hstyle hname, hget, OrderedMap.get?_single]

/-- What is built for a group that is issued: a property for each default, and an expression
that refers to it. -/
theorem exists_pairs_of_group {engine : Engine} {g : VariableGroup}
    (h : (engine.defineVariables defaults).1 = .ok g) :
    ∃ ps : List (Definition × KeyedTree), defaults.entries = ps.map (fun p => (p.1.key, p.2)) ∧
      Event.allocated ⟨engine, .defineVariables defaults⟩ = ps.map (fun p => p.1.name) ∧
      g = groupOf engine.config.layout (ps.map Prod.fst) ∧
      g.expressions.entries = ps.map (fun p => (p.1.key,
        reference engine.config.layout p.1.name (p.1.style.value? p.1.name))) ∧
      ∀ p ∈ ps, engine.inline (.single p.1.name p.2) = .ok p.1.style := by
  have hg : Event.outcome ⟨engine, .defineVariables defaults⟩ = .ok (.group g) := by
    change (engine.defineVariables defaults).1.map Answer.group = _
    rw [h]
    rfl
  obtain ⟨defaults', hcall, hused, -, hkeys, hgroup, hexpressions⟩ :=
    Event.exists_defaults_of_group hg
  obtain rfl := Call.defineVariables.inj hcall
  have hlen : (engine.built engine.table.next defaults.entries).length =
      defaults.entries.length := by
    have hsize := congrArg List.length hkeys
    rwa [List.length_map, OrderedMap.keys, Entries.keys, List.length_map] at hsize
  obtain ⟨ps, hbuilt, hentries, hnames, hps⟩ := exists_pairs hlen
  change g = groupOf _ (engine.built engine.table.next defaults.entries) at hgroup
  change _ = (engine.built engine.table.next defaults.entries).map _ at hexpressions
  change (engine.built engine.table.next defaults.entries).length = _ at hused
  refine ⟨ps, hentries, ?_, hbuilt ▸ hgroup, ?_, hps⟩
  · rw [hnames, ← hlen, hused, Event.allocated, VariableTable.fresh, List.range'_eq_map_range,
      List.map_map]
    rfl
  · rw [hexpressions, hbuilt, List.map_map]
    refine List.map_congr_left fun p _ => ?_
    exact congrArg (p.1.key, ·) (expression_eq_reference _ p.1)

/-- A group has the helpers and the settings of the one declaration of its defaults, each
under the property of its key. -/
theorem defineVariables_together {engine : Engine} {defaults : Declaration} {g : VariableGroup}
    (h : (engine.defineVariables defaults).1 = .ok g)
    (hsequences : ∀ s ∈ defaults.sequences, ∀ s' ∈ defaults.sequences,
      (conjunctionOf s).identifier = (conjunctionOf s').identifier → s = s') :
    let names := Event.allocated ⟨engine, .defineVariables defaults⟩
    names.length = defaults.size ∧
    ∃ whole, engine.inline (defaults.under names) = .ok whole ∧
      g.helpers.entries = whole.entries.filter (fun e => e.1 ∉ names) ∧
      (∀ name ∈ g.helpers.keys, IsHelperName name) ∧
      g.expressions.entries = (defaults.keys.zip names).map fun e =>
        (e.1, reference engine.config.layout e.2 (whole.value? e.2)) := by
  intro names
  obtain ⟨ps, hentries, hallocated, hgroup, hexpressions, hps⟩ := exists_pairs_of_group h
  have hnodup : names.Nodup := VariableTable.nodup_fresh
  have hfree : ∀ name ∈ names, ¬ IsHelperName name := fun _ hn =>
    Event.not_isHelperName_of_mem_allocated hn
  change names = _ at hallocated
  clear_value names
  subst hallocated
  have hnot : ∀ p ∈ ps, ¬ IsHelperName p.1.name := fun p hp =>
    hfree p.1.name (List.mem_map_of_mem hp)
  have hwhole := entries_under hentries hnodup
  obtain ⟨style, hstyle⟩ := exists_whole hwhole hps
  have hhelpers := entries_helpers_groupOf engine.config.layout hnot hps
    (compounds_eq hentries ▸ Declaration.distinct_compounds hsequences)
  rw [← compounds_eq hentries, ← hgroup] at hhelpers
  refine ⟨?_, style, hstyle, ?_, ?_, ?_⟩
  · rw [List.length_map, OrderedMap.size, hentries, List.length_map]
  · rw [Registry.helpers_of_compile hstyle (fun _ hp => keys_under hentries hnodup ▸ hp) hfree,
      compounds_under hentries hnodup, hhelpers]
  · intro name hn
    have hcompound : AllCompound defaults.compounds :=
      Declaration.compoundsOfChains_chains defaults ▸ allCompound_compoundsOfChains _
    rw [OrderedMap.keys, hhelpers, Entries.mem_keys_firstWrites] at hn
    exact isHelperName_of_mem_helperEntries hcompound hn
  · have hzip : defaults.keys.zip (ps.map fun p => p.1.name) =
        ps.map fun p => (p.1.key, p.1.name) := by
      rw [OrderedMap.keys, hentries, Entries.keys, List.map_map]
      exact List.zip_map'
    rw [hexpressions, hzip, List.map_map]
    refine List.map_congr_left fun p hp => ?_
    rw [value?_whole hwhole hstyle hp (hnot p hp) (hps p hp)]
    rfl

/-- Two variables that share a pair of hooks, around one that is cleared and one without a
leaf. -/
def sharedFocus : Declaration :=
  .ofList [("accent", focusInHover), ("gone", .unset), ("open", .empty), ("edge", focusInHover)]

theorem defineVariables_sharedFocus : ∃ g whole,
    (hoverFocus.defineVariables sharedFocus).1 = .ok g ∧
      hoverFocus.inline (sharedFocus.under ["--_horizon_var_0", "--_horizon_var_1",
        "--_horizon_var_2", "--_horizon_var_3"]) = .ok whole ∧
      g.helpers.entries = whole.entries.filter (fun e => e.1 ∉
        ["--_horizon_var_0", "--_horizon_var_1", "--_horizon_var_2", "--_horizon_var_3"]) ∧
      g.helpers.size = 2 ∧ whole.size = 5 ∧
      g.expressions.entries = [
        ("accent", reference .compact "--_horizon_var_0" (whole.value? "--_horizon_var_0")),
        ("gone", "var(--_horizon_var_1)"), ("open", "var(--_horizon_var_2)"),
        ("edge", reference .compact "--_horizon_var_3" (whole.value? "--_horizon_var_3"))] := by
  obtain ⟨g, hg, hsize⟩ : ∃ g, (hoverFocus.defineVariables sharedFocus).1 = .ok g ∧
      g.helpers.size = 2 := ⟨_, rfl, by decide +kernel⟩
  have hnames : Event.allocated ⟨hoverFocus, .defineVariables sharedFocus⟩ =
      ["--_horizon_var_0", "--_horizon_var_1", "--_horizon_var_2", "--_horizon_var_3"] := by
    decide +kernel
  obtain ⟨-, whole, hwhole, hhelpers, -, hexpressions⟩ :=
    defineVariables_together hg (by decide +kernel)
  rw [hnames] at hwhole hhelpers hexpressions
  have hcleared : (hoverFocus.inline (sharedFocus.under ["--_horizon_var_0", "--_horizon_var_1",
      "--_horizon_var_2", "--_horizon_var_3"])).toOption.map (fun s => (s.size,
        s.value? "--_horizon_var_1", s.value? "--_horizon_var_2")) = some (5, none, none) := by
    decide +kernel
  rw [hwhole] at hcleared
  obtain ⟨hwholeSize, hgone, hopen⟩ : whole.size = 5 ∧ whole.value? "--_horizon_var_1" = none ∧
      whole.value? "--_horizon_var_2" = none := by simpa [Except.toOption] using hcleared
  refine ⟨g, whole, hg, hwhole, hhelpers, hsize, hwholeSize, ?_⟩
  rw [hexpressions]
  change [_, ("gone", reference _ _ _), ("open", reference _ _ _), _] = _
  rw [hgone, hopen]
  rfl

end Together

end Engine

end HookStyle
