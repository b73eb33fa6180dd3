import HookStyle.Proofs.Engine.Overrides
import HookStyle.Proofs.Engine.References

/-!
# Variables and themes

A property that refers to a variable shows what the last override of the variable shows, and
the variable's default when there is no override, or when the override only clears.

* `Declaration.lastOverride`: the override that counts.
* `Themed`: a group, themes of it and a style beside them, as they are compiled.
* `mention_name`: what the styles together set the property of a key to.
* `computed_variable`: the value of a reference among a group, themes and a style.
-/

namespace HookStyle

open Css Evaluation

/-! ## The styles that meet -/

namespace ToggleSystem

theorem isCustom_of_mem_helperNames {cs : List Condition} {name : String}
    (h : name ∈ helperNames cs) : Property.isCustom name.toList = true := by
  obtain ⟨c, -, hn⟩ := List.mem_flatMap.mp h
  simp only [List.mem_cons, List.not_mem_nil, or_false] at hn
  rcases hn with rfl | rfl <;> simp [Toggle.ofId, Property.isCustom, Text.stripStart?]

theorem fits_erase {system : ToggleSystem} {helpers : List Helper} {style : Style}
    (h : system.Fits helpers style) (property : String) :
    system.Fits helpers (style.erase property) := by
  intro k hk
  rw [Provides, OrderedMap.get?_erase]
  split
  · exact Or.inl rfl
  · exact h k hk

end ToggleSystem

/-- The last tree with a leaf that one of the declarations gives to a key. -/
def Declaration.lastOverride (overrides : List Declaration) (key : String) : Option KeyedTree :=
  (overrides.filterMap fun o => (o.get? key).filter fun t => t.tree.leaves ≠ []).getLast?

namespace Event

variable {e : Event} {g : VariableGroup}

/-- The declarations that are compiled for a group, for its themes, and for a style beside
them. -/
def declarations (e : Event) (defaults : Declaration) (overrides : List Declaration)
    (d : Declaration) : List Declaration :=
  defaults.entries.map (fun entry => .single (e.nameFor entry.1) entry.2) ++
    (overrides.map (Declaration.renamed e.nameFor) ++ [d])

/-- A declaration asks for keys of the group only. -/
def Covers (e : Event) (o : Declaration) : Prop := ∀ key ∈ o.keys, ∃ d ∈ e.built, d.key = key

/-- Keys that a group covers have names of their own. -/
theorem Covers.injective {o : Declaration} (h : e.Covers o) (hg : e.outcome = .ok (.group g)) :
    ∀ k ∈ o.keys, ∀ k' ∈ o.keys, e.nameFor k = e.nameFor k' → k = k' := by
  intro k hk k' hk' hn
  obtain ⟨d, hd, rfl⟩ := h k hk
  obtain ⟨d', hd', rfl⟩ := h k' hk'
  exact nameFor_injective hg hd hd' hn

theorem Covers.get?_renamed {o : Declaration} (h : e.Covers o) (hg : e.outcome = .ok (.group g))
    {d : Engine.Definition} (hd : d ∈ e.built) :
    (o.renamed e.nameFor).get? d.name = o.get? d.key := by
  rw [← nameFor_of_mem hg hd]
  refine Declaration.get?_renamed (h.injective hg) fun k hk hn => ?_
  obtain ⟨d', hd', rfl⟩ := h k hk
  exact nameFor_injective hg hd' hd hn

/-- A name of the group is not the name of a helper, and takes no unit. -/
theorem name_of_mem_built {d : Engine.Definition} (hd : d ∈ e.built) (cs : List Condition) :
    d.name ∉ ToggleSystem.helperNames cs ∧ Property.isUnitless d.name = true ∧
      Property.isCustom d.name.toList = true := by
  obtain ⟨n, hn⟩ := exists_number_of_mem_allocated (name_mem_allocated hd)
  rw [hn]
  refine ⟨ToggleSystem.nameOf_not_mem_helperNames _ n cs, VariableTable.isUnitless_nameOf _ n, ?_⟩
  simp [VariableTable.toList_nameOf, Property.isCustom, Text.stripStart?]

variable {defaults : Declaration} {overrides : List Declaration} {d : Declaration}

/-- Renaming and taking apart adds no nesting of hooks. -/
theorem mem_sequences_declarations (hg : e.outcome = .ok (.group g))
    (hcovers : ∀ o ∈ overrides, e.Covers o) {hooks : List String}
    (h : hooks ∈ (e.declarations defaults overrides d).flatMap Declaration.sequences) :
    hooks ∈ (defaults :: d :: overrides).flatMap Declaration.sequences := by
  obtain ⟨c, hc, hm⟩ := List.mem_flatMap.mp h
  rcases List.mem_append.mp hc with hc | hc
  · obtain ⟨entry, hentry, rfl⟩ := List.mem_map.mp hc
    refine List.mem_flatMap.mpr ⟨defaults, List.mem_cons_self, ?_⟩
    refine List.mem_flatMap.mpr ⟨entry, hentry, ?_⟩
    simpa [Declaration.sequences, OrderedMap.single] using hm
  rcases List.mem_append.mp hc with hc | hc
  · obtain ⟨o, ho, rfl⟩ := List.mem_map.mp hc
    rw [Declaration.sequences_renamed ((hcovers o ho).injective hg)] at hm
    exact List.mem_flatMap.mpr ⟨o, by simp [ho], hm⟩
  · obtain rfl := List.mem_singleton.mp hc
    exact List.mem_flatMap.mpr ⟨c, by simp, hm⟩

/-- The declarations that are compiled for a themed group, taken together, are admitted if
those that were written are. -/
theorem admits_declarations {r : Registry} (hg : e.outcome = .ok (.group g))
    (hcall : e.call = .defineVariables defaults) (hcovers : ∀ o ∈ overrides, e.Covers o)
    (hcustom : ∀ q ∈ d.keys, Property.isCustom q.toList = false)
    (hhooks : r.toggles.DistinctHooks)
    (hsequences : ∀ s ∈ (defaults :: d :: overrides).flatMap Declaration.sequences,
      ∀ s' ∈ (defaults :: d :: overrides).flatMap Declaration.sequences,
        (conjunctionOf s).identifier = (conjunctionOf s').identifier → s = s') :
    r.Admits (e.declarations defaults overrides d) := by
  refine ⟨hhooks, ?_, ?_⟩
  · intro s hs s' hs'
    exact hsequences s (mem_sequences_declarations hg hcovers hs) s'
      (mem_sequences_declarations hg hcovers hs')
  have hkeys : ∀ key ∈ defaults.keys, ∃ d ∈ e.built, d.key = key := by
    intro key hk
    rw [← keys_built hg hcall] at hk
    exact List.mem_map.mp hk
  have hnames : ∀ key, (∃ d ∈ e.built, d.key = key) → ∀ cs,
      e.nameFor key ∉ ToggleSystem.helperNames cs := by
    rintro - ⟨d, hd, rfl⟩ cs
    rw [nameFor_of_mem hg hd]
    exact (name_of_mem_built hd cs).1
  intro c hc property hp
  rcases List.mem_append.mp hc with hc | hc
  · obtain ⟨entry, hentry, rfl⟩ := List.mem_map.mp hc
    obtain rfl := List.mem_singleton.mp hp
    exact hnames _ (hkeys _ (List.mem_map_of_mem hentry)) _
  rcases List.mem_append.mp hc with hc | hc
  · obtain ⟨o, ho, rfl⟩ := List.mem_map.mp hc
    rw [Declaration.keys_renamed ((hcovers o ho).injective hg)] at hp
    obtain ⟨key, hk, rfl⟩ := List.mem_map.mp hp
    exact hnames key (hcovers o ho key hk) _
  · obtain rfl := List.mem_singleton.mp hc
    intro hn
    have := ToggleSystem.isCustom_of_mem_helperNames hn
    rw [hcustom property hp] at this
    cases this

end Event

/-- A definition of variables that has succeeded, themes of its group and a style beside
them, all compiled for the hooks of one engine. -/
structure Themed (engine : Engine) (e : Event) (defaults : Declaration)
    (overrides : List Declaration) (themes : List Theme) (d : Declaration) (style : Style) :
    Prop where
  call : e.call = .defineVariables defaults
  outcome : ∃ g, e.outcome = .ok (.group g)
  before : ∀ c, e.before.inline c = engine.inline c
  themes : List.Forall₂ (fun o theme => e.Covers o ∧
    engine.inline (o.renamed e.nameFor) = .ok theme.style) overrides themes
  style : engine.inline d = .ok style
  custom : ∀ q ∈ d.keys, Property.isCustom q.toList = false
  admits : engine.registry.Admits (e.declarations defaults overrides d)

/-- The styles of the variables' helpers, of the themes and of the declaration beside them. -/
def Event.parts (e : Event) (themes : List Theme) (style : Style) : List Style :=
  e.built.map Engine.Definition.helpers ++ (themes.map Theme.style ++ [style])

theorem Event.get?_helpers {e : Event} {g : VariableGroup} (hg : e.outcome = .ok (.group g))
    (name : String) :
    g.helpers.get? name = Style.lastMention (e.built.map Engine.Definition.helpers) name := by
  obtain ⟨-, -, -, -, -, rfl, -⟩ := Event.exists_defaults_of_group hg
  have hfold := Style.get?_foldl_insertAll (e.built.map Engine.Definition.helpers) .empty name
  rw [List.foldl_map, OrderedMap.get?_empty, Option.or_none] at hfold
  exact hfold

theorem Event.get?_merge_parts {e : Event} {g : VariableGroup} (hg : e.outcome = .ok (.group g))
    {themes : List Theme} {style : Style} {items : List StyleTree}
    (hitems : StyleTree.flattenAll items = g.helpers :: (themes.map Theme.style ++ [style]))
    (name : String) :
    (InlineStyle.merge items).get? name = Style.lastMention (e.parts themes style) name := by
  rw [Event.parts, Style.lastMention_append (e.built.map _), ← Event.get?_helpers hg,
    ← Style.lastMention_cons, ← hitems, InlineStyle.get?_merge_eq]

namespace Themed

variable {engine : Engine} {e : Event} {defaults : Declaration} {overrides : List Declaration}
  {themes : List Theme} {d : Declaration} {style : Style}

/-- Each variable of the group comes from the default under its key. -/
theorem exists_definition (h : Themed engine e defaults overrides themes d style)
    {b : Engine.Definition} (hb : b ∈ e.built) :
    ∃ t, defaults.get? b.key = some t ∧ .single b.name t ∈ e.declarations defaults overrides d ∧
      engine.inline (.single b.name t) = .ok b.style := by
  obtain ⟨g, hg⟩ := h.outcome
  obtain ⟨i, hi⟩ := List.mem_iff_getElem?.mp hb
  obtain ⟨defaults', t, hcall, hentry, -, hstyle⟩ := Event.getElem?_built hi
  obtain rfl := Call.defineVariables.inj (h.call.symm.trans hcall)
  have hmem := List.mem_of_getElem? hentry
  refine ⟨t, OrderedMap.get?_of_mem hmem, ?_, (h.before _).symm.trans hstyle⟩
  refine List.mem_append_left _ (List.mem_map.mpr ⟨_, hmem, ?_⟩)
  dsimp only
  rw [Event.nameFor_of_mem hg hb]

/-- Each theme comes from an override that the group covers. -/
theorem exists_override (h : Themed engine e defaults overrides themes d style) {theme : Theme}
    (ht : theme ∈ themes) : ∃ o ∈ overrides, e.Covers o ∧
      engine.inline (o.renamed e.nameFor) = .ok theme.style :=
  exists_related h.themes.flip ht

theorem renamed_mem_declarations {o : Declaration} (ho : o ∈ overrides) :
    o.renamed e.nameFor ∈ e.declarations defaults overrides d :=
  List.mem_append_right _ (List.mem_append_left _ (List.mem_map_of_mem ho))

theorem mem_declarations : d ∈ e.declarations defaults overrides d :=
  List.mem_append_right _ (List.mem_append_right _ List.mem_cons_self)

/-- All styles that are merged agree about the helpers. -/
theorem fits (h : Themed engine e defaults overrides themes d style) :
    ∀ u ∈ e.parts themes style, engine.registry.toggles.Fits
      ((conjunctions (e.declarations defaults overrides d)).flatMap
        engine.registry.toggles.pair) u := by
  intro u hu
  rcases List.mem_append.mp hu with hu | hu
  · obtain ⟨b, hb, rfl⟩ := List.mem_map.mp hu
    obtain ⟨t, -, hmem, hc⟩ := h.exists_definition hb
    exact ToggleSystem.fits_erase (Registry.fits_of_compile h.admits hmem hc) b.name
  rcases List.mem_append.mp hu with hu | hu
  · obtain ⟨theme, ht, rfl⟩ := List.mem_map.mp hu
    obtain ⟨o, ho, -, hc⟩ := h.exists_override ht
    exact Registry.fits_of_compile h.admits (renamed_mem_declarations ho) hc
  · obtain rfl := List.mem_singleton.mp hu
    exact Registry.fits_of_compile h.admits mem_declarations h.style

/-- What the themes set the property of a key to. -/
theorem mention_themes (h : Themed engine e defaults overrides themes d style)
    {b : Engine.Definition} (hb : b ∈ e.built) :
    Style.lastMention (themes.map Theme.style) b.name =
      (Declaration.lastOverride overrides b.key).map fun t =>
        engine.registry.toggles.chainSetting b.name t.tree.chain := by
  obtain ⟨g, hg⟩ := h.outcome
  have hone : ∀ o ∈ overrides, ∀ theme : Theme, e.Covers o →
      engine.inline (o.renamed e.nameFor) = .ok theme.style → theme.style.get? b.name =
        ((o.get? b.key).filter fun t => t.tree.leaves ≠ []).map fun t =>
          engine.registry.toggles.chainSetting b.name t.tree.chain := by
    intro o ho theme hcovers hc
    have hname := (Event.name_of_mem_built hb
      (conjunctions (e.declarations defaults overrides d))).1
    rw [Registry.get?_compile h.admits (renamed_mem_declarations ho) hc hname,
      hcovers.get?_renamed hg hb]
    cases o.get? b.key with
    | none => rfl
    | some t => by_cases hleaves : t.tree.leaves = [] <;> simp [hleaves, Option.filter]
  rw [Style.lastMention, Declaration.lastOverride, ← List.getLast?_map]
  congr 1
  have hthemes := h.themes
  clear h
  induction hthemes with
  | nil => rfl
  | cons hhead _ ih =>
    rw [List.map_cons, List.filterMap_cons, List.filterMap_cons,
      hone _ List.mem_cons_self _ hhead.1 hhead.2,
      ih fun o ho => hone o (List.mem_cons_of_mem _ ho)]
    cases (OrderedMap.get? _ b.key).filter _ <;> rfl

/-- What the styles together set the property of a key to. -/
theorem mention_name (h : Themed engine e defaults overrides themes d style)
    {b : Engine.Definition} (hb : b ∈ e.built) :
    Style.lastMention (e.parts themes style) b.name =
      (Declaration.lastOverride overrides b.key).map fun t =>
        engine.registry.toggles.chainSetting b.name t.tree.chain := by
  obtain ⟨hname, -, hcustom⟩ := Event.name_of_mem_built hb
    (conjunctions (e.declarations defaults overrides d))
  have hstyle : style.get? b.name = none := by
    rw [Registry.get?_compile h.admits mem_declarations h.style hname]
    cases hd : d.get? b.name with
    | none => rfl
    | some t =>
      have hk : b.name ∈ d.keys := Entries.mem_keys.mpr ⟨t, OrderedMap.mem_of_get? hd⟩
      rw [h.custom _ hk] at hcustom
      cases hcustom
  have hhelpers : ∀ u ∈ e.built.map Engine.Definition.helpers, u.get? b.name = none := by
    intro u hu
    obtain ⟨b', hb', rfl⟩ := List.mem_map.mp hu
    rw [Engine.Definition.helpers, OrderedMap.get?_erase]
    split
    · rfl
    next hne =>
      obtain ⟨t, -, hmem, hc⟩ := h.exists_definition hb'
      rw [Registry.get?_compile h.admits hmem hc hname, OrderedMap.single, OrderedMap.get?,
        Entries.lookup_cons, if_neg hne]
      rfl
  rw [Event.parts, Style.lastMention_append, Style.lastMention_append,
    Style.lastMention_singleton, hstyle, Style.lastMention_eq_none hhelpers, Option.none_or,
    Option.or_none, h.mention_themes hb]

/-- A style that has the mentions of all the styles serves what one of them serves, also
without a property that is not custom. -/
theorem served (h : Themed engine e defaults overrides themes d style) {whole : Style}
    (hwhole : ∀ name, whole.get? name = Style.lastMention (e.parts themes style) name)
    {u v : Style} (hv : v ∈ e.parts themes style)
    (huv : ∀ k ∈ (conjunctions (e.declarations defaults overrides d)).flatMap
      engine.registry.toggles.pair, engine.registry.toggles.Provides u k →
        engine.registry.toggles.Provides v k)
    {property : String} (hproperty : Property.isCustom property.toList = false) {c : Condition}
    (hserved : engine.registry.toggles.Served
      (conjunctions (e.declarations defaults overrides d)) u c) :
    engine.registry.toggles.Served (conjunctions (e.declarations defaults overrides d))
      (whole.erase property) c := by
  refine ToggleSystem.served_erase_property ?_ (hserved.of_provides fun k hk hp =>
    ToggleSystem.provides_of_lastMention hwhole h.fits hk hv (huv k hk hp))
  intro hn
  rw [ToggleSystem.isCustom_of_mem_helperNames hn] at hproperty
  cases hproperty

/-- The merged style serves the conditions of a variable's default, also when themes stand
behind it. -/
theorem served_default (h : Themed engine e defaults overrides themes d style) {whole : Style}
    (hwhole : ∀ name, whole.get? name = Style.lastMention (e.parts themes style) name)
    {b : Engine.Definition} (hb : b ∈ e.built) {t : KeyedTree}
    (ht : .single b.name t ∈ e.declarations defaults overrides d)
    (hc : engine.inline (.single b.name t) = .ok b.style) {property : String}
    (hproperty : Property.isCustom property.toList = false) :
    ∀ l ∈ t.tree.chain.links, engine.registry.toggles.Served
      (conjunctions (e.declarations defaults overrides d)) (whole.erase property) l.1 := by
  have hname := (Event.name_of_mem_built hb
    (conjunctions (e.declarations defaults overrides d))).1
  intro l hl
  refine h.served hwhole (List.mem_append_left _ (List.mem_map_of_mem hb)) ?_ hproperty
    (Registry.served_of_compile h.admits ht hc (OrderedMap.get?_single _ _) l hl)
  intro k hk hp
  obtain ⟨c, hcs, hkc⟩ := List.mem_flatMap.mp hk
  have hne : k.name ≠ b.name := fun hn => hname (hn ▸ List.mem_flatMap.mpr ⟨c, hcs, by
    rcases ToggleSystem.name_of_mem_pair hkc with hn | hn <;> simp [hn]⟩)
  rw [ToggleSystem.Provides, Engine.Definition.helpers, OrderedMap.get?_erase, if_neg hne]
  exact hp

/-- The value of a variable where it is referred to. -/
theorem lookup_name (h : Themed engine e defaults overrides themes d style)
    (active : String → Bool) {whole : Style}
    (hwhole : ∀ name, whole.get? name = Style.lastMention (e.parts themes style) name)
    {b : Engine.Definition} (hb : b ∈ e.built)
    (hplains : ∀ o ∈ overrides, ∀ u, o.get? b.key = some u →
      u.tree.IsPlain engine.registry.toggles) {property : String}
    (hproperty : Property.isCustom property.toList = false) :
    engine.registry.toggles.lookup active (whole.erase property) b.name =
      (Declaration.lastOverride overrides b.key).bind fun u =>
        u.tree.displayed engine.registry.toggles active := by
  obtain ⟨g, hg⟩ := h.outcome
  obtain ⟨hname, hunitless, hcustom⟩ := Event.name_of_mem_built hb
    (conjunctions (e.declarations defaults overrides d))
  have hstate : engine.registry.toggles.toggleState? active b.name = none := by
    obtain ⟨n, hn⟩ := Event.exists_number_of_mem_allocated (Event.name_mem_allocated hb)
    rw [hn]
    exact ToggleSystem.toggleState?_of_not_isSide (VariableTable.not_isSide_nameOf _ _)
  have hne : b.name ≠ property := by
    rintro rfl
    rw [hcustom] at hproperty
    cases hproperty
  have hget : (whole.erase property).get? b.name =
      (Declaration.lastOverride overrides b.key).map fun u =>
        engine.registry.toggles.chainSetting b.name u.tree.chain := by
    rw [OrderedMap.get?_erase, if_neg hne, hwhole, h.mention_name hb]
  rw [ToggleSystem.lookup, hstate]
  dsimp only
  cases hlast : Declaration.lastOverride overrides b.key with
  | none =>
    rw [hlast] at hget
    refine ToggleSystem.computed_of_no_value ?_
    rw [Style.value?, hget]
    rfl
  | some u =>
    rw [hlast] at hget
    obtain ⟨o, ho, hu⟩ := List.mem_filterMap.mp (List.mem_of_getLast? hlast)
    have hu' : o.get? b.key = some u := (Option.filter_eq_some_iff.mp hu).1
    obtain ⟨theme, htheme, hcovers, hc⟩ := exists_related h.themes ho
    have hserved := Registry.served_of_compile h.admits (renamed_mem_declarations ho) hc
      ((hcovers.get?_renamed hg hb).trans hu')
    rw [Option.bind_some, ← Tree.shown_eq_displayed hunitless]
    refine ToggleSystem.computed_of_served h.admits.separate ?_ hname hget (hplains o ho u hu')
    intro l hl
    exact h.served hwhole (List.mem_append_right _ (List.mem_append_left _
      (List.mem_map_of_mem htheme))) (fun _ _ hp => hp) hproperty (hserved l hl)

/-- What a reference to a variable shows. -/
theorem computed_reference (h : Themed engine e defaults overrides themes d style)
    (active : String → Bool) {whole : Style}
    (hwhole : ∀ name, whole.get? name = Style.lastMention (e.parts themes style) name)
    {b : Engine.Definition} (hb : b ∈ e.built) (hn : isName b.name = true) {t : KeyedTree}
    (ht : defaults.get? b.key = some t) (hplain : t.tree.IsPlain engine.registry.toggles)
    (hplains : ∀ o ∈ overrides, ∀ u, o.get? b.key = some u →
      u.tree.IsPlain engine.registry.toggles) {layout : Layout} {property : String}
    (hproperty : d.get? property = some (.literal (.text (b.expression layout)))) :
    engine.registry.toggles.computed active whole property =
      match Declaration.lastOverride overrides b.key with
      | none => t.tree.displayed engine.registry.toggles active
      | some u => if u.tree.Clears then t.tree.displayed engine.registry.toggles active
          else u.tree.displayed engine.registry.toggles active := by
  obtain ⟨t', ht', hmem, hc⟩ := h.exists_definition hb
  obtain rfl := Option.some.inj (ht.symm.trans ht')
  obtain ⟨hname, hunitless, -⟩ := Event.name_of_mem_built hb
    (conjunctions (e.declarations defaults overrides d))
  have hcustom : Property.isCustom property.toList = false :=
    h.custom _ (Entries.mem_keys.mpr ⟨_, OrderedMap.mem_of_get? hproperty⟩)
  -- the style beside the themes comes last, so the property has the text of the reference
  have htext : whole.get? property = some (some (.text (b.expression layout))) := by
    rw [hwhole, Event.parts, Style.lastMention_append, Style.lastMention_append,
      Style.lastMention_singleton,
      Registry.get?_compile_of_leaves h.style hproperty (List.cons_ne_nil _ _)]
    rfl
  rw [ToggleSystem.computed_of_value? (Style.value?_eq_some_iff.mpr htext), Value.render_text,
    Engine.evaluate_expression active h.admits hmem hc hn hunitless hname hplain
      (h.served_default hwhole hb hmem hc hcustom),
    h.lookup_name active hwhole hb hplains hcustom]
  cases Declaration.lastOverride overrides b.key with
  | none => exact Tree.map_trim_displayed
  | some u =>
    rw [Option.bind_some]
    dsimp only
    split
    next hclears =>
      rw [(Tree.displayed_eq_none_iff u.keyed).mpr hclears, Option.none_or,
        Tree.map_trim_displayed]
    next hclears =>
      have hsome : u.tree.displayed engine.registry.toggles active ≠ none :=
        fun hnone => hclears ((Tree.displayed_eq_none_iff u.keyed).mp hnone)
      rw [Option.or_of_isSome (Option.isSome_iff_ne_none.mpr hsome), Tree.map_trim_displayed]

end Themed

namespace Engine

/-- The definition of a group is an event of the run, and themes of the group that are made
at any time after it are themed on it. -/
theorem exists_themed {config : Config} {start : Engine} (hstart : ofConfig config = .ok start)
    (calls : List Call) {defaults : Declaration} {g : VariableGroup} {engine : Engine}
    (hdefine : (start.after calls).defineVariables defaults = (.ok g, engine))
    {overrides : List Declaration} {themes : List Theme}
    (hthemes : List.Forall₂ (fun o theme => ∃ calls', (engine.after calls').createTheme g o
      = .ok theme) overrides themes)
    {d : Declaration} {style : Style} (hstyle : engine.inline d = .ok style)
    (hcustom : ∀ q ∈ d.keys, Property.isCustom q.toList = false)
    (hhooks : engine.registry.toggles.DistinctHooks)
    (hsequences : ∀ s ∈ (defaults :: d :: overrides).flatMap Declaration.sequences,
      ∀ s' ∈ (defaults :: d :: overrides).flatMap Declaration.sequences,
        (conjunctionOf s).identifier = (conjunctionOf s').identifier → s = s') :
    ∃ e ∈ start.events (calls ++ [.defineVariables defaults]), e.outcome = .ok (.group g) ∧
      Themed engine e defaults overrides themes d style := by
  have hg : Event.outcome ⟨start.after calls, .defineVariables defaults⟩ = .ok (.group g) := by
    change ((start.after calls).defineVariables defaults).1.map Answer.group = _
    rw [hdefine]
    rfl
  have hafter : engine = start.after (calls ++ [.defineVariables defaults]) := by
    rw [after_append]
    exact (congrArg Prod.snd hdefine).symm
  have he : ∀ calls', ⟨start.after calls, .defineVariables defaults⟩ ∈
      start.events ((calls ++ [.defineVariables defaults]) ++ calls') := by
    intro calls'
    rw [List.append_assoc, events_append]
    exact List.mem_append_right _ List.mem_cons_self
  have hinline : ∀ c, engine.inline c = start.inline c := fun c => by rw [hafter, inline_after]
  have hrelated : List.Forall₂ (fun o theme =>
      Event.Covers ⟨start.after calls, .defineVariables defaults⟩ o ∧
        engine.inline (o.renamed (Event.nameFor ⟨start.after calls, .defineVariables defaults⟩))
          = .ok theme.style) overrides themes := by
    refine hthemes.imp ?_
    rintro o theme ⟨calls', htheme⟩
    rw [hafter, ← after_append] at htheme
    rw [hinline]
    exact createTheme_eq_ok hstart hstart (he calls') hg htheme
  refine ⟨_, List.append_nil (calls ++ [_]) ▸ he [], hg, rfl, ⟨g, hg⟩,
    fun c => (inline_after start calls c).trans (hinline c).symm, hrelated, hstyle, hcustom,
    Event.admits_declarations hg rfl ?_ hcustom hhooks hsequences⟩
  intro o ho
  obtain ⟨theme, -, hcovers, -⟩ := exists_related hrelated ho
  exact hcovers

/-- The value of a property that refers to a variable, in a style that is merged behind the
variable's group and themes of it. The last override with a leaf counts, and the default when
there is none or when it only clears. -/
theorem computed_variable {config : Config} {start : Engine} (hstart : ofConfig config = .ok start)
    (calls : List Call) {defaults : Declaration} {g : VariableGroup} {engine : Engine}
    (hdefine : (start.after calls).defineVariables defaults = (.ok g, engine))
    {overrides : List Declaration} {themes : List Theme}
    (hthemes : List.Forall₂ (fun o theme => ∃ calls', (engine.after calls').createTheme g o
      = .ok theme) overrides themes)
    {d : Declaration} {style : Style} (hstyle : engine.inline d = .ok style)
    (hcustom : ∀ q ∈ d.keys, Property.isCustom q.toList = false)
    (hhooks : engine.registry.toggles.DistinctHooks)
    (hsequences : ∀ s ∈ (defaults :: d :: overrides).flatMap Declaration.sequences,
      ∀ s' ∈ (defaults :: d :: overrides).flatMap Declaration.sequences,
        (conjunctionOf s).identifier = (conjunctionOf s').identifier → s = s')
    {key expression property : String} {t : KeyedTree} (ht : defaults.get? key = some t)
    (hkey : g.expressions.get? key = some expression)
    (hproperty : d.get? property = some (.literal (.text expression)))
    (hplain : t.tree.IsPlain engine.registry.toggles)
    (hplains : ∀ o ∈ overrides, ∀ u, o.get? key = some u →
      u.tree.IsPlain engine.registry.toggles)
    {items : List StyleTree}
    (hitems : StyleTree.flattenAll items = g.helpers :: (themes.map Theme.style ++ [style]))
    (active : String → Bool) :
    engine.registry.toggles.computed active (InlineStyle.merge items) property =
        (match Declaration.lastOverride overrides key with
        | none => t.tree.displayed engine.registry.toggles active
        | some u => if u.tree.Clears then t.tree.displayed engine.registry.toggles active
            else u.tree.displayed engine.registry.toggles active) ∧
      (t.tree.Clears → t.tree.displayed engine.registry.toggles active = none) := by
  refine ⟨?_, (Tree.displayed_eq_none_iff t.keyed).mpr⟩
  obtain ⟨e, he, hg, hthemed⟩ := exists_themed hstart calls hdefine hthemes hstyle hcustom hhooks
    hsequences
  obtain ⟨b, hb, rfl, rfl⟩ := Event.exists_built_of_get? hg hkey
  obtain ⟨hname, rfl, -⟩ := ofConfig_eq_ok hstart
  exact hthemed.computed_reference active (Event.get?_merge_parts hg hitems) hb
    (isName_of_mem_built hname he hb) ht hplain hplains hproperty

/-- A variable with two overrides, of which the second has no leaf. -/
theorem computed_variable_overridden : ∃ g engine theme theme' style expression,
    hoverFocus.defineVariables (.single "accent" focusInHover) = (.ok g, engine) ∧
      engine.createTheme g (.single "accent" (.literal (.text "green"))) = .ok theme ∧
      engine.createTheme g (.single "accent" .empty) = .ok theme' ∧
      g.expressions.get? "accent" = some expression ∧
      engine.inline (.single "color" (.literal (.text expression))) = .ok style ∧
      engine.registry.toggles.computed (fun _ => true) (InlineStyle.merge
        [.style g.helpers, .style theme.style, .style theme'.style, .style style]) "color"
          = some "green".toList := by
  obtain ⟨g, engine, expression, hregistry, hdefine, hkey, hlookup⟩ :
      ∃ g engine expression, engine.registry = hoverFocus.registry ∧
        hoverFocus.defineVariables (.single "accent" focusInHover) = (.ok g, engine) ∧
        g.expressions.get? "accent" = some expression ∧
        engine.table.lookup expression = some "--_horizon_var_0" :=
    ⟨_, _, _, rfl, rfl, rfl, by decide +kernel⟩
  have hmakes : ∀ t : KeyedTree, t.tree.unknownHook? engine.registry.contains = none →
      ∃ theme, engine.createTheme g (.single "accent" t) = .ok theme := by
    intro t ht
    obtain ⟨s, hs⟩ | ⟨hook, hh, -⟩ := (engine.inline_single "--_horizon_var_0" t).imp_left And.right
    · exact ⟨⟨s⟩, by rw [createTheme_single hkey hlookup, hs]; rfl⟩
    · rw [ht] at hh
      cases hh
  obtain ⟨theme, htheme⟩ := hmakes (.literal (.text "green")) rfl
  obtain ⟨theme', htheme'⟩ := hmakes .empty rfl
  obtain ⟨style, hstyle⟩ : ∃ s, engine.inline
      (.single "color" (.literal (.text expression))) = .ok s :=
    Registry.compile_succeeds_iff.mpr rfl
  refine ⟨g, engine, theme, theme', style, expression, hdefine, htheme, htheme', hkey, hstyle, ?_⟩
  have hthemes : List.Forall₂ (fun o theme => ∃ calls', (engine.after calls').createTheme g o
      = .ok theme) [.single "accent" (.literal (.text "green")), .single "accent" .empty]
      [theme, theme'] := .cons ⟨[], htheme⟩ (.cons ⟨[], htheme'⟩ .nil)
  have hsequences : ∀ s ∈ ([.single "accent" focusInHover,
        .single "color" (.literal (.text expression)),
        .single "accent" (.literal (.text "green")), .single "accent" .empty] :
          List Declaration).flatMap Declaration.sequences, s = [":hover", ":focus"] := by
    intro s hs
    exact List.mem_singleton.mp hs
  have hplain : ∀ o ∈ ([.single "accent" (.literal (.text "green")), .single "accent" .empty] :
      List Declaration), ∀ u, o.get? "accent" = some u →
        u.tree.IsPlain engine.registry.toggles := by
    intro o ho u hu
    rw [hregistry]
    rcases List.mem_cons.mp ho with rfl | ho
    · obtain rfl := Option.some.inj hu
      decide +kernel
    · obtain rfl := List.mem_singleton.mp ho
      obtain rfl := Option.some.inj hu
      decide +kernel
  have hcustom : ∀ q ∈ ["color"], Property.isCustom q.toList = false := by decide +kernel
  exact (computed_variable ofConfig_hoverFocus [] hdefine hthemes hstyle hcustom
    (hregistry ▸ hoverFocus_distinctHooks)
    (fun s hs s' hs' _ => (hsequences s hs).trans (hsequences s' hs').symm) rfl hkey rfl
    (hregistry ▸ isPlain_focusInHover) hplain rfl _).1

end Engine

end HookStyle
