import HookStyle.Proofs.Engine.Overrides
import HookStyle.Proofs.Engine.Refusals
import HookStyle.Proofs.Tree.Parts

/-!
# Which themes are created

The keys of the overrides are looked up first, each in the group and then in the table of the
engine. So a key without a property comes before any hook, and the first such key decides. When
all keys have a property, the properties are different, as they are those that the group's own
call has allocated. No two overrides can meet on one of them, and the theme is refused or
compiled as the overrides themselves would be.

* `Acceptance`: what comes of the overrides of a group.
* `createTheme_succeeds_iff`: what is created.
* `properties_of_createTheme`: the properties of a theme, and what they are set to.
* `acceptance_of_run`: every group that any engine has issued, on every engine.
-/

namespace HookStyle

open Css

/-- The call has allocated the property to the key of its group. -/
def Event.Gives (e : Event) (g : VariableGroup) (key name : String) : Prop :=
  ∃ (i : Nat) (expression : String),
    g.expressions.entries[i]? = some (key, expression) ∧ e.allocated[i]? = some name

theorem Event.gives_nameFor {e : Event} {g : VariableGroup} (hg : e.outcome = .ok (.group g))
    {key : String} (h : ∃ d ∈ e.built, d.key = key) : e.Gives g key (e.nameFor key) := by
  obtain ⟨d, hd, rfl⟩ := h
  obtain ⟨i, hi⟩ := List.mem_iff_getElem?.mp hd
  obtain ⟨-, -, -, -, hallocated, -⟩ := getElem?_built hi
  obtain ⟨-, -, -, -, -, -, hentries⟩ := exists_defaults_of_group hg
  refine ⟨i, d.expression e.before.config.layout, ?_, (nameFor_of_mem hg hd).symm ▸ hallocated⟩
  rw [hentries, List.getElem?_map, hi]
  rfl

/-- What comes of overrides of a group that the event has issued, on an engine. -/
structure Acceptance (engine : Engine) (e : Event) (g : VariableGroup) (o : Declaration) :
    Prop where
  /-- A theme is created exactly when the engine knows all keys and all hooks. -/
  succeeds : (∃ theme, engine.createTheme g o = .ok theme) ↔
    (∀ key ∈ o.keys, engine.Knows g key) ∧
      ∀ entry ∈ o.entries, ∀ hook, entry.2.tree.Asks hook → engine.Registered hook
  /-- Otherwise the first key that is not known decides, whatever the hooks are: it is not in the
  group, or it is there and its expression is not in the table. -/
  first : (∃ key ∈ o.keys, ¬ engine.Knows g key) →
    ∃ before key t after, o.entries = before ++ (key, t) :: after ∧
      (∀ b ∈ before, engine.Knows g b.1) ∧
      (g.expressions.get? key = none ∧
          engine.createTheme g o = .error (.unknownVariable key) ∨
        ∃ expression, g.expressions.get? key = some expression ∧
          engine.table.lookup expression = none ∧
          engine.createTheme g o = .error (.foreignVariable expression))
  /-- With all keys known, only a hook can be refused. -/
  refuses : (∀ key ∈ o.keys, engine.Knows g key) → ∀ error,
    engine.createTheme g o = .error error →
      ∃ hook, engine.Refuses o hook ∧ error = .unknownHook hook
  /-- Apart from helpers, a theme has the properties of the keys whose trees have leaves, in
  order, each as its own tree sets it. -/
  properties : ∀ theme, engine.createTheme g o = .ok theme →
    List.Forall₂ (fun name entry => e.Gives g entry.1 name ∧
        ∃ alone, engine.inline (.single name entry.2) = .ok alone ∧
          theme.style.get? name = alone.get? name)
      (theme.style.keys.filter fun name => ¬ ToggleSystem.IsHelperName name)
      (o.entries.filter fun entry => entry.2.tree.leaves ≠ [])
  /-- The engine stays as it is. -/
  unchanged : (engine.call (.createTheme g o)).2 = engine

namespace Engine

/-! ## Renamed declarations -/

section Renamed

variable {engine : Engine} {d : Declaration} {f : String → String}

/-- Under any names that keep the keys apart, a declaration compiles when its hooks are
registered. -/
theorem inline_renamed_succeeds_iff (hf : ∀ k ∈ d.keys, ∀ k' ∈ d.keys, f k = f k' → k = k') :
    (∃ s, engine.inline (d.renamed f) = .ok s) ↔
      ∀ e ∈ d.entries, ∀ hook, e.2.tree.Asks hook → engine.Registered hook := by
  simp only [inline, Registry.compile_succeeds_iff, Declaration.unknownHook?_renamed hf,
    unknownHook?_eq_none_iff]

/-- The properties of a renamed declaration are set like the properties of one tree. -/
theorem get?_inline_renamed (hf : ∀ k ∈ d.keys, ∀ k' ∈ d.keys, f k = f k' → k = k')
    {s : Style} (hs : engine.inline (d.renamed f) = .ok s) {key : String} {t : KeyedTree}
    (ht : d.get? key = some t) (hname : ¬ ToggleSystem.IsHelperName (f key)) :
    ∃ alone, engine.inline (.single (f key) t) = .ok alone ∧
      s.get? (f key) = alone.get? (f key) := by
  have hmem := OrderedMap.mem_of_get? ht
  have hrenamed : (d.renamed f).get? (f key) = some t := by
    rw [Declaration.get?_renamed hf fun k hk => hf k hk key (List.mem_map_of_mem hmem), ht]
  have hknown := (inline_renamed_succeeds_iff hf).mp ⟨s, hs⟩ _ hmem
  obtain ⟨alone, halone⟩ : ∃ alone, engine.inline (.single (f key) t) = .ok alone :=
    Registry.compile_succeeds_iff.mpr
      (unknownHook?_eq_none_iff.mpr (List.forall_mem_singleton.mpr hknown))
  refine ⟨alone, halone, ?_⟩
  rw [Registry.get?_of_compile hs hname, Registry.get?_of_compile halone hname, hrenamed,
    OrderedMap.get?_single]

end Renamed

/-! ## The keys -/

/-- The look-up of the keys ends at the first that is not known. -/
theorem createTheme_first_unknown {engine : Engine} {g : VariableGroup} {o : Declaration}
    (h : ¬ ∀ key ∈ o.keys, engine.Knows g key) :
    ∃ before key t after, o.entries = before ++ (key, t) :: after ∧
      (∀ b ∈ before, engine.Knows g b.1) ∧
      (g.expressions.get? key = none ∧
          engine.createTheme g o = .error (.unknownVariable key) ∨
        ∃ expression, g.expressions.get? key = some expression ∧
          engine.table.lookup expression = none ∧
          engine.createTheme g o = .error (.foreignVariable expression)) := by
  cases hoverrides : engine.overrides g o.entries with
  | ok es => exact absurd (knows_of_overrides hoverrides) h
  | error error =>
    have hcreate := createTheme_of_overrides_error hoverrides
    obtain ⟨before, key, t, after, ho, hbefore, hproperty⟩ := overrides_eq_error.mp hoverrides
    refine ⟨before, key, t, after, ho, hbefore, ?_⟩
    rcases property_eq_error.mp hproperty with ⟨hkey, rfl⟩ | ⟨expression, hkey, hlookup, rfl⟩
    · exact Or.inl ⟨hkey, hcreate⟩
    · exact Or.inr ⟨expression, hkey, hlookup, hcreate⟩

/-! ## Every run -/

variable {config config' : Config} {start start' : Engine} {calls calls' : List Call} {e : Event}
  {g : VariableGroup} {o : Declaration}

/-- A theme is made from known keys and registered hooks, whichever engine made the group. -/
theorem createTheme_succeeds_iff (hstart : ofConfig config = .ok start)
    (hstart' : ofConfig config' = .ok start') (he : e ∈ start'.events calls')
    (hg : e.outcome = .ok (.group g)) :
    (∃ theme, (start.after calls).createTheme g o = .ok theme) ↔
      (∀ key ∈ o.keys, (start.after calls).Knows g key) ∧
        ∀ entry ∈ o.entries, ∀ hook, entry.2.tree.Asks hook →
          (start.after calls).Registered hook := by
  have hiff : (∀ key ∈ o.keys, (start.after calls).Knows g key) →
      ((∃ theme, (start.after calls).createTheme g o = .ok theme) ↔
        ∀ entry ∈ o.entries, ∀ hook, entry.2.tree.Asks hook →
          (start.after calls).Registered hook) := by
    intro hknows
    rw [createTheme_of_knows hstart hstart' he hg hknows,
      ← inline_renamed_succeeds_iff (nameFor_injective_of_knows hstart hstart' he hg hknows)]
    constructor
    · rintro ⟨theme, h⟩
      obtain ⟨s, hs, -⟩ := Outcome.map_eq_ok.mp h
      exact ⟨s, hs⟩
    · rintro ⟨s, hs⟩
      exact ⟨⟨s⟩, Outcome.map_eq_ok.mpr ⟨s, hs, rfl⟩⟩
  constructor
  · rintro ⟨theme, h⟩
    have hknows := knows_of_createTheme h
    exact ⟨hknows, (hiff hknows).mp ⟨theme, h⟩⟩
  · rintro ⟨hknows, hhooks⟩
    exact (hiff hknows).mpr hhooks

/-- Entry by entry: a theme sets the variable of each key to what the override alone
compiles to. -/
theorem properties_of_createTheme (hstart : ofConfig config = .ok start)
    (hstart' : ofConfig config' = .ok start') (he : e ∈ start'.events calls')
    (hg : e.outcome = .ok (.group g)) {theme : Theme}
    (h : (start.after calls).createTheme g o = .ok theme) :
    List.Forall₂ (fun name entry => e.Gives g entry.1 name ∧
        ∃ alone, (start.after calls).inline (.single name entry.2) = .ok alone ∧
          theme.style.get? name = alone.get? name)
      (theme.style.keys.filter fun name => ¬ ToggleSystem.IsHelperName name)
      (o.entries.filter fun entry => entry.2.tree.leaves ≠ []) := by
  have hknows := knows_of_createTheme h
  have hf := nameFor_injective_of_knows hstart hstart' he hg hknows
  have hgives : ∀ key ∈ o.keys, e.Gives g key (e.nameFor key) := fun key hk =>
    Event.gives_nameFor hg (property_eq_nameFor hstart hstart' he hg (hknows key hk)).1
  have hnames : ∀ key ∈ o.keys, ¬ ToggleSystem.IsHelperName (e.nameFor key) := by
    intro key hk
    obtain ⟨i, expression, -, hallocated⟩ := hgives key hk
    exact Event.not_isHelperName_of_mem_allocated (List.mem_of_getElem? hallocated)
  rw [createTheme_of_knows hstart hstart' he hg hknows] at h
  obtain ⟨s, hs, rfl⟩ := Outcome.map_eq_ok.mp h
  have hkeys : s.keys.filter (fun name => ¬ ToggleSystem.IsHelperName name) =
      (o.entries.filter fun entry => entry.2.tree.leaves ≠ []).map
        fun entry => e.nameFor entry.1 := by
    have hproperties := Registry.properties_of_compile hs (by
      rw [Declaration.keys_renamed hf]
      exact List.forall_mem_map.mpr hnames)
    rw [OrderedMap.keys, ← Entries.keys_filter, hproperties, Declaration.entries_renamed hf,
      List.filter_map, Entries.keys, List.map_map, List.map_map]
    rfl
  rw [hkeys, List.forall₂_map_left_iff, List.forall₂_same]
  intro entry hentry
  have hmem := List.mem_of_mem_filter hentry
  have hkey : entry.1 ∈ o.keys := List.mem_map_of_mem hmem
  exact ⟨hgives _ hkey, get?_inline_renamed hf hs (OrderedMap.get?_of_mem hmem) (hnames _ hkey)⟩

/-- What is created, what is refused and for what, and what a theme sets, for every group that
any engine has issued and on every engine, at any time. -/
theorem acceptance_of_run (hstart : ofConfig config = .ok start)
    (hstart' : ofConfig config' = .ok start') (calls calls' : List Call)
    (he : e ∈ start'.events calls') (hg : e.outcome = .ok (.group g)) (o : Declaration) :
    Acceptance (start.after calls) e g o := by
  refine ⟨createTheme_succeeds_iff hstart hstart' he hg, ?_, ?_,
    fun theme => properties_of_createTheme hstart hstart' he hg, rfl⟩
  · rintro ⟨key, hkey, hunknown⟩
    exact createTheme_first_unknown fun hknows => hunknown (hknows key hkey)
  · intro hknows error h
    rw [createTheme_of_knows hstart hstart' he hg hknows, Outcome.map_eq_error,
      inline_renamed_eq_error (nameFor_injective_of_knows hstart hstart' he hg hknows)] at h
    exact inline_eq_error h

/-- A variable with a default, and one that is cleared. -/
def accentAndEdge : Declaration :=
  .ofList [("accent", .literal (.text "red")), ("edge", .unset)]

/-- The second variable is overridden first, and behind it the first without a leaf. -/
def edgeAndAccent : Declaration := .ofList [("edge", focusInHover), ("accent", .empty)]

theorem acceptance_edgeAndAccent :
    let event : Event := ⟨hoverFocus, .defineVariables accentAndEdge⟩
    let engine := hoverFocus.after [event.call]
    ∃ g theme, event.outcome = .ok (.group g) ∧ Acceptance engine event g edgeAndAccent ∧
      engine.createTheme g edgeAndAccent = .ok theme ∧
      theme.style.keys.filter (fun name => ¬ ToggleSystem.IsHelperName name) =
        ["--_horizon_var_1"] := by
  intro event engine
  obtain ⟨g, hg, hentries⟩ : ∃ g, event.outcome = .ok (.group g) ∧ g.expressions.entries =
      [("accent", "var(--_horizon_var_0,red)"), ("edge", "var(--_horizon_var_1)")] :=
    ⟨_, rfl, by decide +kernel⟩
  have hacceptance : Acceptance engine event g edgeAndAccent :=
    acceptance_of_run ofConfig_hoverFocus ofConfig_hoverFocus [event.call] [event.call]
      List.mem_cons_self hg edgeAndAccent
  have hknows : ∀ key ∈ edgeAndAccent.keys, engine.Knows g key := by
    have hedge : engine.Knows g "edge" :=
      ⟨"var(--_horizon_var_1)", "--_horizon_var_1", by rw [OrderedMap.get?, hentries]; rfl,
        by decide +kernel⟩
    have haccent : engine.Knows g "accent" :=
      ⟨"var(--_horizon_var_0,red)", "--_horizon_var_0", by rw [OrderedMap.get?, hentries]; rfl,
        by decide +kernel⟩
    exact List.forall_mem_cons.mpr ⟨hedge, List.forall_mem_singleton.mpr haccent⟩
  have hhooks : edgeAndAccent.unknownHook? engine.registry.contains = none := by decide +kernel
  obtain ⟨theme, htheme⟩ :=
    hacceptance.succeeds.mpr ⟨hknows, unknownHook?_eq_none_iff.mp hhooks⟩
  refine ⟨g, theme, hg, hacceptance, htheme, ?_⟩
  have hproperties := hacceptance.properties theme htheme
  have hleaves : edgeAndAccent.entries.filter (fun entry => entry.2.tree.leaves ≠ []) =
      [("edge", focusInHover)] := rfl
  rw [hleaves] at hproperties
  obtain ⟨name, rest, ⟨⟨i, expression, hentry, hname⟩, -⟩, hrest, hnames⟩ :=
    List.forall₂_cons_right_iff.mp hproperties
  rw [hnames, List.forall₂_nil_right_iff.mp hrest]
  -- the key stands second in the group
  obtain rfl : i = 1 := by
    rw [hentries] at hentry
    match i with
    | 0 => simp at hentry
    | 1 => rfl
    | i + 2 => simp at hentry
  have hallocated : event.allocated = ["--_horizon_var_0", "--_horizon_var_1"] := by
    decide +kernel
  rw [hallocated] at hname
  rw [← Option.some.inj hname]

end Engine

end HookStyle
