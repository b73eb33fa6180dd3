import HookStyle.Proofs.Engine.Runs
import Mathlib.Data.List.Pairwise

/-!
# The ledger of a run

Whatever is done with an engine, and in whichever order, the custom properties that it hands
out are distinct, and its table answers for exactly the expressions that were handed out.

* `Ledger`: what holds of the properties and of the table after a run.
* `exists_defaults_of_group`: a group has one expression for each of its defaults.
* `failsAfter_of_error`: what a failing call leaves behind.
* `HandsOut.exists_event`, `exists_handsOut_of_group`: the properties that are handed out are
  among those that were allocated, and every key of a group has one.
* `ledger_of_run`: every run of an engine that starts from its configuration has a ledger.
-/

namespace HookStyle

open Css Evaluation

namespace Event

/-- The numbers that a failing call uses up: one for every parameter; those up to the first
default that does not compile; none for every other call. -/
def FailsAfter (e : Event) (error : StyleError) (count : Nat) : Prop :=
  match e.call with
  | .createParametric arity _ => count = arity
  | .defineVariables defaults =>
    ∃ i key t, defaults.entries[i]? = some (key, t) ∧ count = i + 1 ∧
      (∀ name, e.before.inline (.single name t) = .error error) ∧
      ∀ j < i, ∀ key' t', defaults.entries[j]? = some (key', t') →
        ∀ name, ∃ s, e.before.inline (.single name t') = .ok s
  | _ => count = 0

theorem failsAfter_of_error {e : Event} {error : StyleError} (h : e.outcome = .error error) :
    ∃ count, e.FailsAfter error count ∧ e.after = e.before.advance count := by
  obtain ⟨engine, call⟩ := e
  cases call with
  | defineVariables defaults =>
    rcases defineVariables_step engine defaults with ⟨-, -, houtcome, -⟩ |
      ⟨before, key, t, after, error', hes, hbefore, herror, -, -, houtcome, hafter⟩
    · rw [houtcome] at h
      cases h
    · obtain rfl := Except.error.inj (houtcome.symm.trans h)
      refine ⟨before.length + 1, ⟨before.length, key, t, ?_, rfl, herror, ?_⟩, hafter⟩
      · rw [hes, List.getElem?_append_right (Nat.le_refl _), Nat.sub_self]
        rfl
      · intro j hj key' t' hget
        rw [hes, List.getElem?_append_left hj] at hget
        exact hbefore _ (List.mem_of_getElem? hget)
  | createParametric arity declare => exact ⟨arity, rfl, rfl⟩
  | animate animation => cases h
  | inline d | create ds | createTheme group d | apply p arguments | keyframeSheet names =>
    exact ⟨0, rfl, rfl⟩

theorem length_allocated (e : Event) : e.allocated.length = e.used := by
  rw [allocated, VariableTable.fresh, List.length_map, List.length_range]

/-- The properties that a call allocates are those that the counter passes over. -/
theorem allocated_eq (e : Event) :
    e.allocated = (List.range' e.before.table.next (e.after.table.next - e.before.table.next)).map
      (VariableTable.nameOf e.before.config.namePart) := by
  rw [next_after, Nat.add_sub_cancel_left, List.range'_eq_map_range, List.map_map]
  rfl

/-- The parameters of a parametric style are the names its call has allocated. -/
theorem parameters_of_outcome {e : Event} {p : ParametricStyle}
    (h : e.outcome = .ok (.parametric p)) : p.parameters = e.allocated := by
  obtain ⟨engine, call⟩ := e
  cases call with
  | createParametric arity declare =>
    obtain ⟨q, hq, hp⟩ := Outcome.map_eq_ok.mp h
    obtain ⟨s, -, rfl⟩ := Outcome.map_eq_ok.mp hq
    obtain rfl := Answer.parametric.inj hp
    rfl
  | defineVariables defaults | inline d | create ds | createTheme group d | apply p arguments
  | keyframeSheet names =>
    obtain ⟨_, -, ha⟩ := Outcome.map_eq_ok.mp h
    cases ha
  | animate animation => cases h

/-- A group has one expression for each of its defaults, that of the variable that was built
for it. -/
theorem exists_defaults_of_group {e : Event} {g : VariableGroup}
    (h : e.outcome = .ok (.group g)) : ∃ defaults, e.call = .defineVariables defaults ∧
      e.built.length = e.used ∧ e.recorded = e.built ∧
      e.built.map Engine.Definition.key = defaults.keys ∧
      g = Engine.groupOf e.before.config.layout e.built ∧
      g.expressions.entries =
        e.built.map fun d => (d.key, d.expression e.before.config.layout) := by
  have hrecorded : e.recorded = e.built := by rw [recorded, h]
  obtain ⟨engine, call⟩ := e
  cases call with
  | defineVariables defaults =>
    rcases defineVariables_step engine defaults with ⟨hlen, hused, houtcome, -⟩ |
      ⟨_, _, _, _, error, -, -, -, -, -, houtcome, -⟩
    · have hkeys : (built ⟨engine, .defineVariables defaults⟩).map Engine.Definition.key
          = defaults.keys := by
        refine List.ext_getElem (by
          rw [List.length_map, hlen]
          exact (List.length_map Prod.fst).symm) ?_
        intro i hi _
        rw [List.length_map] at hi
        obtain ⟨_, t, hcall, hget, -⟩ := getElem?_built (List.getElem?_eq_getElem hi)
        obtain rfl := Call.defineVariables.inj hcall
        obtain ⟨_, hget⟩ := List.getElem?_eq_some_iff.mp hget
        simp [OrderedMap.keys, Entries.keys, hget]
      rw [houtcome] at h
      obtain rfl := Answer.group.inj (Except.ok.inj h)
      refine ⟨defaults, rfl, hlen.trans hused.symm, hrecorded, hkeys, rfl,
        OrderedMap.entries_ofList ?_⟩
      rw [Entries.keys, List.map_map]
      exact hkeys ▸ defaults.keys_nodup
    · rw [houtcome] at h
      cases h
  | createParametric arity declare | inline d | create ds | createTheme group d
  | apply p arguments | keyframeSheet names =>
    obtain ⟨_, -, ha⟩ := Outcome.map_eq_ok.mp h
    cases ha
  | animate animation => cases h

theorem keys_built {e : Event} {g : VariableGroup} (h : e.outcome = .ok (.group g))
    {defaults : Declaration} (hcall : e.call = .defineVariables defaults) :
    e.built.map Engine.Definition.key = defaults.keys := by
  obtain ⟨defaults', hcall', -, -, hkeys, -⟩ := exists_defaults_of_group h
  obtain rfl := Call.defineVariables.inj (hcall.symm.trans hcall')
  exact hkeys

/-- A group has the keys of the variables that were built for it. -/
theorem exists_built_of_get? {e : Event} {g : VariableGroup} (h : e.outcome = .ok (.group g))
    {key expression : String} (hkey : g.expressions.get? key = some expression) :
    ∃ d ∈ e.built, d.key = key ∧ d.expression e.before.config.layout = expression := by
  obtain ⟨-, -, -, -, -, -, hentries⟩ := exists_defaults_of_group h
  have hmem := OrderedMap.mem_of_get? hkey
  rw [hentries] at hmem
  obtain ⟨d, hd, heq⟩ := List.mem_map.mp hmem
  exact ⟨d, hd, Prod.mk.inj heq⟩

theorem getElem?_group {e : Event} {g : VariableGroup} (h : e.outcome = .ok (.group g)) {i : Nat}
    {d : Engine.Definition} (hd : e.built[i]? = some d) :
    g.expressions.get? d.key = some (d.expression e.before.config.layout) := by
  obtain ⟨-, -, -, -, -, -, hentries⟩ := exists_defaults_of_group h
  refine OrderedMap.get?_of_mem ?_
  rw [hentries]
  exact List.mem_map_of_mem (List.mem_of_getElem? hd)

end Event

/-- What holds of the custom properties after a run of an engine with a configuration. The
events are the calls of the run, and `last` is the engine after it. -/
structure Ledger (config : Config) (events : List Event) (last : Engine) : Prop where
  /-- No property is allocated twice. -/
  distinct : (events.flatMap Event.allocated).Nodup
  /-- The counter never decreases, and the numbers that it passes over are those of the
  allocated properties. -/
  counter : ∀ e ∈ events, e.before.table.next ≤ e.after.table.next ∧
    e.allocated = (List.range' e.before.table.next
      (e.after.table.next - e.before.table.next)).map (VariableTable.nameOf config.namePart)
  /-- A parametric style has the properties of its call. -/
  parameters : ∀ e ∈ events, ∀ p, e.outcome = .ok (.parametric p) → p.parameters = e.allocated
  /-- Each key of a group has a property of its call. Its expression still stands for that
  property, so an override of the key sets that property and no other. -/
  keeps : ∀ e ∈ events, ∀ g, e.outcome = .ok (.group g) →
    (∃ defaults, e.call = .defineVariables defaults ∧ g.expressions.keys = defaults.keys) ∧
      g.expressions.size = e.allocated.length ∧
      ∀ (i : Nat) key expression, g.expressions.entries[i]? = some (key, expression) →
        ∃ name, e.allocated[i]? = some name ∧ last.table.lookup expression = some name ∧
          ∀ t, last.createTheme g (.single key t) = (last.inline (.single name t)).map Theme.mk
  /-- The table has nothing but the expressions of groups. -/
  only : ∀ expression name, last.table.lookup expression = some name →
    ∃ e ∈ events, ∃ g, e.outcome = .ok (.group g) ∧ ∃ (i : Nat) (key : String),
      g.expressions.entries[i]? = some (key, expression) ∧ e.allocated[i]? = some name
  /-- An expression that was built by a failing definition of variables is refused. -/
  refuses : ∀ e ∈ events, ∀ error, e.outcome = .error error → ∀ d ∈ e.built,
    last.table.lookup (d.expression config.layout) = none ∧
      ∀ g key t, g.expressions.get? key = some (d.expression config.layout) →
        last.createTheme g (.single key t) = .error (.foreignVariable (d.expression config.layout))
  /-- A failing call changes nothing but the counter. -/
  failure : ∀ e ∈ events, ∀ error, e.outcome = .error error →
    ∃ count, e.FailsAfter error count ∧ e.after = e.before.advance count

namespace Engine

/-! ## Overrides of single keys -/

/-- One known key: the override is compiled under the name of its variable. -/
theorem createTheme_single {engine : Engine} {g : VariableGroup} {key expression name : String}
    (hkey : g.expressions.get? key = some expression)
    (hname : engine.table.lookup expression = some name) (t : KeyedTree) :
    engine.createTheme g (.single key t) = (engine.inline (.single name t)).map Theme.mk := by
  have hproperty : engine.property g key = .ok name := property_eq_ok.mpr ⟨expression, hkey, hname⟩
  have hsingle : OrderedMap.ofList [(name, t)] = .single name t := rfl
  change ((engine.overrides g [(key, t)]).bind _) = _
  rw [overrides, overrides, hproperty]
  exact congrArg (fun d => (engine.inline d).map Theme.mk) hsingle

/-- A theme fails before anything is compiled if one of its keys is refused. -/
theorem createTheme_of_overrides_error {engine : Engine} {g : VariableGroup} {o : Declaration}
    {error : StyleError} (h : engine.overrides g o.entries = .error error) :
    engine.createTheme g o = .error error := by
  rw [createTheme, h]
  rfl

/-- The first override decides: the rest is not looked at. -/
theorem createTheme_first_foreign {engine : Engine} {g : VariableGroup} {key expression : String}
    (hkey : g.expressions.get? key = some expression)
    (hname : engine.table.lookup expression = none) {o : Declaration} {t : KeyedTree}
    {rest : List (String × KeyedTree)} (ho : o.entries = (key, t) :: rest) :
    engine.createTheme g o = .error (.foreignVariable expression) :=
  createTheme_of_overrides_error (overrides_eq_error.mpr
    ⟨[], key, t, rest, ho, fun _ hb => absurd hb List.not_mem_nil,
      property_eq_error.mpr (Or.inr ⟨expression, hkey, hname, rfl⟩)⟩)

theorem createTheme_foreign {engine : Engine} {g : VariableGroup} {key expression : String}
    (hkey : g.expressions.get? key = some expression)
    (hname : engine.table.lookup expression = none) (t : KeyedTree) :
    engine.createTheme g (.single key t) = .error (.foreignVariable expression) :=
  createTheme_first_foreign hkey hname rfl

/-! ## Every run has a ledger -/

/-- An engine starts with the given configuration and an empty table. -/
theorem ofConfig_eq_ok {config : Config} {start : Engine} (h : ofConfig config = .ok start) :
    Config.isNamePart config.namePart = true ∧ start.config = config ∧ start.table = .empty := by
  obtain ⟨_, hvalid, h⟩ := Outcome.bind_eq_ok.mp h
  obtain ⟨registry, -, rfl⟩ := Outcome.map_eq_ok.mp h
  refine ⟨?_, rfl, rfl⟩
  unfold Config.validate at hvalid
  split at hvalid
  · cases hvalid
  next h => simpa using h

variable {start : Engine} {calls : List Call}

/-- Calls with different outcomes have allocated different properties. -/
theorem eq_of_mem_allocated {e e' : Event} (he : e ∈ start.events calls)
    (he' : e' ∈ start.events calls) (hne : e ≠ e') {name : String} (h : name ∈ e.allocated) :
    name ∉ e'.allocated := by
  have hdisjoint := (List.nodup_flatMap.mp (start.nodup_allocated calls)).2
  have : Std.Symm (Function.onFun List.Disjoint Event.allocated) :=
    ⟨fun _ _ hd _ ha hb => hd hb ha⟩
  exact fun h' => hdisjoint.forall he he' hne h h'

/-- What the table has for the expression of a variable is the property of that variable, and
a successful call of the run has built it. The variable may be another engine's. -/
theorem exists_built_of_lookup (hname : Config.isNamePart start.config.namePart = true)
    (htable : start.table = .empty) {d : Definition} (hd : isName d.name = true) {layout : Layout}
    {name : String}
    (h : (start.after calls).table.lookup (d.expression layout) = some name) :
    name = d.name ∧ ∃ e ∈ start.events calls, (∃ g, e.outcome = .ok (.group g)) ∧
      ∃ d' ∈ e.built, d'.name = d.name := by
  rw [lookup_after, htable] at h
  rcases exists_of_lookup_recordAll h with ⟨d', hd', hexpression, rfl⟩ | hempty
  · obtain ⟨e, he, hbuilt, hgroup⟩ := exists_event_of_mem_recorded hd'
    have hsame := Definition.expression_injective (isName_of_mem_built hname he hbuilt) hd
      hexpression
    exact ⟨hsame, e, he, hgroup, d', hbuilt, hsame⟩
  · cases hempty

/-- What a failed call built has not been recorded, then or later. -/
theorem lookup_built_of_error (hname : Config.isNamePart start.config.namePart = true)
    (htable : start.table = .empty) {e : Event} (he : e ∈ start.events calls) {error : StyleError}
    (herror : e.outcome = .error error) {d : Definition} (hd : d ∈ e.built) :
    (start.after calls).table.lookup (d.expression start.config.layout) = none := by
  rw [Option.eq_none_iff_forall_ne_some]
  intro name hlookup
  obtain ⟨-, e', he', ⟨g, hgroup⟩, d', hbuilt, hsame⟩ :=
    exists_built_of_lookup hname htable (isName_of_mem_built hname he hd) hlookup
  -- the two calls have different outcomes, so they are not the same call
  have hne : e' ≠ e := by
    rintro rfl
    rw [herror] at hgroup
    cases hgroup
  exact eq_of_mem_allocated he' he hne (Event.name_mem_allocated hbuilt)
    (hsame ▸ Event.name_mem_allocated hd)

/-- The entries of a group are those of its call, in the order of the keys. -/
theorem getElem?_entries_of_group {e : Event} (he : e ∈ start.events calls) {g : VariableGroup}
    (hg : e.outcome = .ok (.group g)) (i : Nat) :
    g.expressions.entries[i]?
      = e.built[i]?.map fun d => (d.key, d.expression start.config.layout) := by
  obtain ⟨-, -, -, -, -, -, hentries⟩ := Event.exists_defaults_of_group hg
  rw [hentries, List.getElem?_map, config_of_mem_events he]

/-- The expressions of a group stand for the properties of its call, for as long as the engine
is used. -/
theorem exists_name_of_group (hname : Config.isNamePart start.config.namePart = true) {e : Event}
    (he : e ∈ start.events calls) {g : VariableGroup} (hg : e.outcome = .ok (.group g)) {i : Nat}
    {key expression : String} (hget : g.expressions.entries[i]? = some (key, expression)) :
    ∃ name, e.allocated[i]? = some name ∧
      (start.after calls).table.lookup expression = some name ∧
        ∀ t, (start.after calls).createTheme g (.single key t)
          = ((start.after calls).inline (.single name t)).map Theme.mk := by
  obtain ⟨-, -, -, hrecorded, -, -, -⟩ := Event.exists_defaults_of_group hg
  rw [getElem?_entries_of_group he hg] at hget
  obtain ⟨d, hd, hkey⟩ := Option.map_eq_some_iff.mp hget
  obtain ⟨rfl, rfl⟩ := Prod.mk.inj hkey
  obtain ⟨-, -, -, -, hallocated, -⟩ := Event.getElem?_built hd
  have hlookup := lookup_after_of_recorded hname he
    (hrecorded ▸ List.mem_of_getElem? hd : d ∈ e.recorded)
  have hexpression := Event.getElem?_group hg hd
  rw [config_of_mem_events he] at hexpression
  exact ⟨d.name, hallocated, hlookup, createTheme_single hexpression hlookup⟩

/-- What the table knows was handed out in a group. -/
theorem exists_group_of_lookup (htable : start.table = .empty) {expression name : String}
    (hlookup : (start.after calls).table.lookup expression = some name) :
    ∃ e ∈ start.events calls, ∃ g, e.outcome = .ok (.group g) ∧ ∃ (i : Nat) (key : String),
      g.expressions.entries[i]? = some (key, expression) ∧ e.allocated[i]? = some name := by
  rw [lookup_after, htable] at hlookup
  rcases exists_of_lookup_recordAll hlookup with ⟨d, hd, rfl, rfl⟩ | hempty
  · obtain ⟨e, he, hbuilt, g, hg⟩ := exists_event_of_mem_recorded hd
    obtain ⟨i, hi⟩ := List.mem_iff_getElem?.mp hbuilt
    obtain ⟨-, -, -, -, hallocated, -⟩ := Event.getElem?_built hi
    refine ⟨e, he, g, hg, i, d.key, ?_, hallocated⟩
    rw [getElem?_entries_of_group he hg, hi]
    rfl
  · cases hempty

/-- A custom property that a run hands out: a parameter of a parametric style, or the property
behind an expression of a group. -/
inductive HandsOut (start : Engine) (calls : List Call) (name : String) : Prop
  | ofParametric (e : Event) (p : ParametricStyle) (he : e ∈ start.events calls)
    (houtcome : e.outcome = .ok (.parametric p)) (hname : name ∈ p.parameters)
  | ofGroup (e : Event) (g : VariableGroup) (key expression : String)
    (he : e ∈ start.events calls) (houtcome : e.outcome = .ok (.group g))
    (hkey : g.expressions.get? key = some expression)
    (hname : (start.after calls).table.lookup expression = some name)

/-- What is handed out was allocated by some call of the run. -/
theorem HandsOut.exists_event {name : String} (h : start.HandsOut calls name)
    (htable : start.table = .empty) : ∃ e ∈ start.events calls, name ∈ e.allocated := by
  cases h with
  | ofParametric e p he houtcome hname =>
    exact ⟨e, he, Event.parameters_of_outcome houtcome ▸ hname⟩
  | ofGroup e g key expression he houtcome hkey hname =>
    obtain ⟨e', he', -, -, i, -, -, hget⟩ := exists_group_of_lookup htable hname
    exact ⟨e', he', List.mem_of_getElem? hget⟩

/-- A group hands out a property for each of its keys. -/
theorem exists_handsOut_of_group (hname : Config.isNamePart start.config.namePart = true)
    {e : Event} (he : e ∈ start.events calls) {g : VariableGroup}
    (hg : e.outcome = .ok (.group g)) {key : String} (hkey : key ∈ g.expressions.keys) :
    ∃ expression name, g.expressions.get? key = some expression ∧
      (start.after calls).table.lookup expression = some name ∧ start.HandsOut calls name := by
  obtain ⟨expression, hmem⟩ := Entries.mem_keys.mp hkey
  have hexpression := OrderedMap.get?_of_mem hmem
  obtain ⟨i, hi⟩ := List.mem_iff_getElem?.mp hmem
  obtain ⟨name, -, hlookup, -⟩ := exists_name_of_group hname he hg hi
  exact ⟨expression, name, hexpression, hlookup,
    .ofGroup e g key expression he hg hexpression hlookup⟩

/-- The custom properties of a run are in order. -/
theorem ledger_of_run {config : Config} {start : Engine} (hstart : ofConfig config = .ok start)
    (calls : List Call) : Ledger config (start.events calls) (start.after calls) := by
  obtain ⟨hname, rfl, htable⟩ := ofConfig_eq_ok hstart
  refine ⟨start.nodup_allocated calls, ?_, fun e _ p => Event.parameters_of_outcome, ?_,
    fun expression name => exists_group_of_lookup htable, ?_,
    fun e _ error => Event.failsAfter_of_error⟩
  · intro e he
    rw [← config_of_mem_events he]
    refine ⟨?_, e.allocated_eq⟩
    rw [Event.next_after]
    exact Nat.le_add_right _ _
  · intro e he g hg
    obtain ⟨defaults, hcall, hlen, -, hkeys, -, hentries⟩ := Event.exists_defaults_of_group hg
    refine ⟨⟨defaults, hcall, ?_⟩, ?_, fun i key expression => exists_name_of_group hname he hg⟩
    · rw [← hkeys, OrderedMap.keys, hentries, Entries.keys, List.map_map]
      rfl
    · rw [OrderedMap.size, hentries, List.length_map, hlen, Event.length_allocated]
  · intro e he error herror d hd
    have hlookup := lookup_built_of_error hname htable he herror hd
    exact ⟨hlookup, fun g key t hkey => createTheme_foreign hkey hlookup t⟩

/-- A definition that succeeds, one that fails at its second default, and parameters. -/
def threeCalls : List Call :=
  [.defineVariables (.single "accent" (.literal (.text "red"))),
    .defineVariables (.ofList [("a", .unset), ("b", KeyedTree.empty.on ":focus" .unset)]),
    .createParametric 2 fun references => .ok (.ofList (references.map fun r =>
      (r, .literal (.text r))))]

theorem ledger_of_threeCalls : ∃ start, ofConfig (.withHooks [":hover"]) = .ok start ∧
    Ledger (.withHooks [":hover"]) (start.events threeCalls) (start.after threeCalls) ∧
      (start.events threeCalls).flatMap Event.allocated =
        ["--_horizon_var_0", "--_horizon_var_1", "--_horizon_var_2", "--_horizon_var_3",
          "--_horizon_var_4"] := by
  have hallocated : (ofConfig (.withHooks [":hover"])).toOption.map
      (fun start => (start.events threeCalls).flatMap Event.allocated) =
        some ["--_horizon_var_0", "--_horizon_var_1", "--_horizon_var_2", "--_horizon_var_3",
          "--_horizon_var_4"] := by decide +kernel
  cases h : ofConfig (.withHooks [":hover"]) with
  | error e =>
    rw [h] at hallocated
    cases hallocated
  | ok start =>
    rw [h] at hallocated
    exact ⟨start, rfl, ledger_of_run h threeCalls, Option.some.inj hallocated⟩

end Engine

end HookStyle
