import HookStyle.Proofs.Engine.Ledger
import HookStyle.Proofs.Style.Animations

/-!
# Engines of other names

Two engines with different common parts of their names have no generated name in common,
whatever is done with them. A group that one of them has issued means nothing to the other:
no expression of it is in the other's table, whatever its default is.

* `animations_after`: a run uses the animations of an engine like a store of its own.
* `exists_number_of_mem_generated`: a generated name belongs to one of two families.
* `disjoint_generated`: two runs generate no common name.
* `lookup_foreign`: the expressions of one engine are unknown to the other.
* `foreign_refused`: a theme over the other's group is refused, and no property or animation
  name is handed out by both.
-/

namespace HookStyle

open Css Evaluation

/-- What a call asks of the animation store. -/
def Call.use? : Call → Option AnimationStore.Use
  | .animate animation => some (.register animation)
  | .keyframeSheet names => some (.sheet names)
  | _ => none

/-- The names that a call generates: its custom properties, or the name of its animation. -/
def Event.generated (e : Event) : List String :=
  e.allocated ++
    match e.outcome with
    | .ok (.name name) => [name]
    | _ => []

/-- Variables and animations are numbered behind different words. -/
theorem VariableTable.nameOf_ne_animation (namePart namePart' : String) (m n : Nat) :
    nameOf namePart m ≠ AnimationStore.nameOf namePart' n := by
  intro h
  have hhead := congrArg (fun s => s.toList.head?) h
  simp [nameOf, AnimationStore.nameOf] at hhead

namespace Engine

variable {config : Config} {start : Engine} {calls : List Call}

/-! ## Generated names -/

/-- A call uses the store for what it asks of it, and for nothing else. -/
theorem animations_call (engine : Engine) (c : Call) :
    (engine.call c).2.animations = engine.animations.after c.use?.toList := by
  cases c with
  | defineVariables defaults =>
    rcases Event.defineVariables_step engine defaults with ⟨-, -, -, hafter⟩ |
      ⟨_, _, _, _, _, -, -, -, -, -, -, hafter⟩
    · exact (congrArg Engine.animations hafter).trans rfl
    · exact (congrArg Engine.animations hafter).trans rfl
  | inline d | create ds | createParametric arity declare | createTheme group d
  | apply p arguments | animate animation | keyframeSheet names => rfl

/-- A run uses the store for what its calls ask of it, in their order. -/
theorem animations_after (engine : Engine) (calls : List Call) :
    (engine.after calls).animations = engine.animations.after (calls.filterMap Call.use?) := by
  induction calls generalizing engine with
  | nil => rfl
  | cons c calls ih =>
    have hstep := ih (engine.call c).2
    rw [animations_call] at hstep
    refine hstep.trans ?_
    rw [List.filterMap_cons]
    cases c.use? <;> rfl

theorem animations_of_ofConfig (h : ofConfig config = .ok start) :
    start.animations = .empty config.namePart config.layout := by
  obtain ⟨_, -, h⟩ := Outcome.bind_eq_ok.mp h
  obtain ⟨registry, -, rfl⟩ := Outcome.map_eq_ok.mp h
  rfl

/-- Names have the common part of the configuration, in either family. -/
theorem exists_number_of_mem_generated (hstart : ofConfig config = .ok start) {name : String}
    (h : name ∈ (start.events calls).flatMap Event.generated) :
    ∃ n, name = VariableTable.nameOf config.namePart n ∨
      name = AnimationStore.nameOf config.namePart n := by
  obtain ⟨-, rfl, -⟩ := ofConfig_eq_ok hstart
  obtain ⟨e, he, h⟩ := List.mem_flatMap.mp h
  rcases List.mem_append.mp h with h | h
  · obtain ⟨n, hn⟩ := Event.exists_number_of_mem_allocated h
    rw [config_of_mem_events he] at hn
    exact ⟨n, Or.inl hn⟩
  · obtain ⟨before, -, -, hbefore⟩ := exists_of_mem_events he
    have hpart : e.before.animations.namePart = start.config.namePart := by
      rw [hbefore, animations_after, AnimationStore.namePart_after, animations_of_ofConfig hstart]
      rfl
    split at h
    next issued houtcome =>
      obtain rfl := List.mem_singleton.mp h
      obtain ⟨engine, call⟩ := e
      cases call with
      | animate animation =>
        obtain rfl := Answer.name.inj (Except.ok.inj houtcome)
        exact ⟨engine.animations.next, Or.inr (hpart ▸ rfl)⟩
      | inline d | create ds | createParametric arity declare | defineVariables defaults
      | createTheme group d | apply p arguments | keyframeSheet names =>
        obtain ⟨_, -, ha⟩ := Outcome.map_eq_ok.mp houtcome
        cases ha
    next => cases h

theorem disjoint_generated {config' : Config} {start' : Engine}
    (hstart : ofConfig config = .ok start) (hstart' : ofConfig config' = .ok start')
    (hne : config.namePart ≠ config'.namePart) (calls calls' : List Call) :
    List.Disjoint ((start.events calls).flatMap Event.generated)
      ((start'.events calls').flatMap Event.generated) := by
  intro name h h'
  obtain ⟨m, hm⟩ := exists_number_of_mem_generated hstart h
  obtain ⟨n, hn⟩ := exists_number_of_mem_generated hstart' h'
  rcases hm with rfl | rfl
  · rcases hn with hn | hn
    · exact hne (VariableTable.nameOf_inj.mp hn).1
    · exact VariableTable.nameOf_ne_animation _ _ m n hn
  · rcases hn with hn | hn
    · exact VariableTable.nameOf_ne_animation _ _ n m hn.symm
    · exact hne (AnimationStore.nameOf_inj.mp hn).1

/-! ## Groups of the other engine -/

/-- Every key of a group belongs to a variable that its call built. -/
theorem exists_built_of_mem_keys {e : Event} {g : VariableGroup}
    (hg : e.outcome = .ok (.group g)) {key : String} (h : key ∈ g.expressions.keys) :
    ∃ d ∈ e.built, g.expressions.get? key = some (d.expression e.before.config.layout) := by
  obtain ⟨expression, hmem⟩ := Entries.mem_keys.mp h
  have hexpression := OrderedMap.get?_of_mem hmem
  obtain ⟨d, hd, -, rfl⟩ := Event.exists_built_of_get? hg hexpression
  exact ⟨d, hd, hexpression⟩

/-- A table has nothing for an expression over a name that its engine cannot generate. -/
theorem lookup_foreign {config' : Config} {start' : Engine}
    (hstart : ofConfig config = .ok start) (hstart' : ofConfig config' = .ok start')
    (hne : config.namePart ≠ config'.namePart) (calls' : List Call) {e : Event}
    (he : e ∈ start.events calls) {d : Definition} (hd : d ∈ e.built) (layout : Layout) :
    (start'.after calls').table.lookup (d.expression layout) = none := by
  obtain ⟨hname, rfl, -⟩ := ofConfig_eq_ok hstart
  obtain ⟨hname', rfl, htable'⟩ := ofConfig_eq_ok hstart'
  rw [Option.eq_none_iff_forall_ne_some]
  intro name hlookup
  obtain ⟨-, e', he', -, d', hbuilt, hsame⟩ :=
    exists_built_of_lookup hname' htable' (isName_of_mem_built hname he hd) hlookup
  obtain ⟨m, hm⟩ := Event.exists_number_of_mem_allocated (Event.name_mem_allocated hd)
  obtain ⟨n, hn⟩ := Event.exists_number_of_mem_allocated (Event.name_mem_allocated hbuilt)
  rw [config_of_mem_events he] at hm
  rw [config_of_mem_events he', hsame, hm] at hn
  exact hne (VariableTable.nameOf_inj.mp hn).1

/-- All that the engine hands out under a number is among the generated names. -/
theorem mem_generated_of_handsOut (hstart : ofConfig config = .ok start) {name : String}
    (h : start.HandsOut calls name) : name ∈ (start.events calls).flatMap Event.generated := by
  obtain ⟨-, -, htable⟩ := ofConfig_eq_ok hstart
  obtain ⟨e, he, hname⟩ := h.exists_event htable
  exact List.mem_flatMap.mpr ⟨e, he, List.mem_append_left _ hname⟩

theorem mem_generated_of_name {e : Event} (he : e ∈ start.events calls) {name : String}
    (h : e.outcome = .ok (.name name)) : name ∈ (start.events calls).flatMap Event.generated := by
  refine List.mem_flatMap.mpr ⟨e, he, List.mem_append_right _ ?_⟩
  rw [h]
  exact List.mem_singleton_self name

/-- Two engines that name differently refuse each other's groups, at the first key that a theme
overrides, and have no generated name in common: no property that both hand out, and no
animation of the same name. -/
theorem foreign_refused {config' : Config} {start' : Engine} (hstart : ofConfig config = .ok start)
    (hstart' : ofConfig config' = .ok start') (hne : config.namePart ≠ config'.namePart)
    (calls calls' : List Call) :
    (∀ e ∈ start.events calls, ∀ g, e.outcome = .ok (.group g) →
      ∀ o : Declaration, o.keys ≠ [] → (∀ key ∈ o.keys, key ∈ g.expressions.keys) →
        ∃ key expression, o.keys.head? = some key ∧ g.expressions.get? key = some expression ∧
          (start'.after calls').call (.createTheme g o) =
            (.error (.foreignVariable expression), start'.after calls')) ∧
      List.Disjoint ((start.events calls).flatMap Event.generated)
        ((start'.events calls').flatMap Event.generated) ∧
      (∀ name, start.HandsOut calls name → ¬ start'.HandsOut calls' name) ∧
      ∀ e ∈ start.events calls, ∀ e' ∈ start'.events calls', ∀ name,
        e.outcome = .ok (.name name) → e'.outcome ≠ .ok (.name name) := by
  have hdisjoint := disjoint_generated hstart hstart' hne calls calls'
  refine ⟨fun e he g hg o hkeys hall => ?_, hdisjoint, fun name h h' => ?_,
    fun e he e' he' name h h' => ?_⟩
  · obtain ⟨⟨key, t⟩, rest, ho⟩ := List.exists_cons_of_ne_nil (mt List.map_eq_nil_iff.mpr hkeys)
    have hhead : o.keys = key :: Entries.keys rest := congrArg Entries.keys ho
    obtain ⟨d, hd, hexpression⟩ :=
      exists_built_of_mem_keys hg (hall key (hhead ▸ List.mem_cons_self))
    have hlookup := lookup_foreign hstart hstart' hne calls' he hd e.before.config.layout
    refine ⟨key, _, congrArg List.head? hhead, hexpression, ?_⟩
    rw [call, createTheme_first_foreign hexpression hlookup ho]
    rfl
  · exact hdisjoint (mem_generated_of_handsOut hstart h) (mem_generated_of_handsOut hstart' h')
  · exact hdisjoint (mem_generated_of_name he h) (mem_generated_of_name he' h')

/-! ## A name inside another -/

/-- An engine without hooks. -/
def bare (namePart : String) : Engine where
  config := ⟨[], false, ToggleSystem.defaultFallback, namePart⟩
  registry := ⟨[], List.nodup_nil, .compact, ToggleSystem.defaultFallback⟩
  table := .empty
  animations := .empty namePart .compact

theorem ofConfig_bare {namePart : String} (h : Config.isNamePart namePart = true) :
    ofConfig (bare namePart).config = .ok (bare namePart) := by
  have hvalid : (bare namePart).config.validate = .ok () := by
    simp [Config.validate, bare, h, Config.not_isBlankText_default]
  rw [ofConfig, hvalid]
  rfl

def accent (color : String) : Declaration := .single "accent" (.literal (.text color))

/-- The names of one engine start like the first name of the other. -/
theorem foreign_refused_accent :
    let event : Event := ⟨bare "app", .defineVariables (accent "red")⟩
    let other := (bare "app_var_0").after [.defineVariables (accent "green")]
    ∃ g, event.outcome = .ok (.group g) ∧
      other.call (.createTheme g (accent "blue")) =
        (.error (.foreignVariable "var(--_app_var_0,red)"), other) := by
  intro event other
  obtain ⟨g, hgroup, hentries⟩ : ∃ g, event.outcome = .ok (.group g) ∧
      g.expressions.entries = [("accent", "var(--_app_var_0,red)")] :=
    ⟨_, rfl, by decide +kernel⟩
  have hstart : ofConfig (bare "app").config = .ok (bare "app") :=
    ofConfig_bare (by decide +kernel)
  have hstart' : ofConfig (bare "app_var_0").config = .ok (bare "app_var_0") :=
    ofConfig_bare (by decide +kernel)
  have hkeys : ∀ key ∈ (accent "blue").keys, key ∈ g.expressions.keys := by
    rw [OrderedMap.keys, OrderedMap.keys, hentries]
    exact fun key h => h
  obtain ⟨hrefused, -⟩ := foreign_refused hstart hstart' (by decide) [event.call]
    [.defineVariables (accent "green")]
  obtain ⟨key, expression, hfirst, hexpression, hcall⟩ := hrefused event List.mem_cons_self g
    hgroup (accent "blue") (List.cons_ne_nil _ _) hkeys
  obtain rfl := Option.some.inj hfirst
  rw [OrderedMap.get?, hentries] at hexpression
  obtain rfl := Option.some.inj hexpression
  exact ⟨g, hgroup, hcall⟩

end Engine

end HookStyle
