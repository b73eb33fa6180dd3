import HookStyle.Proofs.Engine.Variables

/-!
# Runs of an engine

A run is any sequence of calls on one engine, successful or not. The only state that a call
can change is the counter of generated properties, the table of expressions and the store of
animations.

* `Call`, `Event`: a use of an engine, and a use with the engine before it.
* `defineVariables_step`, `after_eq`: what one call does to the engine.
* `flatMap_allocated`: a run allocates the properties of consecutive numbers.
* `lookup_after`: the table of expressions is what the successful calls have recorded.
* `lookup_after_of_recorded`: what a successful call has recorded stays recorded.
-/

namespace HookStyle

open Css Evaluation

/-- A use of an engine. -/
inductive Call where
  | inline (d : Declaration)
  | create (ds : List (String × Declaration))
  | createParametric (arity : Nat) (declare : List String → Except StyleError Declaration)
  | defineVariables (defaults : Declaration)
  | createTheme (group : VariableGroup) (overrides : Declaration)
  | apply (style : ParametricStyle) (arguments : List Value)
  | animate (animation : Animation)
  | keyframeSheet (names : List String)

/-- What a call gives when it succeeds. -/
inductive Answer where
  | style (s : Style)
  | styles (s : StyleSet)
  | parametric (p : ParametricStyle)
  | group (g : VariableGroup)
  | theme (t : Theme)
  | name (name : String)
  | sheet (text : String)

namespace Engine

/-- The outcome of a call, and the engine after it. -/
def call (engine : Engine) : Call → Except StyleError Answer × Engine
  | .inline d => ((engine.inline d).map .style, engine)
  | .create ds => ((engine.create ds).map .styles, engine)
  | .createParametric arity declare =>
    ((engine.createParametric arity declare).1.map .parametric,
      (engine.createParametric arity declare).2)
  | .defineVariables defaults =>
    ((engine.defineVariables defaults).1.map .group, (engine.defineVariables defaults).2)
  | .createTheme group overrides => ((engine.createTheme group overrides).map .theme, engine)
  | .apply style arguments => ((style.apply arguments).map .style, engine)
  | .animate animation => (.ok (.name (engine.animate animation).1), (engine.animate animation).2)
  | .keyframeSheet names => ((engine.keyframeSheet names).map .sheet, engine)

/-- The engine after a run. -/
def after (engine : Engine) (calls : List Call) : Engine :=
  calls.foldl (fun e c => (e.call c).2) engine

end Engine

/-- A call of a run, with the engine that it was made on. -/
structure Event where
  before : Engine
  call : Call

namespace Event

def outcome (e : Event) : Except StyleError Answer := (e.before.call e.call).1

def after (e : Event) : Engine := (e.before.call e.call).2

/-- The variables that a call builds, whether it succeeds or not. -/
def built (e : Event) : List Engine.Definition :=
  match e.call with
  | .defineVariables defaults => e.before.built e.before.table.next defaults.entries
  | _ => []

/-- How many generated properties a call uses up: one for every parameter, and one for every
default up to the first that does not compile. -/
def used (e : Event) : Nat :=
  match e.call with
  | .createParametric arity _ => arity
  | .defineVariables defaults => min (e.built.length + 1) defaults.size
  | _ => 0

/-- The properties that a call allocates, in order. -/
def allocated (e : Event) : List String :=
  e.before.table.fresh e.before.config.namePart e.used

/-- The variables whose expressions a call records. -/
def recorded (e : Event) : List Engine.Definition :=
  match e.outcome with
  | .ok _ => e.built
  | .error _ => []

end Event

/-- The calls of a run, each with the engine that it is made on. -/
def Engine.events (engine : Engine) : List Call → List Event
  | [] => []
  | c :: calls => ⟨engine, c⟩ :: (engine.call c).2.events calls

/-! ## Steps -/

namespace Event

/-- What a definition of variables does, by the numbers that it uses up. -/
theorem defineVariables_step (engine : Engine) (defaults : Declaration) :
    let e : Event := ⟨engine, .defineVariables defaults⟩
    (e.built.length = defaults.size ∧ e.used = defaults.size ∧
        e.outcome = .ok (.group (Engine.groupOf engine.config.layout e.built)) ∧
        e.after = { engine with
          table := Engine.recordAll engine.config.layout (engine.table.advance e.used) e.built }) ∨
      ∃ before key t after error, defaults.entries = before ++ (key, t) :: after ∧
        (∀ b ∈ before, ∀ name, ∃ s, engine.inline (.single name b.2) = .ok s) ∧
        (∀ name, engine.inline (.single name t) = .error error) ∧
        e.built.length = before.length ∧ e.used = before.length + 1 ∧
        e.outcome = .error error ∧ e.after = engine.advance (before.length + 1) := by
  intro e
  rcases engine.defineVariables_eq defaults with ⟨hlen, hdefine⟩ |
    ⟨before, key, t, after, error, hes, hlen, hbefore, herror, hdefine⟩
  · have hused : e.used = defaults.size := by
      change min ((engine.built engine.table.next defaults.entries).length + 1) defaults.size = _
      omega
    refine Or.inl ⟨hlen, hused, ?_, ?_⟩
    · simp only [e, outcome, Engine.call, hdefine]
      rfl
    · rw [hused]
      simp only [e, Event.after, Engine.call, hdefine]
      rfl
  · have hsize : defaults.size = before.length + (after.length + 1) := by
      rw [OrderedMap.size, hes, List.length_append, List.length_cons]
    refine Or.inr ⟨before, key, t, after, error, hes, hbefore, herror, hlen, ?_, ?_, ?_⟩
    · change min ((engine.built engine.table.next defaults.entries).length + 1) defaults.size = _
      omega
    · simp only [e, outcome, Engine.call, hdefine]
      rfl
    · simp only [e, Event.after, Engine.call, hdefine]

theorem recorded_of_built_eq_nil {e : Event} (h : e.built = []) : e.recorded = [] := by
  unfold recorded
  split
  · exact h
  · rfl

/-- What a call can do to the engine: it uses up numbers and records what it has built, or
it registers an animation. -/
theorem after_eq (e : Event) :
    e.after = { e.before with
      table := Engine.recordAll e.before.config.layout (e.before.table.advance e.used)
        e.recorded,
      animations := e.after.animations } := by
  obtain ⟨engine, call⟩ := e
  cases call with
  | defineVariables defaults =>
    rcases defineVariables_step engine defaults with ⟨-, -, houtcome, hafter⟩ |
      ⟨before, _, _, _, error, -, -, -, -, hused, houtcome, hafter⟩
    · have hrecorded : recorded ⟨engine, .defineVariables defaults⟩
          = built ⟨engine, .defineVariables defaults⟩ := by
        rw [recorded, houtcome]
      rw [hrecorded, hafter]
    · have hrecorded : recorded ⟨engine, .defineVariables defaults⟩ = [] := by
        rw [recorded, houtcome]
      rw [hrecorded, hafter, hused]
      rfl
  | createParametric arity declare =>
    rw [recorded_of_built_eq_nil rfl]
    rfl
  | animate animation =>
    rw [recorded_of_built_eq_nil rfl]
    rfl
  | inline d | create ds | createTheme group d | apply p arguments | keyframeSheet names =>
    rw [recorded_of_built_eq_nil rfl]
    rfl

theorem config_after (e : Event) : e.after.config = e.before.config := by rw [after_eq]

theorem registry_after (e : Event) : e.after.registry = e.before.registry := by rw [after_eq]

theorem next_recordAll (layout : Layout) (table : VariableTable) (ds : List Engine.Definition) :
    (Engine.recordAll layout table ds).next = table.next := by
  induction ds generalizing table with
  | nil => rfl
  | cons d ds ih => exact ih _

theorem next_after (e : Event) : e.after.table.next = e.before.table.next + e.used := by
  rw [after_eq]
  exact next_recordAll _ _ _

/-- A call changes what is found in the table by what it records, and only so. -/
theorem lookup_after (e : Event) :
    e.after.table.lookup =
      (Engine.recordAll e.before.config.layout e.before.table e.recorded).lookup := by
  rw [after_eq]
  exact Engine.lookup_recordAll_congr rfl

theorem getElem?_allocated {e : Event} {i : Nat} (h : i < e.used) :
    e.allocated[i]? =
      some (VariableTable.nameOf e.before.config.namePart (e.before.table.next + i)) := by
  simp [allocated, VariableTable.fresh, List.getElem?_range h]

/-- No call builds more variables than it takes numbers. -/
theorem length_built_le (e : Event) : e.built.length ≤ e.used := by
  obtain ⟨engine, call⟩ := e
  cases call with
  | defineVariables defaults =>
    rcases defineVariables_step engine defaults with ⟨hlen, hused, -⟩ |
      ⟨_, _, _, _, _, -, -, -, hlen, hused, -⟩
    · omega
    · omega
  | inline d | create ds | createParametric arity declare | createTheme group d
  | apply p arguments | animate animation | keyframeSheet names => exact Nat.zero_le _

/-- The variables that are built have the properties that are allocated, in order. -/
theorem getElem?_built {e : Event} {i : Nat} {d : Engine.Definition}
    (h : e.built[i]? = some d) : ∃ defaults t, e.call = .defineVariables defaults ∧
      defaults.entries[i]? = some (d.key, t) ∧ e.allocated[i]? = some d.name ∧
      e.before.inline (.single d.name t) = .ok d.style := by
  have hi : i < e.used := by
    have := (List.getElem?_eq_some_iff.mp h).1
    have := e.length_built_le
    omega
  rw [getElem?_allocated hi]
  obtain ⟨engine, call⟩ := e
  cases call with
  | defineVariables defaults =>
    obtain ⟨t, ht, hname, hstyle⟩ := Engine.getElem?_built h
    exact ⟨defaults, t, rfl, ht, by rw [hname], hstyle⟩
  | inline d | create ds | createParametric arity declare | createTheme group d
  | apply p arguments | animate animation | keyframeSheet names => cases h

/-- Every variable has one of the names that its call allocated. -/
theorem name_mem_allocated {e : Event} {d : Engine.Definition} (h : d ∈ e.built) :
    d.name ∈ e.allocated := by
  obtain ⟨i, hi⟩ := List.mem_iff_getElem?.mp h
  obtain ⟨-, -, -, -, hname, -⟩ := getElem?_built hi
  exact List.mem_of_getElem? hname

theorem exists_number_of_mem_allocated {e : Event} {name : String} (h : name ∈ e.allocated) :
    ∃ n, name = VariableTable.nameOf e.before.config.namePart n :=
  VariableTable.exists_number_of_mem_fresh h

theorem not_isHelperName_of_mem_allocated {e : Event} {name : String} (h : name ∈ e.allocated) :
    ¬ ToggleSystem.IsHelperName name := by
  obtain ⟨n, rfl⟩ := exists_number_of_mem_allocated h
  exact VariableTable.not_isHelperName_nameOf _ n

/-- Variables are recorded only by a call that returns their group. -/
theorem built_of_mem_recorded {e : Event} {d : Engine.Definition} (h : d ∈ e.recorded) :
    d ∈ e.built ∧ ∃ group, e.outcome = .ok (.group group) := by
  obtain ⟨engine, call⟩ := e
  cases call with
  | defineVariables defaults =>
    rcases defineVariables_step engine defaults with ⟨-, -, houtcome, -⟩ |
      ⟨_, _, _, _, error, -, -, -, -, -, houtcome, -⟩
    · rw [recorded, houtcome] at h
      exact ⟨h, _, houtcome⟩
    · rw [recorded, houtcome] at h
      cases h
  | inline d | create ds | createParametric arity declare | createTheme group d
  | apply p arguments | animate animation | keyframeSheet names =>
    rw [recorded_of_built_eq_nil rfl] at h
    cases h

end Event

/-! ## Runs -/

namespace Engine

variable {engine : Engine} {calls : List Call}

theorem after_append (engine : Engine) (calls calls' : List Call) :
    engine.after (calls ++ calls') = (engine.after calls).after calls' := List.foldl_append

theorem events_append (engine : Engine) (calls calls' : List Call) :
    engine.events (calls ++ calls')
      = engine.events calls ++ (engine.after calls).events calls' := by
  induction calls generalizing engine with
  | nil => rfl
  | cons c calls ih => exact congrArg (⟨engine, c⟩ :: ·) (ih _)

theorem config_after (engine : Engine) (calls : List Call) :
    (engine.after calls).config = engine.config := by
  induction calls generalizing engine with
  | nil => rfl
  | cons c calls ih => exact (ih _).trans (Event.config_after ⟨engine, c⟩)

theorem registry_after (engine : Engine) (calls : List Call) :
    (engine.after calls).registry = engine.registry := by
  induction calls generalizing engine with
  | nil => rfl
  | cons c calls ih => exact (ih _).trans (Event.registry_after ⟨engine, c⟩)

/-- A call of a run is made on the engine after the calls before it. -/
theorem exists_of_mem_events {e : Event} (h : e ∈ engine.events calls) :
    ∃ before after, calls = before ++ e.call :: after ∧ e.before = engine.after before := by
  induction calls generalizing engine with
  | nil => cases h
  | cons c calls ih =>
    rcases List.mem_cons.mp h with rfl | h
    · exact ⟨[], calls, rfl, rfl⟩
    · obtain ⟨before, after, rfl, hbefore⟩ := ih h
      exact ⟨c :: before, after, rfl, hbefore⟩

/-- All calls of a run see the configuration of its start. -/
theorem config_of_mem_events {e : Event} (h : e ∈ engine.events calls) :
    e.before.config = engine.config := by
  obtain ⟨before, -, -, hbefore⟩ := exists_of_mem_events h
  rw [hbefore, config_after]

/-- A run allocates the properties of consecutive numbers, in order. -/
theorem flatMap_allocated (engine : Engine) (calls : List Call) :
    ∃ count, (engine.after calls).table.next = engine.table.next + count ∧
      (engine.events calls).flatMap Event.allocated =
        (List.range' engine.table.next count).map
          (VariableTable.nameOf engine.config.namePart) := by
  induction calls generalizing engine with
  | nil => exact ⟨0, rfl, rfl⟩
  | cons c calls ih =>
    obtain ⟨count, hnext, hallocated⟩ := ih (engine.call c).2
    have hconfig := Event.config_after ⟨engine, c⟩
    have hstep := Event.next_after ⟨engine, c⟩
    simp only [Event.after] at hconfig hstep
    refine ⟨Event.used ⟨engine, c⟩ + count, ?_, ?_⟩
    · change ((engine.call c).2.after calls).table.next = _
      omega
    · rw [events, List.flatMap_cons, hallocated, hconfig, hstep, ← List.range'_append_1,
        List.map_append]
      congr 1
      rw [Event.allocated, VariableTable.fresh, List.range'_eq_map_range, List.map_map]
      rfl

/-- No name is allocated twice in a run, not even for a call that fails. -/
theorem nodup_allocated (engine : Engine) (calls : List Call) :
    ((engine.events calls).flatMap Event.allocated).Nodup := by
  obtain ⟨count, -, h⟩ := engine.flatMap_allocated calls
  rw [h]
  exact List.Nodup.map (fun _ _ h => (VariableTable.nameOf_inj.mp h).2) List.nodup_range'

/-- The table of expressions is what the successful calls have recorded. -/
theorem lookup_after (engine : Engine) (calls : List Call) :
    (engine.after calls).table.lookup =
      (recordAll engine.config.layout engine.table
        ((engine.events calls).flatMap Event.recorded)).lookup := by
  induction calls generalizing engine with
  | nil => rfl
  | cons c calls ih =>
    have hconfig := Event.config_after ⟨engine, c⟩
    simp only [Event.after] at hconfig
    rw [events, List.flatMap_cons, recordAll_append]
    refine (ih (engine.call c).2).trans ?_
    rw [hconfig]
    exact lookup_recordAll_congr (Event.lookup_after ⟨engine, c⟩)

theorem exists_event_of_mem_recorded {d : Definition}
    (h : d ∈ (engine.events calls).flatMap Event.recorded) :
    ∃ e ∈ engine.events calls, d ∈ e.built ∧ ∃ group, e.outcome = .ok (.group group) := by
  obtain ⟨e, he, hd⟩ := List.mem_flatMap.mp h
  exact ⟨e, he, Event.built_of_mem_recorded hd⟩

theorem isName_of_mem_built (hname : Config.isNamePart engine.config.namePart = true) {e : Event}
    (he : e ∈ engine.events calls) {d : Definition} (hd : d ∈ e.built) :
    isName d.name = true := by
  obtain ⟨n, hn⟩ := Event.exists_number_of_mem_allocated (Event.name_mem_allocated hd)
  rw [hn, config_of_mem_events he]
  exact VariableTable.isName_nameOf hname n

/-- The property behind an expression that some successful call of the run has built. -/
theorem lookup_after_of_recorded (hname : Config.isNamePart engine.config.namePart = true)
    {e : Event} (he : e ∈ engine.events calls) {d : Definition} (hd : d ∈ e.recorded) :
    (engine.after calls).table.lookup (d.expression engine.config.layout) = some d.name := by
  rw [lookup_after]
  refine lookup_recordAll_of_mem ?_ (List.mem_flatMap.mpr ⟨e, he, hd⟩)
  intro d' hd'
  obtain ⟨e', he', hbuilt, -⟩ := exists_event_of_mem_recorded hd'
  exact isName_of_mem_built hname he' hbuilt

end Engine

end HookStyle
