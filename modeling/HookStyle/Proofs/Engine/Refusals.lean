import HookStyle.Proofs.Engine.Variables
import HookStyle.Proofs.Tree.Meaning

/-!
# What an engine refuses

Whatever an engine compiles, it compiles by `inline`, so an operation that fails hands on the
error of a declaration, unless a theme names a key that is not its group's. A declaration is
refused for a hook that is not registered and for nothing else: the conditions of its leaves
are never empty, and ask only for hooks that have been checked.

* `inline_eq_error`: the error of a declaration names a hook that the engine refuses.
* `styles_eq_error`, `createParametric_eq_error`, `defineVariables_eq_error`,
  `createTheme_eq_error`: where the error of an operation comes from.
* `inline_fails_iff`: exactly the unregistered hooks are refused, and no operation fails for
  a condition.
-/

namespace HookStyle

namespace Engine

variable {engine : Engine} {error : StyleError}

/-- The name of a hook that the engine was configured with. -/
def Registered (engine : Engine) (name : String) : Prop :=
  ∃ hook ∈ engine.registry.hooks, hook.name = name

/-- An unregistered hook of the first property that asks for one. -/
def Refuses (engine : Engine) (d : Declaration) (hook : String) : Prop :=
  ∃ before property t after, d.entries = before ++ (property, t) :: after ∧
    (∀ e ∈ before, ∀ asked, e.2.tree.Asks asked → engine.Registered asked) ∧
      t.tree.Asks hook ∧ ¬ engine.Registered hook

theorem contains_eq_false_iff {name : String} :
    engine.registry.contains name = false ↔ ¬ engine.Registered name := by
  rw [← Bool.not_eq_true, Registry.contains_iff, Registered]

theorem unknownHook?_eq_none_iff {d : Declaration} :
    d.unknownHook? engine.registry.contains = none ↔
      ∀ e ∈ d.entries, ∀ hook, e.2.tree.Asks hook → engine.Registered hook := by
  simp only [Declaration.unknownHook?_eq_none_iff, Registry.contains_iff, Registered]

/-- Nothing but an unregistered hook keeps a declaration from compiling, and the error names
it. -/
theorem inline_eq_error {d : Declaration} (h : engine.inline d = .error error) :
    ∃ hook, engine.Refuses d hook ∧ error = .unknownHook hook := by
  obtain ⟨hook, hhook, rfl⟩ := Registry.compile_eq_error_iff.mp h
  obtain ⟨before, property, t, after, hentries, hbefore, hasks, hunknown⟩ :=
    Declaration.exists_of_unknownHook? hhook
  refine ⟨hook, ⟨before, property, t, after, hentries, ?_, hasks,
    contains_eq_false_iff.mp hunknown⟩, rfl⟩
  intro e he asked hasked
  exact Registry.contains_iff.mp (hbefore e he asked hasked)

theorem inline_ne_condition (d : Declaration) (cause : ConditionError) :
    engine.inline d ≠ .error (.condition cause) := by
  intro h
  obtain ⟨hook, -, herror⟩ := inline_eq_error h
  cases herror

/-! ## Operations -/

theorem styles_eq_error {ds : List (String × Declaration)} (h : engine.styles ds = .error error) :
    ∃ e ∈ ds, engine.inline e.2 = .error error := by
  induction ds with
  | nil => cases h
  | cons e ds ih =>
    obtain ⟨name, d⟩ := e
    rw [styles] at h
    rcases Outcome.bind_eq_error.mp h with h | ⟨s, -, h⟩
    · exact ⟨_, List.mem_cons_self, h⟩
    · obtain ⟨e, he, herror⟩ := ih (Outcome.map_eq_error.mp h)
      exact ⟨e, List.mem_cons_of_mem _ he, herror⟩

theorem create_eq_error {ds : List (String × Declaration)} (h : engine.create ds = .error error) :
    ∃ e ∈ ds, engine.inline e.2 = .error error :=
  styles_eq_error (Outcome.map_eq_error.mp h)

theorem createParametric_eq_error {arity : Nat}
    {declare : List String → Except StyleError Declaration}
    (h : (engine.createParametric arity declare).1 = .error error) :
    ∃ references, declare references = .error error ∨
      ∃ d, declare references = .ok d ∧ engine.inline d = .error error :=
  ⟨_, Outcome.bind_eq_error.mp (Outcome.map_eq_error.mp h)⟩

/-- A group fails for one of its defaults, under whatever name that would have got. -/
theorem defineVariables_eq_error {defaults : Declaration}
    (h : (engine.defineVariables defaults).1 = .error error) :
    ∃ e ∈ defaults.entries, ∀ name, engine.inline (.single name e.2) = .error error := by
  rcases engine.defineVariables_eq defaults with
    ⟨-, hok⟩ | ⟨before, key, t, after, error', hentries, -, -, hinline, herror⟩
  · rw [hok] at h
    cases h
  · rw [herror] at h
    obtain rfl := Except.error.inj h
    exact ⟨(key, t), by simp [hentries], hinline⟩

/-- A theme fails for one of its keys first, and for a hook of its overrides next. -/
theorem createTheme_eq_error {group : VariableGroup} {d : Declaration}
    (h : engine.createTheme group d = .error error) :
    (∃ e ∈ d.entries, error = .unknownVariable e.1 ∨
      ∃ expression, error = .foreignVariable expression) ∨
        ∃ es, engine.overrides group d.entries = .ok es ∧
          engine.inline (.ofList es) = .error error := by
  rcases Outcome.bind_eq_error.mp h with h | ⟨es, hes, h⟩
  · obtain ⟨before, key, t, after, hentries, -, hproperty⟩ := overrides_eq_error.mp h
    have hmem : (key, t) ∈ d.entries := hentries ▸ List.mem_append_right _ List.mem_cons_self
    rcases property_eq_error.mp hproperty with ⟨-, herror⟩ | ⟨expression, -, -, herror⟩
    · exact Or.inl ⟨_, hmem, Or.inl herror⟩
    · exact Or.inl ⟨_, hmem, Or.inr ⟨expression, herror⟩⟩
  · exact Or.inr ⟨es, hes, Outcome.map_eq_error.mp h⟩

/-! ## Failure -/

/-- A declaration is refused exactly when some tree asks for a hook that is not registered,
be it above a tree without leaves. The error names such a hook of the first property that has
one, and no operation reports a condition without a toggle. -/
theorem inline_fails_iff (engine : Engine) :
    (∀ d : Declaration,
      ((∃ error, engine.inline d = .error error) ↔
        ∃ e ∈ d.entries, ∃ hook, e.2.tree.Asks hook ∧ ¬ engine.Registered hook) ∧
      ∀ error, engine.inline d = .error error →
        ∃ hook, engine.Refuses d hook ∧ error = .unknownHook hook) ∧
    ∀ cause : ConditionError,
      (∀ d, engine.inline d ≠ .error (.condition cause)) ∧
      (∀ ds, engine.create ds ≠ .error (.condition cause)) ∧
      (∀ arity (declare : List String → Declaration),
        (engine.createParametric arity fun references => .ok (declare references)).1
          ≠ .error (.condition cause)) ∧
      (∀ defaults, (engine.defineVariables defaults).1 ≠ .error (.condition cause)) ∧
      ∀ group d, engine.createTheme group d ≠ .error (.condition cause) := by
  refine ⟨fun d => ⟨⟨?_, ?_⟩, fun error => inline_eq_error⟩, fun cause => ?_⟩
  · rintro ⟨error, h⟩
    obtain ⟨hook, ⟨before, property, t, after, hentries, -, hasks, hunknown⟩, -⟩ :=
      inline_eq_error h
    exact ⟨(property, t), by simp [hentries], hook, hasks, hunknown⟩
  · rintro ⟨e, he, hook, hasks, hunknown⟩
    cases h : engine.inline d with
    | error error => exact ⟨error, rfl⟩
    | ok s =>
      -- what compiles has been checked
      have hnone := Registry.compile_succeeds_iff.mp ⟨s, h⟩
      exact absurd (unknownHook?_eq_none_iff.mp hnone e he hook hasks) hunknown
  · refine ⟨fun d => inline_ne_condition d cause, fun ds h => ?_, fun arity declare h => ?_,
      fun defaults h => ?_, fun group d h => ?_⟩
    · obtain ⟨e, -, h⟩ := create_eq_error h
      exact inline_ne_condition e.2 cause h
    · obtain ⟨references, h | ⟨d, -, h⟩⟩ := createParametric_eq_error h
      · cases h
      · exact inline_ne_condition d cause h
    · obtain ⟨e, -, h⟩ := defineVariables_eq_error h
      exact inline_ne_condition _ cause (h "")
    · rcases createTheme_eq_error h with ⟨e, -, h | ⟨expression, h⟩⟩ | ⟨es, -, h⟩
      · cases h
      · cases h
      · exact inline_ne_condition _ cause h

/-- A colour that asks for registered hooks only, before a margin with an unregistered one
above a tree without leaves. -/
def visitedAboveNothing : Declaration :=
  .ofList [("color", focusInHover),
    ("margin", KeyedTree.empty.base (KeyedTree.empty.on ":visited" .empty))]

theorem inline_visited_refused : ∃ error, hoverFocus.inline visitedAboveNothing = .error error := by
  have hvisited : (Tree.branch [(":visited", .branch [])]).HasKey ":visited" :=
    .here List.mem_cons_self
  refine ((inline_fails_iff hoverFocus).1 visitedAboveNothing).1.mpr
    ⟨_, List.mem_cons_of_mem _ List.mem_cons_self, ":visited",
      ⟨.inside List.mem_cons_self hvisited, by decide⟩, ?_⟩
  rintro ⟨hook, hmem, hname⟩
  have hnames : hook.name ∈ [":hover", ":focus"] := List.mem_map_of_mem hmem
  rw [hname] at hnames
  revert hnames
  decide

end Engine

end HookStyle
