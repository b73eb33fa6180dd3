import HookStyle.Proofs.Engine.Registries

/-!
# Registration of hooks

A registry shows its hooks in two views: the list that it reports, from which repetitions are
left out, and the toggle system by which it compiles, whose map sets a repeated name anew.
Both hold the first mentions of the given names, in order, so that what is reported and what
is compiled never part.

* `foldlM_register`: the names are registered one by one, and the first that names no hook
  ends the registration, whatever was repeated before it.
* `ofNames_eq_error_iff`: which name that is.
* `toggles_eq_ofHooks`: the toggle system is the same with all repetitions.
* `ofNames_names`: a registry is made again from the names that it reports.
* `registration_exact`: all that a list of names leads to.
-/

namespace HookStyle

instance : DecidableEq Hook := fun g h =>
  decidable_of_iff (g.name = h.name) ⟨Hook.ext, congrArg Hook.name⟩

namespace Hook

/-- The entry of a hook in the map of a toggle system. -/
def entry (hook : Hook) : String × String := (hook.name, hook.definition)

theorem ofName?_name (hook : Hook) : ofName? hook.name = some hook :=
  ofName?_eq_some_iff.mpr rfl

end Hook

namespace Registry

/-! ## Name by name -/

/-- What one more name makes of the registered hooks: it adds its hook, unless this is one of
them already. -/
def register (hooks : List Hook) (name : String) : Except StyleError (List Hook) :=
  match Hook.ofName? name with
  | none => .error (.invalidHook name)
  | some hook => .ok (if hook ∈ hooks then hooks else hooks ++ [hook])

/-- Only the set of the names seen so far matters. -/
theorem dropRepeated_congr {seen seen' : List String} (h : ∀ name, name ∈ seen ↔ name ∈ seen')
    (hooks : List Hook) : dropRepeated seen hooks = dropRepeated seen' hooks := by
  induction hooks generalizing seen seen' with
  | nil => rfl
  | cons hook hooks ih =>
    have hnext : ∀ name, name ∈ hook.name :: seen ↔ name ∈ hook.name :: seen' := by
      intro name
      rw [List.mem_cons, List.mem_cons, h name]
    rw [dropRepeated, dropRepeated, ih h, ih hnext]
    by_cases hseen : hook.name ∈ seen
    · rw [if_pos hseen, if_pos ((h _).mp hseen)]
    · rw [if_neg hseen, if_neg (mt (h _).mpr hseen)]

theorem name_mem_names_iff {hook : Hook} {hooks : List Hook} :
    hook.name ∈ hooks.map Hook.name ↔ hook ∈ hooks := by
  constructor
  · intro h
    obtain ⟨g, hg, hname⟩ := List.mem_map.mp h
    exact Hook.ext hname ▸ hg
  · exact fun h => List.mem_map_of_mem h

/-- One name in front of others that are still to be registered. -/
theorem append_dropRepeated_cons (hooks : List Hook) (hook : Hook) (more : List Hook) :
    hooks ++ dropRepeated (hooks.map Hook.name) (hook :: more) =
      (if hook ∈ hooks then hooks else hooks ++ [hook]) ++
        dropRepeated ((if hook ∈ hooks then hooks else hooks ++ [hook]).map Hook.name) more := by
  rw [dropRepeated]
  by_cases h : hook ∈ hooks
  · rw [if_pos h, if_pos (name_mem_names_iff.mpr h)]
  · rw [if_neg h, if_neg (mt name_mem_names_iff.mp h), List.append_assoc, List.singleton_append]
    congr 2
    refine dropRepeated_congr (fun name => ?_) more
    simp [or_comm]

/-- The run of a registration: the hooks that are there stay in front, and the names add the
hooks of their first mentions. -/
theorem foldlM_register (hooks : List Hook) (names : List String) :
    names.foldlM register hooks =
      (hooksOf names).map fun more => hooks ++ dropRepeated (hooks.map Hook.name) more := by
  induction names generalizing hooks with
  | nil =>
    change Except.ok hooks = Except.ok (hooks ++ [])
    rw [List.append_nil]
  | cons name names ih =>
    rw [List.foldlM_cons, register, hooksOf]
    cases Hook.ofName? name with
    | none => rfl
    | some hook =>
      change names.foldlM register _ = ((hooksOf names).map (hook :: ·)).map _
      rw [ih]
      cases hooksOf names with
      | error error => rfl
      | ok more => exact congrArg Except.ok (append_dropRepeated_cons hooks hook more).symm

/-- The registry's hooks come from registering the names one by one. -/
theorem hooks_ofNames (names : List String) (layout : Css.Layout) (fallback : String) :
    (ofNames names layout fallback).map Registry.hooks = names.foldlM register [] := by
  rw [foldlM_register, ofNames]
  cases hooksOf names with
  | error error => rfl
  | ok hooks => rfl

/-! ## The first invalid name -/

/-- The error names the first name that is no hook. -/
theorem error?_hooksOf (names : List String) :
    Outcome.error? (hooksOf names) =
      (names.find? fun name => (Hook.ofName? name).isNone).map .invalidHook := by
  induction names with
  | nil => rfl
  | cons name names ih =>
    rw [hooksOf]
    cases h : Hook.ofName? name with
    | none =>
      rw [List.find?_cons_of_pos (by simp [h])]
      rfl
    | some hook =>
      rw [List.find?_cons_of_neg (by simp [h]), ← ih]
      exact Outcome.error?_map

theorem ofNames_eq_error_iff {names : List String} {layout : Css.Layout} {fallback : String}
    {error : StyleError} :
    ofNames names layout fallback = .error error ↔
      ∃ before name after, names = before ++ name :: after ∧
        (∀ n ∈ before, (Hook.ofName? n).isSome) ∧ Hook.ofName? name = none ∧
          error = .invalidHook name := by
  rw [ofNames, Outcome.map_eq_error, ← Outcome.error?_eq_some, error?_hooksOf,
    Option.map_eq_some_iff]
  constructor
  · rintro ⟨name, hfind, rfl⟩
    obtain ⟨hname, before, after, rfl, hbefore⟩ := List.find?_eq_some_iff_append.mp hfind
    exact ⟨before, name, after, rfl, fun n hn => by simpa using hbefore n hn, by simpa using hname,
      rfl⟩
  · rintro ⟨before, name, after, rfl, hbefore, hname, rfl⟩
    refine ⟨name, List.find?_eq_some_iff_append.mpr ⟨by simpa using hname, before, after, rfl,
      fun n hn => ?_⟩, rfl⟩
    simpa using hbefore n hn

theorem ofNames_succeeds_iff {names : List String} {layout : Css.Layout} {fallback : String} :
    (∃ r, ofNames names layout fallback = .ok r) ↔
      ∀ name ∈ names, (Hook.ofName? name).isSome := by
  rw [← Outcome.error?_eq_none, ofNames, Outcome.error?_map, error?_hooksOf,
    Option.map_eq_none_iff, List.find?_eq_none]
  refine forall₂_congr fun name _ => ?_
  cases Hook.ofName? name with
  | none => simp
  | some hook => simp

/-! ## The two views -/

section

variable {r : Registry} {name : String}

theorem keys_toggles (r : Registry) :
    r.toggles.definitions.keys = r.hooks.map Hook.name := by
  rw [OrderedMap.keys, entries_toggles, Entries.keys, List.map_map]
  rfl

theorem contains_toggles (r : Registry) (name : String) :
    r.toggles.definitions.contains name = r.contains name := by
  rw [Bool.eq_iff_iff, OrderedMap.contains_iff, keys_toggles, contains, List.contains_iff_mem]

theorem check_eq_ok : r.check name = .ok () ↔ r.contains name = true := by
  rw [check]
  split
  next h => simp [h]
  next h => simp [h]

theorem check_eq_error {error : StyleError} :
    r.check name = .error error ↔ ¬ r.contains name = true ∧ error = .unknownHook name := by
  rw [check]
  split
  next h => simp [h]
  next h => simp [h, eq_comm]

end

/-- Leaving out the repetitions keeps the first writes. -/
theorem map_entry_dropRepeated (seen : List String) (hooks : List Hook) :
    (dropRepeated seen hooks).map Hook.entry =
      (Entries.firstWrites (hooks.map Hook.entry)).filter fun e => e.1 ∉ seen := by
  induction hooks generalizing seen with
  | nil => rfl
  | cons hook hooks ih =>
    have hkey : hook.entry.1 = hook.name := rfl
    rw [dropRepeated, List.map_cons, Entries.firstWrites, Entries.erase, hkey]
    by_cases h : hook.name ∈ seen
    · rw [if_pos h, ih, List.filter_cons_of_neg (by rw [hkey]; simpa using h), List.filter_filter]
      refine List.filter_congr fun e _ => ?_
      rw [Bool.eq_iff_iff, Bool.and_eq_true, decide_eq_true_eq, decide_eq_true_eq]
      exact ⟨fun hnew => ⟨hnew, fun he => hnew (he ▸ h)⟩, And.left⟩
    · rw [if_neg h, List.map_cons, ih, List.filter_cons_of_pos (by rw [hkey]; simpa using h),
        List.filter_filter]
      congr 1
      refine List.filter_congr fun e _ => ?_
      rw [Bool.eq_iff_iff, Bool.and_eq_true, decide_eq_true_eq, decide_eq_true_eq,
        decide_eq_true_eq, List.mem_cons, not_or, and_comm]

theorem consistent_entries (hooks : List Hook) :
    ∀ e ∈ hooks.map Hook.entry, ∀ d ∈ hooks.map Hook.entry, e.1 = d.1 → e = d := by
  intro e he d hd hname
  obtain ⟨g, -, rfl⟩ := List.mem_map.mp he
  obtain ⟨h, -, rfl⟩ := List.mem_map.mp hd
  exact congrArg Hook.entry (Hook.ext hname)

/-- The map of a toggle system does with the repetitions what the list of hooks does: a name
that is set again has the definition that it had. -/
theorem toggles_eq_ofHooks {names : List String} {layout : Css.Layout} {fallback : String}
    {r : Registry} {hooks : List Hook} (hr : ofNames names layout fallback = .ok r)
    (hhooks : hooksOf names = .ok hooks) :
    ToggleSystem.ofHooks (hooks.map Hook.entry) layout fallback = r.toggles := by
  obtain ⟨hooks', hhooks', rfl⟩ := Outcome.map_eq_ok.mp hr
  obtain rfl : hooks = hooks' := Except.ok.inj (hhooks.symm.trans hhooks')
  have hmap : OrderedMap.ofList (hooks.map Hook.entry) =
      OrderedMap.ofList ((dropRepeated [] hooks).map Hook.entry) := by
    apply OrderedMap.ext
    have hnodup : (Entries.keys ((dropRepeated [] hooks).map Hook.entry)).Nodup := by
      rw [Entries.keys, List.map_map]
      exact nodup_dropRepeated [] hooks
    rw [OrderedMap.entries_ofList_of_consistent (consistent_entries hooks),
      OrderedMap.entries_ofList hnodup, map_entry_dropRepeated]
    simp
  change ToggleSystem.ofHooks _ _ _ =
    ToggleSystem.ofHooks ((dropRepeated [] hooks).map Hook.entry) _ _
  rw [ToggleSystem.ofHooks, ToggleSystem.ofHooks, hmap]

/-! ## Again -/

theorem hooksOf_names (hooks : List Hook) : hooksOf (hooks.map Hook.name) = .ok hooks := by
  induction hooks with
  | nil => rfl
  | cons hook hooks ih =>
    rw [List.map_cons, hooksOf, Hook.ofName?_name]
    change (hooksOf _).map _ = _
    rw [ih]
    rfl

/-- Hooks of different names are all kept. -/
theorem dropRepeated_of_nodup {seen : List String} {hooks : List Hook}
    (hnodup : (hooks.map Hook.name).Nodup) (hseen : ∀ hook ∈ hooks, hook.name ∉ seen) :
    dropRepeated seen hooks = hooks := by
  induction hooks generalizing seen with
  | nil => rfl
  | cons hook hooks ih =>
    rw [List.map_cons, List.nodup_cons] at hnodup
    rw [dropRepeated, if_neg (hseen hook List.mem_cons_self), ih hnodup.2]
    intro g hg hmem
    rcases List.mem_cons.mp hmem with hname | hmem
    · exact hnodup.1 (hname ▸ List.mem_map_of_mem hg)
    · exact hseen g (List.mem_cons_of_mem _ hg) hmem

/-- Registering the names of a registry gives the registry back. -/
theorem ofNames_names (r : Registry) :
    ofNames (r.hooks.map Hook.name) r.layout r.fallback = .ok r := by
  obtain ⟨hooks, hnodup, layout, fallback⟩ := r
  have hsame : dropRepeated [] hooks = hooks :=
    dropRepeated_of_nodup hnodup fun _ _ => List.not_mem_nil
  simp only [ofNames, hooksOf_names, Except.map, hsame]

/-- A list of names is registered name by name. It is refused exactly when it has a text that
names no hook, with the first such text, however many names are repeated before it. Otherwise
the reported hooks and the hooks of the toggle system are the first mentions of the names, in
order, whether the system gets the repetitions or not; the registry contains what is in the
list, and refuses the rest; and the reported names lead to the same registry again, with its
identifiers, its sheet and whatever it compiles. -/
theorem registration_exact (names : List String) (layout : Css.Layout) (fallback : String) :
    (ofNames names layout fallback).map Registry.hooks = names.foldlM register [] ∧
    (∀ error, ofNames names layout fallback = .error error ↔
      ∃ before name after, names = before ++ name :: after ∧
        (∀ n ∈ before, (Hook.ofName? n).isSome) ∧ Hook.ofName? name = none ∧
          error = .invalidHook name) ∧
    ((∃ r, ofNames names layout fallback = .ok r) ↔
      ∀ name ∈ names, (Hook.ofName? name).isSome) ∧
    ∀ r, ofNames names layout fallback = .ok r →
      r.hooks.map Hook.name = names.eraseDups ∧
      r.toggles.definitions.keys = names.eraseDups ∧
      (∀ hooks, hooksOf names = .ok hooks →
        ToggleSystem.ofHooks (hooks.map Hook.entry) layout fallback = r.toggles) ∧
      (∀ name, r.toggles.definitions.contains name = r.contains name) ∧
      (∀ name, r.contains name = true ↔ name ∈ names) ∧
      (∀ name, r.check name = .ok () ↔ name ∈ names) ∧
      (∀ name error, r.check name = .error error ↔
        name ∉ names ∧ error = .unknownHook name) ∧
      ofNames (r.hooks.map Hook.name) layout fallback = .ok r := by
  refine ⟨hooks_ofNames names layout fallback, fun error => ofNames_eq_error_iff,
    ofNames_succeeds_iff, fun r hr => ?_⟩
  have hnames := names_ofNames hr
  obtain ⟨hlayout, hfallback⟩ := text_ofNames hr
  have hagain := ofNames_names r
  rw [hlayout, hfallback] at hagain
  refine ⟨hnames, (keys_toggles r).trans hnames, fun hooks => toggles_eq_ofHooks hr,
    contains_toggles r, fun name => contains_ofNames hr, fun name => ?_, fun name error => ?_,
    hagain⟩
  · rw [check_eq_ok, contains_ofNames hr]
  · rw [check_eq_error, contains_ofNames hr]

/-- Two hooks, one of them twice, and then two texts that name none. -/
theorem registration_repeated :
    ofNames [":hover", ":focus", ":hover", "focus", ":focus", "hover"] .compact
        ToggleSystem.defaultFallback = .error (.invalidHook "focus") ∧
      ∃ r, ofNames [":hover", ":focus", ":hover"] .compact
          ToggleSystem.defaultFallback = .ok r ∧
        r.toggles.definitions.keys = [":hover", ":focus"] ∧
        r.check ":focus" = .ok () ∧ r.check ":active" = .error (.unknownHook ":active") ∧
        ofNames [":hover", ":focus"] .compact ToggleSystem.defaultFallback = .ok r := by
  obtain ⟨-, herror, -, -⟩ := registration_exact
    [":hover", ":focus", ":hover", "focus", ":focus", "hover"] .compact
    ToggleSystem.defaultFallback
  obtain ⟨-, -, hsucceeds, hok⟩ := registration_exact [":hover", ":focus", ":hover"] .compact
    ToggleSystem.defaultFallback
  obtain ⟨r, hr⟩ := hsucceeds.mpr (by decide)
  obtain ⟨hnames, hkeys, -, -, -, hcheck, hrefused, hagain⟩ := hok r hr
  have hfirst : [":hover", ":focus", ":hover"].eraseDups = [":hover", ":focus"] := by decide
  rw [hnames, hfirst] at hagain
  refine ⟨(herror _).mpr ⟨[":hover", ":focus", ":hover"], "focus", [":focus", "hover"], rfl,
    by decide, rfl, rfl⟩, r, hr, hkeys.trans hfirst, (hcheck _).mpr (by decide),
    (hrefused _ _).mpr ⟨by decide, rfl⟩, hagain⟩

end Registry

end HookStyle
