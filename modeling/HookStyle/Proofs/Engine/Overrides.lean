import HookStyle.Proofs.Engine.Ledger

/-!
# What themes override

A theme is compiled from a declaration in which every key of the group has given way to its
custom property. The property of a key stays the same for the rest of the run, and different
keys have different properties.

* `get?_renamed`, `sequences_renamed`: a declaration under other names.
* `nameFor_injective`: the properties of a group's keys are distinct.
* `property_eq_nameFor`: no other property than its own stands behind a key, also on another
  engine.
* `createTheme_eq_ok`: a theme is the style of the renamed overrides.
-/

namespace HookStyle

open Css Evaluation

/-! ## Declarations under other names -/

namespace Declaration

/-- The declaration with every property under another name. -/
def renamed (f : String → String) (d : Declaration) : Declaration :=
  .ofList (d.entries.map fun e => (f e.1, e.2))

variable {d : Declaration} {f : String → String}

theorem entries_renamed (hf : ∀ k ∈ d.keys, ∀ k' ∈ d.keys, f k = f k' → k = k') :
    (d.renamed f).entries = d.entries.map fun e => (f e.1, e.2) := by
  refine OrderedMap.entries_ofList ?_
  rw [Entries.keys_map_key]
  exact List.Nodup.map_on (fun k hk k' hk' => hf k hk k' hk') d.keys_nodup

/-- A tree is found under the new name of its key, when no other key has that name. -/
theorem get?_renamed (hf : ∀ k ∈ d.keys, ∀ k' ∈ d.keys, f k = f k' → k = k') {key : String}
    (hkey : ∀ k ∈ d.keys, f k = f key → k = key) :
    (d.renamed f).get? (f key) = d.get? key := by
  rw [OrderedMap.get?, entries_renamed hf]
  exact Entries.lookup_map_key hkey

theorem keys_renamed (hf : ∀ k ∈ d.keys, ∀ k' ∈ d.keys, f k = f k' → k = k') :
    (d.renamed f).keys = d.keys.map f := by
  rw [OrderedMap.keys, entries_renamed hf, Entries.keys_map_key]
  rfl

theorem sequences_renamed (hf : ∀ k ∈ d.keys, ∀ k' ∈ d.keys, f k = f k' → k = k') :
    (d.renamed f).sequences = d.sequences := by
  rw [sequences, entries_renamed hf, List.flatMap_map]
  rfl

theorem unknownHook?_renamed (hf : ∀ k ∈ d.keys, ∀ k' ∈ d.keys, f k = f k' → k = k')
    (known : String → Bool) : (d.renamed f).unknownHook? known = d.unknownHook? known := by
  rw [unknownHook?, entries_renamed hf, List.findSome?_map]
  rfl

end Declaration

theorem exists_related {α β : Type} {related : α → β → Prop} {xs : List α} {ys : List β}
    (h : List.Forall₂ related xs ys) {x : α} (hx : x ∈ xs) : ∃ y ∈ ys, related x y := by
  induction h with
  | nil => cases hx
  | cons hhead _ ih =>
    rcases List.mem_cons.mp hx with rfl | hx
    · exact ⟨_, List.mem_cons_self, hhead⟩
    · obtain ⟨y, hy, hxy⟩ := ih hx
      exact ⟨y, List.mem_cons_of_mem _ hy, hxy⟩

/-! ## The properties of a group -/

namespace Event

variable {e : Event} {g : VariableGroup}

theorem eq_of_name_eq {d d' : Engine.Definition} (hd : d ∈ e.built) (hd' : d' ∈ e.built)
    (h : d.name = d'.name) : d = d' := by
  obtain ⟨i, hi⟩ := List.mem_iff_getElem?.mp hd
  obtain ⟨j, hj⟩ := List.mem_iff_getElem?.mp hd'
  obtain ⟨-, -, -, -, hn, -⟩ := getElem?_built hi
  obtain ⟨-, -, -, -, hn', -⟩ := getElem?_built hj
  obtain ⟨hlt, -⟩ := List.getElem?_eq_some_iff.mp hn
  obtain rfl := (List.getElem?_inj hlt VariableTable.nodup_fresh).mp (hn.trans (h ▸ hn'.symm))
  exact Option.some.inj (hi.symm.trans hj)

theorem eq_of_key_eq (hg : e.outcome = .ok (.group g)) {d d' : Engine.Definition}
    (hd : d ∈ e.built) (hd' : d' ∈ e.built) (h : d.key = d'.key) : d = d' := by
  obtain ⟨defaults, -, -, -, hkeys, -⟩ := exists_defaults_of_group hg
  have hnodup : (e.built.map Engine.Definition.key).Nodup := hkeys ▸ defaults.keys_nodup
  exact List.inj_on_of_nodup_map hnodup hd hd' h

/-- The property of a key, and the key itself when it has none. -/
def nameFor (e : Event) (key : String) : String :=
  ((e.built.find? fun d => d.key = key).map Engine.Definition.name).getD key

/-- The name for a key is that of the variable built under it. -/
theorem nameFor_of_mem (hg : e.outcome = .ok (.group g)) {d : Engine.Definition}
    (hd : d ∈ e.built) : e.nameFor d.key = d.name := by
  have hfind : e.built.find? (fun d' => d'.key = d.key) = some d := by
    cases h : e.built.find? (fun d' => d'.key = d.key) with
    | none => simpa using List.find?_eq_none.mp h d hd
    | some d' =>
      have hkey : d'.key = d.key := by simpa using List.find?_some h
      rw [eq_of_key_eq hg (List.mem_of_find?_eq_some h) hd hkey]
  rw [nameFor, hfind]
  rfl

/-- Different keys of a group have different names. -/
theorem nameFor_injective (hg : e.outcome = .ok (.group g)) {d d' : Engine.Definition}
    (hd : d ∈ e.built) (hd' : d' ∈ e.built) (h : e.nameFor d.key = e.nameFor d'.key) :
    d.key = d'.key := by
  rw [nameFor_of_mem hg hd, nameFor_of_mem hg hd'] at h
  rw [eq_of_name_eq hd hd' h]

end Event

/-! ## Themes -/

namespace Engine

variable {config config' : Config} {start start' : Engine} {calls calls' : List Call} {e : Event}
  {g : VariableGroup}

theorem inline_after (engine : Engine) (calls : List Call) (d : Declaration) :
    (engine.after calls).inline d = engine.inline d := by
  rw [inline, registry_after]
  rfl

/-- Whether a declaration is refused, and for which hook, does not depend on its names. -/
theorem inline_renamed_eq_error {engine : Engine} {d : Declaration} {f : String → String}
    (hf : ∀ k ∈ d.keys, ∀ k' ∈ d.keys, f k = f k' → k = k') {error : StyleError} :
    engine.inline (d.renamed f) = .error error ↔ engine.inline d = .error error := by
  simp only [inline, Registry.compile_eq_error_iff, Declaration.unknownHook?_renamed hf]

/-- An engine that knows a key knows it by the property that was built for it, be the group its
own or another engine's. -/
theorem property_eq_nameFor (hstart : ofConfig config = .ok start)
    (hstart' : ofConfig config' = .ok start') (he : e ∈ start'.events calls')
    (hg : e.outcome = .ok (.group g)) {key : String} (h : (start.after calls).Knows g key) :
    (∃ d ∈ e.built, d.key = key) ∧
      (start.after calls).property g key = .ok (e.nameFor key) := by
  obtain ⟨hname, rfl, htable⟩ := ofConfig_eq_ok hstart
  obtain ⟨hname', rfl, -⟩ := ofConfig_eq_ok hstart'
  obtain ⟨expression, name, hexpression, hlookup⟩ := h
  obtain ⟨d, hd, rfl, rfl⟩ := Event.exists_built_of_get? hg hexpression
  obtain ⟨rfl, -⟩ :=
    exists_built_of_lookup hname htable (isName_of_mem_built hname' he hd) hlookup
  refine ⟨⟨d, hd, rfl⟩, property_eq_ok.mpr ⟨_, hexpression, ?_⟩⟩
  rw [Event.nameFor_of_mem hg hd, hlookup]

/-- The keys that an engine knows belong to variables of the group, so their names differ. -/
theorem nameFor_injective_of_knows (hstart : ofConfig config = .ok start)
    (hstart' : ofConfig config' = .ok start') (he : e ∈ start'.events calls')
    (hg : e.outcome = .ok (.group g)) {o : Declaration}
    (h : ∀ key ∈ o.keys, (start.after calls).Knows g key) :
    ∀ k ∈ o.keys, ∀ k' ∈ o.keys, e.nameFor k = e.nameFor k' → k = k' := by
  intro k hk k' hk' heq
  obtain ⟨⟨d, hd, rfl⟩, -⟩ := property_eq_nameFor hstart hstart' he hg (h k hk)
  obtain ⟨⟨d', hd', rfl⟩, -⟩ := property_eq_nameFor hstart hstart' he hg (h k' hk')
  exact Event.nameFor_injective hg hd hd' heq

/-- When all keys are known, what is compiled are the overrides under their properties. -/
theorem createTheme_of_knows (hstart : ofConfig config = .ok start)
    (hstart' : ofConfig config' = .ok start') (he : e ∈ start'.events calls')
    (hg : e.outcome = .ok (.group g)) {o : Declaration}
    (h : ∀ key ∈ o.keys, (start.after calls).Knows g key) :
    (start.after calls).createTheme g o =
      ((start.after calls).inline (o.renamed e.nameFor)).map Theme.mk := by
  have hoverrides : (start.after calls).overrides g o.entries =
      .ok (o.entries.map fun entry => (e.nameFor entry.1, entry.2)) := by
    refine overrides_eq_ok.mpr (List.forall₂_map_right_iff.mpr (List.forall₂_same.mpr ?_))
    intro entry hentry
    have hknown := h entry.1 (List.mem_map_of_mem hentry)
    exact ⟨(property_eq_nameFor hstart hstart' he hg hknown).2, rfl⟩
  rw [createTheme, hoverrides]
  rfl

theorem knows_of_overrides {engine : Engine} {o : Declaration} {es : List (String × KeyedTree)}
    (h : engine.overrides g o.entries = .ok es) : ∀ key ∈ o.keys, engine.Knows g key := by
  intro key hkey
  obtain ⟨t, hmem⟩ := Entries.mem_keys.mp hkey
  obtain ⟨entry, -, hname, -⟩ := exists_related (overrides_eq_ok.mp h) hmem
  exact knows_iff.mpr ⟨_, hname⟩

/-- A theme overrides known keys only. -/
theorem knows_of_createTheme {engine : Engine} {o : Declaration} {theme : Theme}
    (h : engine.createTheme g o = .ok theme) : ∀ key ∈ o.keys, engine.Knows g key := by
  obtain ⟨es, hes, -⟩ := Outcome.bind_eq_ok.mp h
  exact knows_of_overrides hes

/-- A theme is the style of its overrides, each under the property of its key. -/
theorem createTheme_eq_ok (hstart : ofConfig config = .ok start)
    (hstart' : ofConfig config' = .ok start') (he : e ∈ start'.events calls')
    (hg : e.outcome = .ok (.group g)) {o : Declaration} {theme : Theme}
    (h : (start.after calls).createTheme g o = .ok theme) :
    (∀ key ∈ o.keys, ∃ d ∈ e.built, d.key = key) ∧
      start.inline (o.renamed e.nameFor) = .ok theme.style := by
  have hknows := knows_of_createTheme h
  rw [createTheme_of_knows hstart hstart' he hg hknows, inline_after] at h
  obtain ⟨s, hs, rfl⟩ := Outcome.map_eq_ok.mp h
  exact ⟨fun key hk => (property_eq_nameFor hstart hstart' he hg (hknows key hk)).1, hs⟩

end Engine

end HookStyle
