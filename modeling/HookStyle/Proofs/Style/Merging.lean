import HookStyle.Proofs.Tree.Meaning
import HookStyle.Style.Merge

/-!
# The meaning of merged styles

Styles of one engine share the helpers of their compound conditions by name. A helper has
the same text in every style that has it, so writing one style over another neither takes
a helper away nor changes it.

* `get?_merge`: a merged style has of each property what the last style that mentions it
  has.
* `provides_merge`: a merged style has the helpers of all of its styles.
* `computed_merge`: a declared property has in a merged style the value that it has in the
  last style that mentions it, and every helper has the value that it has in any style.
-/

namespace HookStyle

open Css Evaluation

namespace InlineStyle

theorem get?_foldl_write {es : List (String × Setting)} (h : (Entries.keys es).Nodup)
    (inline : InlineStyle) (key : String) :
    (es.foldl write inline).get? key = (es.lookup key).or (inline.get? key) := by
  induction es generalizing inline with
  | nil => rfl
  | cons e es ih =>
    rw [Entries.keys_cons, List.nodup_cons] at h
    rw [List.foldl_cons, ih h.2, write, OrderedMap.get?_setLast, Entries.lookup_cons]
    split
    next hk =>
      have hnone : es.lookup key = none := by
        rw [← Option.not_isSome_iff_eq_none, Entries.lookup_isSome, hk]
        exact h.1
      rw [hnone]
      rfl
    next => rfl

theorem get?_apply (inline : InlineStyle) (s : Style) (key : String) :
    (inline.apply s).get? key = (s.get? key).or (inline.get? key) :=
  get?_foldl_write s.keys_nodup inline key

theorem get?_foldl_apply_of_none {styles : List Style} {inline : InlineStyle} {key : String}
    (h : ∀ s ∈ styles, s.get? key = none) :
    (styles.foldl apply inline).get? key = inline.get? key := by
  induction styles generalizing inline with
  | nil => rfl
  | cons s styles ih =>
    rw [List.foldl_cons, ih fun u hu => h u (List.mem_cons_of_mem _ hu), get?_apply,
      h s List.mem_cons_self, Option.none_or]

variable {items : List StyleTree} {before after : List Style} {s : Style} {key : String}

/-- The last style that mentions a property decides it, also by clearing it. -/
theorem get?_merge (hsplit : StyleTree.flattenAll items = before ++ s :: after)
    (hs : s.get? key ≠ none) (hafter : ∀ u ∈ after, u.get? key = none) :
    (merge items).get? key = s.get? key := by
  rw [merge_flatten, hsplit, List.foldl_append, List.foldl_cons,
    get?_foldl_apply_of_none hafter, get?_apply]
  exact Option.or_of_isSome (Option.isSome_iff_ne_none.mpr hs)

theorem get?_merge_single (s : Style) (key : String) :
    (merge [.style s]).get? key = s.get? key := by
  rw [merge_flatten]
  change (apply .empty s).get? key = _
  rw [get?_apply, OrderedMap.get?_empty, Option.or_none]

/-! ## Helpers in a merged style -/

variable {system : ToggleSystem} {helpers : List Helper} {h : Helper}

theorem provides_apply (inline : InlineStyle) (hs : system.Provides s h) :
    system.Provides (inline.apply s) h := by
  unfold ToggleSystem.Provides at hs ⊢
  rw [get?_apply, hs, Option.some_or]

theorem provides_apply_of_fits {inline : InlineStyle} (hh : h ∈ helpers)
    (hs : system.Fits helpers s) (hi : system.Provides inline h) :
    system.Provides (inline.apply s) h := by
  rcases hs h hh with hnone | hp
  · unfold ToggleSystem.Provides at hi ⊢
    rw [get?_apply, hnone, Option.none_or, hi]
  · exact provides_apply inline hp

theorem provides_foldl_apply {styles : List Style} {inline : InlineStyle} (hh : h ∈ helpers)
    (hfits : ∀ u ∈ styles, system.Fits helpers u)
    (hp : system.Provides inline h ∨ ∃ u ∈ styles, system.Provides u h) :
    system.Provides (styles.foldl apply inline) h := by
  induction styles generalizing inline with
  | nil =>
    rcases hp with hp | ⟨u, hu, -⟩
    · exact hp
    · cases hu
  | cons s styles ih =>
    rw [List.foldl_cons]
    refine ih (fun u hu => hfits u (List.mem_cons_of_mem _ hu)) ?_
    rcases hp with hp | ⟨u, hu, hp⟩
    · exact Or.inl (provides_apply_of_fits hh (hfits s List.mem_cons_self) hp)
    · rcases List.mem_cons.mp hu with rfl | hu
      · exact Or.inl (provides_apply inline hp)
      · exact Or.inr ⟨u, hu, hp⟩

/-- The merged style has the helpers of each of its items. -/
theorem provides_merge (hfits : ∀ u ∈ StyleTree.flattenAll items, system.Fits helpers u)
    (hs : s ∈ StyleTree.flattenAll items) (hh : h ∈ helpers) (hp : system.Provides s h) :
    system.Provides (merge items) h := by
  rw [merge_flatten]
  exact provides_foldl_apply hh hfits (Or.inr ⟨s, hs, hp⟩)

end InlineStyle

namespace ToggleSystem

variable {system : ToggleSystem} {active : String → Bool} {cs : List Condition}
  {style style' : Style}

/-- What a style serves is served by every style that has its helpers. -/
theorem Served.of_provides {c : Condition} (h : system.Served cs style c)
    (hp : ∀ k ∈ cs.flatMap system.pair, system.Provides style k → system.Provides style' k) :
    system.Served cs style' c := by
  refine ⟨h.resolves, h.within, ?_⟩
  intro k hk
  obtain ⟨e, he, hke⟩ := List.mem_flatMap.mp hk
  exact hp k (List.mem_flatMap.mpr ⟨e, h.within e he, hke⟩) (h.provides k hk)

/-- The helpers of a served sequence of hooks show whether all of its hooks are active. -/
theorem computed_conjunctionOf (active : String → Bool) (hs : system.Separate cs)
    {hooks : List String} (hlen : 2 ≤ hooks.length)
    (h : system.Served cs style (conjunctionOf hooks)) :
    Reads (system.computed active style)
      (Toggle.ofId (conjunctionOf hooks).identifier) (hooks.all active) := by
  have hmem : conjunctionOf hooks ∈ cs := by
    refine h.within _ ?_
    rw [conjunctionOf, Condition.compounds_all_of_two_le (by simpa using hlen)]
    exact List.mem_append_right _ (List.mem_singleton.mpr rfl)
  have htoggle : system.toggle (conjunctionOf hooks)
      = Toggle.ofId (conjunctionOf hooks).identifier := by
    match hooks, hlen with
    | a :: b :: hooks, _ => exact (toggle_compound _ _ _).1
  have hholds : (conjunctionOf hooks).holds active = hooks.all active := by
    rw [conjunctionOf, Condition.holds, Condition.allHold_eq_all, List.all_map]
    rfl
  have hreads := reads_toggle active hs h
  rw [htoggle, hholds] at hreads
  obtain ⟨htrue, hfalse⟩ := toggleState?_ofId_eq_none active (hs.apart _ hmem)
  rw [Reads, lookup, lookup, htrue, hfalse] at hreads
  exact hreads

end ToggleSystem

namespace Engine

variable {engine : Engine} {ds : List Declaration} {items : List StyleTree}

/-- What one of the styles serves, the merged style serves. -/
theorem served_merge (h : engine.registry.Admits ds)
    (hitems : ∀ u ∈ StyleTree.flattenAll items, ∃ d ∈ ds, engine.inline d = .ok u)
    {u : Style} (hu : u ∈ StyleTree.flattenAll items) {c : Condition}
    (hserved : engine.registry.toggles.Served (conjunctions ds) u c) :
    engine.registry.toggles.Served (conjunctions ds) (InlineStyle.merge items) c := by
  refine hserved.of_provides fun k hk hp => InlineStyle.provides_merge ?_ hu hk hp
  intro v hv
  obtain ⟨d, hd, hc⟩ := hitems v hv
  exact Registry.fits_of_compile h hd hc

/-- What a style mentions under another name is a property of its declaration. -/
theorem exists_tree_of_get? (h : engine.registry.Admits ds) {d : Declaration} (hd : d ∈ ds)
    {s : Style} (hc : engine.inline d = .ok s) {property : String}
    (hname : property ∉ ToggleSystem.helperNames (conjunctions ds))
    (hs : s.get? property ≠ none) :
    ∃ t, d.get? property = some t ∧ t.tree.leaves ≠ [] := by
  have hkeys : property ∈ d.chains.keys := by
    by_contra hne
    refine hs (ToggleSystem.get?_compile_eq_none (Registry.compile_eq_ok.mp hc).2 hne ?_)
    intro hn
    exact hname (Registry.helperNames_chains_subset hd hn)
  obtain ⟨t, ht⟩ := Entries.mem_keys.mp (Registry.keys_chains_subset hkeys)
  have hget := OrderedMap.get?_of_mem ht
  refine ⟨t, hget, ?_⟩
  intro hleaves
  exact hs (Registry.get?_compile_of_no_leaves h hd hc hget hleaves)

/-- What a style mentions under the name of a helper is the helper of a sequence of the
style's own declaration. -/
theorem exists_sequence_of_get? (h : engine.registry.Admits ds) {d : Declaration} (hd : d ∈ ds)
    {u : Style} (hc : engine.inline d = .ok u) {name : String}
    (hname : name ∈ ToggleSystem.helperNames (conjunctions ds)) (hu : u.get? name ≠ none) :
    ∃ hooks ∈ d.sequences, name = (Toggle.ofId (conjunctionOf hooks).identifier).whenTrue ∨
      name = (Toggle.ofId (conjunctionOf hooks).identifier).whenFalse := by
  have hkeys : name ∉ d.chains.keys :=
    fun hk => h.names d hd name (Registry.keys_chains_subset hk) hname
  have hmem : name ∈ ToggleSystem.helperNames (compoundsOfChains d.chains.entries) := by
    by_contra hne
    exact hu (ToggleSystem.get?_compile_eq_none (Registry.compile_eq_ok.mp hc).2 hkeys hne)
  obtain ⟨c, hm, hn⟩ := List.mem_flatMap.mp hmem
  have hc' := mem_conjunctions_of_chains (List.mem_singleton.mpr rfl) hm
  obtain ⟨hooks, hh, rfl⟩ := List.mem_map.mp hc'
  rw [List.flatMap_cons, List.flatMap_nil, List.append_nil] at hh
  simp only [List.mem_cons, List.not_mem_nil, or_false] at hn
  exact ⟨hooks, hh, hn.symm⟩

theorem exists_helper_of_name (system : ToggleSystem) {hooks : List String} (hne : hooks ≠ [])
    {name : String} (hn : name = (Toggle.ofId (conjunctionOf hooks).identifier).whenTrue ∨
      name = (Toggle.ofId (conjunctionOf hooks).identifier).whenFalse) :
    ∃ k ∈ system.pair (conjunctionOf hooks), k.name = name := by
  obtain ⟨hook, hooks, rfl⟩ := List.exists_cons_of_ne_nil hne
  rcases hn with hn | hn
  · refine ⟨⟨_, _⟩, List.mem_cons_of_mem _ List.mem_cons_self, hn.symm⟩
  · refine ⟨⟨_, _⟩, List.mem_cons_self, hn.symm⟩

/-- A helper that a style has is still there after the merge, with the same text and the
same value. -/
theorem helper_merge (active : String → Bool) (h : engine.registry.Admits ds)
    (hitems : ∀ u ∈ StyleTree.flattenAll items, ∃ d ∈ ds, engine.inline d = .ok u)
    {u : Style} (hu : u ∈ StyleTree.flattenAll items) {name : String}
    (hname : name ∈ ToggleSystem.helperNames (conjunctions ds)) (hget : u.get? name ≠ none) :
    (InlineStyle.merge items).get? name = u.get? name ∧
      engine.registry.toggles.computed active (InlineStyle.merge items) name =
        engine.registry.toggles.computed active u name := by
  obtain ⟨d, hd, hc⟩ := hitems u hu
  obtain ⟨hooks, hm, hn⟩ := exists_sequence_of_get? h hd hc hname hget
  have hlen := Declaration.two_le_of_mem_sequences hm
  have hserved := Registry.served_sequence h hd hc hm
  have hserved' := served_merge h hitems hu hserved
  constructor
  · obtain ⟨k, hk, rfl⟩ := exists_helper_of_name engine.registry.toggles
      (List.ne_nil_of_length_pos (by omega)) hn
    have hmem : conjunctionOf hooks ∈ (conjunctionOf hooks).compounds := by
      rw [conjunctionOf, Condition.compounds_all_of_two_le (by simpa using hlen)]
      exact List.mem_append_right _ (List.mem_singleton.mpr rfl)
    have hp := hserved.provides k (List.mem_flatMap.mpr ⟨_, hmem, hk⟩)
    have hp' := hserved'.provides k (List.mem_flatMap.mpr ⟨_, hmem, hk⟩)
    exact hp'.trans hp.symm
  · have hreads := ToggleSystem.computed_conjunctionOf active h.separate hlen hserved
    have hreads' := ToggleSystem.computed_conjunctionOf active h.separate hlen hserved'
    rcases hn with rfl | rfl
    · exact hreads'.1.trans hreads.1.symm
    · exact hreads'.2.trans hreads.2.symm

/-- Merging keeps the meaning of a declared property, and of every helper. -/
theorem computed_merge (engine : Engine) (active : String → Bool) {ds : List Declaration}
    (h : engine.registry.Admits ds) {items : List StyleTree}
    (hitems : ∀ u ∈ StyleTree.flattenAll items, ∃ d ∈ ds, engine.inline d = .ok u)
    {property : String} (hdeclared : ∃ d ∈ ds, property ∈ d.keys)
    (hplain : ∀ d ∈ ds, ∀ t, d.get? property = some t →
      t.tree.IsPlain engine.registry.toggles)
    {before after : List Style} {s : Style}
    (hsplit : StyleTree.flattenAll items = before ++ s :: after)
    (hs : s.get? property ≠ none) (hafter : ∀ u ∈ after, u.get? property = none) :
    (InlineStyle.merge items).get? property = (InlineStyle.merge [.style s]).get? property ∧
      engine.registry.toggles.computed active (InlineStyle.merge items) property =
        engine.registry.toggles.computed active (InlineStyle.merge [.style s]) property ∧
      ∀ u ∈ StyleTree.flattenAll items,
        ∀ name ∈ ToggleSystem.helperNames (conjunctions ds), u.get? name ≠ none →
          (InlineStyle.merge items).get? name = u.get? name ∧
            engine.registry.toggles.computed active (InlineStyle.merge items) name =
              engine.registry.toggles.computed active u name := by
  have hget := InlineStyle.get?_merge hsplit hs hafter
  have hsingle := InlineStyle.get?_merge_single s property
  refine ⟨hget.trans hsingle.symm, ?_, fun u hu name hn => helper_merge active h hitems hu hn⟩
  have hmem : s ∈ StyleTree.flattenAll items := by
    rw [hsplit]
    exact List.mem_append_right _ List.mem_cons_self
  have hself : s ∈ StyleTree.flattenAll [.style s] := List.mem_cons_self
  obtain ⟨d, hd, hc⟩ := hitems s hmem
  have hone : ∀ u ∈ StyleTree.flattenAll [.style s], ∃ d ∈ ds, engine.inline d = .ok u := by
    intro u hu
    obtain rfl := List.mem_singleton.mp hu
    exact ⟨d, hd, hc⟩
  have hname : property ∉ ToggleSystem.helperNames (conjunctions ds) := by
    obtain ⟨e, he, hk⟩ := hdeclared
    exact h.names e he property hk
  obtain ⟨t, ht, hleaves⟩ := exists_tree_of_get? h hd hc hname hs
  have hserved := Registry.served_of_compile h hd hc ht
  have hchain := Registry.get?_compile_of_leaves hc ht hleaves
  rw [ToggleSystem.computed_of_served h.separate
      (fun l hl => served_merge h hitems hmem (hserved l hl)) hname (hget.trans hchain)
      (hplain d hd t ht),
    ToggleSystem.computed_of_served h.separate
      (fun l hl => served_merge h hone hself (hserved l hl)) hname (hsingle.trans hchain)
      (hplain d hd t ht)]

/-- Two declarations with the same condition, of which the second is written over the
first one. -/
theorem computed_merge_focusInHover : ∃ s₁ s₂,
    hoverFocus.inline (.single "color" focusInHover) = .ok s₁ ∧
      hoverFocus.inline (.single "background" focusInHover) = .ok s₂ ∧
        hoverFocus.registry.toggles.computed (fun _ => true)
            (InlineStyle.merge [.style s₁, .list [.nothing, .style s₂]]) "color" =
          hoverFocus.registry.toggles.computed (fun _ => true)
            (InlineStyle.merge [.style s₁]) "color" := by
  obtain ⟨s₁, h₁⟩ : ∃ s, hoverFocus.inline (.single "color" focusInHover) = .ok s :=
    Registry.compile_succeeds_iff.mpr (by decide +kernel)
  obtain ⟨s₂, h₂⟩ : ∃ s, hoverFocus.inline (.single "background" focusInHover) = .ok s :=
    Registry.compile_succeeds_iff.mpr (by decide +kernel)
  have h : hoverFocus.registry.Admits
      [.single "color" focusInHover, .single "background" focusInHover] :=
    ⟨hoverFocus_distinctHooks, by decide +kernel, by decide +kernel⟩
  have hitems : ∀ u ∈ StyleTree.flattenAll [.style s₁, .list [.nothing, .style s₂]],
      ∃ d ∈ [.single "color" focusInHover, .single "background" focusInHover],
        hoverFocus.inline d = .ok u := by
    intro u hu
    change u ∈ [s₁, s₂] at hu
    simp only [List.mem_cons, List.not_mem_nil, or_false] at hu
    rcases hu with rfl | rfl
    · exact ⟨_, List.mem_cons_self, h₁⟩
    · exact ⟨_, List.mem_cons_of_mem _ List.mem_cons_self, h₂⟩
  have hplain : ∀ d ∈ [OrderedMap.single "color" focusInHover, .single "background" focusInHover],
      ∀ t, d.get? "color" = some t → t.tree.IsPlain hoverFocus.registry.toggles := by
    intro d hd t ht
    simp only [List.mem_cons, List.not_mem_nil, or_false] at hd
    rcases hd with rfl | rfl
    · obtain rfl : focusInHover = t := Option.some.inj ht
      exact isPlain_focusInHover
    · cases ht
  have hcolor : s₁.get? "color" ≠ none := by
    rw [Registry.get?_compile_of_leaves h₁ rfl (by decide)]
    exact Option.some_ne_none _
  have hnone : s₂.get? "color" = none :=
    ToggleSystem.get?_compile_eq_none (Registry.compile_eq_ok.mp h₂).2 (by decide +kernel)
      (by decide +kernel)
  have hafter : ∀ u ∈ [s₂], u.get? "color" = none := by
    intro u hu
    rw [List.mem_singleton.mp hu]
    exact hnone
  have hsplit : StyleTree.flattenAll [.style s₁, .list [.nothing, .style s₂]]
      = [] ++ s₁ :: [s₂] := rfl
  exact ⟨s₁, s₂, h₁, h₂, (computed_merge hoverFocus (fun _ => true) h hitems
    ⟨_, List.mem_cons_self, by decide⟩ hplain hsplit hcolor hafter).2.1⟩

end Engine

end HookStyle
