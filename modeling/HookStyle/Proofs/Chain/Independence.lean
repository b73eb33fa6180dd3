import HookStyle.Proofs.Chain.Shape

/-!
# Properties compile independently

The helpers that a style has when a property is compiled decide which of the property's own
helpers are added, and nothing else: whether its chain compiles, and to what, depends on the
chain alone. When neither identifiers nor names collide, the order of the chains decides only
the order of the result.

* `compile_single_iff`: a chain compiles alone when its conditions have toggles.
* `get?_compile_of_perm`: chains in another order give the same settings.
* `compile_independent`: properties together, alone, and in another order.
-/

namespace HookStyle

open Css

theorem OrderedMap.perm_of_get?_eq {α : Type} {m n : OrderedMap α}
    (h : ∀ key, m.get? key = n.get? key) : m.entries.Perm n.entries := by
  have hmem : ∀ {m n : OrderedMap α}, (∀ key, m.get? key = n.get? key) →
      ∀ e ∈ m.entries, e ∈ n.entries := fun hget e he =>
    mem_of_get? ((hget e.1).symm.trans (get?_of_mem he))
  refine (List.perm_ext_iff_of_nodup m.keys_nodup.of_map n.keys_nodup.of_map).mpr fun e => ?_
  exact ⟨hmem h e, hmem (fun key => (h key).symm) e⟩

theorem OrderedMap.get?_eq_of_perm {α : Type} {m n : OrderedMap α}
    (h : m.entries.Perm n.entries) (key : String) : m.get? key = n.get? key := by
  cases hn : n.get? key with
  | some value => exact get?_of_mem (h.mem_iff.mpr (mem_of_get? hn))
  | none =>
    rw [Option.eq_none_iff_forall_ne_some]
    intro value hm
    rw [get?_of_mem (h.mem_iff.mp (mem_of_get? hm))] at hn
    cases hn

theorem mem_compoundsOfChains_of_perm {chains chains' : List (String × Chain)}
    (h : chains'.Perm chains) {c : Condition} :
    c ∈ compoundsOfChains chains' ↔ c ∈ compoundsOfChains chains := by
  simp only [compoundsOfChains, List.mem_flatMap, h.mem_iff]

namespace ToggleSystem

variable {system : ToggleSystem} {chains chains' : OrderedMap Chain} {style style' : Style}

/-! ## One property -/

/-- A property alone compiles when the conditions of its links have toggles. -/
theorem compile_single_iff {property : String} {chain : Chain} :
    (∃ single, system.compile (.single property chain) = .ok single) ↔
      ∀ l ∈ chain.links, system.Resolves l.1 := by
  rw [compile_succeeds_iff]
  simp [OrderedMap.single]

theorem exists_helper_of_mem_helperNames (system : ToggleSystem) {cs : List Condition}
    (h : AllCompound cs) {name : String} (hn : name ∈ helperNames cs) :
    ∃ helper ∈ cs.flatMap system.pair, helper.name = name := by
  have hkeys : Entries.keys (system.helperEntries cs) = helperNames cs := keys_helperEntries h
  rw [← hkeys] at hn
  obtain ⟨e, he, rfl⟩ := List.mem_map.mp hn
  obtain ⟨helper, hhelper, rfl⟩ := List.mem_map.mp he
  exact ⟨helper, hhelper, rfl⟩

/-! ## Another order -/

/-- Chains of which neither the identifiers nor the names collide. -/
structure Apart (chains : OrderedMap Chain) : Prop where
  conditions : DistinctConditions (compoundsOfChains chains.entries)
  names : ∀ property ∈ chains.keys, property ∉ helperNames (compoundsOfChains chains.entries)

theorem Apart.of_perm (h : Apart chains) (hperm : chains'.entries.Perm chains.entries) :
    Apart chains' := by
  refine ⟨?_, ?_⟩
  · intro c hc d hd
    exact h.conditions c ((mem_compoundsOfChains_of_perm hperm).mp hc) d
      ((mem_compoundsOfChains_of_perm hperm).mp hd)
  · intro property hp hn
    exact h.names property ((hperm.map Prod.fst).mem_iff.mp hp)
      (mem_helperNames_of_subset (fun _ => (mem_compoundsOfChains_of_perm hperm).mp) hn)

/-- The order of the properties does not show in any lookup, as long as nothing collides. -/
theorem get?_compile_of_perm (h : Apart chains) (hperm : chains'.entries.Perm chains.entries)
    (hc : system.compile chains = .ok style) (hc' : system.compile chains' = .ok style')
    (name : String) : style'.get? name = style.get? name := by
  have h' := h.of_perm hperm
  by_cases hkey : name ∈ chains.keys
  · obtain ⟨chain, hchain⟩ := Entries.mem_keys.mp hkey
    have hget := OrderedMap.get?_of_mem hchain
    have hget' := (OrderedMap.get?_eq_of_perm hperm name).trans hget
    rw [(get?_compile hc hget).1, (get?_compile hc' hget').1]
  · have hkey' : name ∉ chains'.keys := fun hk => hkey ((hperm.map Prod.fst).mem_iff.mp hk)
    by_cases hn : name ∈ helperNames (compoundsOfChains chains.entries)
    · obtain ⟨helper, hm, rfl⟩ := exists_helper_of_mem_helperNames system
        (allCompound_compoundsOfChains chains.entries) hn
      have hm' : helper ∈ (compoundsOfChains chains'.entries).flatMap system.pair := by
        obtain ⟨c, hcm, hpair⟩ := List.mem_flatMap.mp hm
        exact List.mem_flatMap.mpr ⟨c, (mem_compoundsOfChains_of_perm hperm).mpr hcm, hpair⟩
      exact (provides_compile hc' h'.conditions h'.names helper hm').trans
        (provides_compile hc h.conditions h.names helper hm).symm
    · rw [get?_compile_eq_none hc hkey hn, get?_compile_eq_none hc' hkey']
      exact fun hn' => hn
        (mem_helperNames_of_subset (fun _ => (mem_compoundsOfChains_of_perm hperm).mp) hn')

/-! ## Independence -/

/-- Properties compile together exactly when each compiles alone, and to the same settings.
When nothing collides, the same chains in another order compile to the same style in another
order. -/
theorem compile_independent (system : ToggleSystem) (chains : OrderedMap Chain) :
    ((∃ style, system.compile chains = .ok style) ↔
      ∀ property chain, chains.get? property = some chain →
        ∃ single, system.compile (.single property chain) = .ok single) ∧
    (∀ style, system.compile chains = .ok style →
      ∀ property chain, chains.get? property = some chain →
        ∃ single setting, system.compile (.single property chain) = .ok single ∧
          style.get? property = some setting ∧ single.get? property = some setting) ∧
    ∀ chains' : OrderedMap Chain, chains'.entries.Perm chains.entries →
      ((∃ style, system.compile chains = .ok style) ↔
        ∃ style', system.compile chains' = .ok style') ∧
      (Apart chains → ∀ style style', system.compile chains = .ok style →
        system.compile chains' = .ok style' → style'.entries.Perm style.entries) := by
  refine ⟨⟨?_, ?_⟩, ?_, ?_⟩
  · rintro ⟨style, h⟩ property chain hget
    exact compile_single_iff.mpr (get?_compile h hget).2
  · intro h
    refine compile_succeeds_iff.mpr fun e he => ?_
    exact compile_single_iff.mp (h e.1 e.2 (OrderedMap.get?_of_mem he))
  · intro style h property chain hget
    obtain ⟨hsetting, hres⟩ := get?_compile h hget
    obtain ⟨single, hsingle⟩ := compile_single_iff.mpr hres
    exact ⟨single, _, hsingle, hsetting,
      (get?_compile hsingle (OrderedMap.get?_single property chain)).1⟩
  · intro chains' hperm
    refine ⟨?_, fun h style style' hc hc' =>
      OrderedMap.perm_of_get?_eq (get?_compile_of_perm h hperm hc hc')⟩
    simp only [compile_succeeds_iff, hperm.mem_iff]

/-- The two properties share a compound condition, and nothing collides. -/
theorem apart_sharingChains : Apart sharingChains := by
  have hs : hoverFocus.Separate [.all [.hook ":hover", .hook ":focus"],
      .any [.hook ":hover", .not (.all [.hook ":hover", .hook ":focus"])]] :=
    Separate.of_nodup (by decide +kernel)
  have hsub : ∀ c ∈ compoundsOfChains sharingChains.entries,
      c ∈ [Condition.all [.hook ":hover", .hook ":focus"],
        .any [.hook ":hover", .not (.all [.hook ":hover", .hook ":focus"])]] := by
    intro c hc
    -- the conjunction is used twice
    change c ∈ [_, _, _] at hc
    simp only [List.mem_cons, List.not_mem_nil, or_false] at hc ⊢
    rcases hc with h | h | h
    · exact Or.inl h
    · exact Or.inr h
    · exact Or.inl h
  exact ⟨fun c hc d hd => hs.conditions c (hsub c hc) d (hsub d hd), by decide +kernel⟩

def sharingSwapped : OrderedMap Chain :=
  .ofList [("margin", bothChain), ("color", hoverFocusChain)]

theorem perm_sharingSwapped : ∃ style style', hoverFocus.compile sharingChains = .ok style ∧
    hoverFocus.compile sharingSwapped = .ok style' ∧ style'.entries.Perm style.entries := by
  have hperm : sharingSwapped.entries.Perm sharingChains.entries := List.Perm.swap _ _ []
  obtain ⟨style, h⟩ : ∃ style, hoverFocus.compile sharingChains = .ok style := ⟨_, rfl⟩
  obtain ⟨-, -, horder⟩ := compile_independent hoverFocus sharingChains
  obtain ⟨hsucceeds, hsame⟩ := horder sharingSwapped hperm
  obtain ⟨style', h'⟩ := hsucceeds.mp ⟨style, h⟩
  exact ⟨style, style', h, h', hsame apart_sharingChains style style' h h'⟩

end ToggleSystem

end HookStyle
