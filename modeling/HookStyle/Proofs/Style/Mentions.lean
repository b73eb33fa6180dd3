import HookStyle.Proofs.OrderedMap.Entries
import HookStyle.Proofs.Style.Merging

/-!
# The last mention of a property

When styles are written over one another, a property is left with its last mention. What
holds of every style that is written, that its helpers have their own texts, holds of the
result.

* `get?_merge_eq`, `get?_foldl_insertAll`: merged styles, and styles whose entries are set one
  style after the other, have the last mentions.
* `fits_of_lastMention`, `provides_of_lastMention`: the helpers of a style that has the last
  mentions.
* `get?_inline`: the mention of a property by the style of a declaration.
-/

namespace HookStyle

open Css

namespace Style

/-- What the last style that mentions a property sets it to. -/
def lastMention (styles : List Style) (property : String) : Option Setting :=
  (styles.filterMap fun s => s.get? property).getLast?

variable {styles : List Style} {property : String}

theorem lastMention_cons (s : Style) (styles : List Style) (property : String) :
    lastMention (s :: styles) property = (lastMention styles property).or (s.get? property) := by
  rw [lastMention, List.filterMap_cons]
  cases s.get? property with
  | none => exact Option.or_none.symm
  | some v =>
    rw [List.getLast?_cons]
    unfold lastMention
    cases (styles.filterMap fun s => s.get? property).getLast? <;> rfl

/-- The styles that come later decide first. -/
theorem lastMention_append (styles styles' : List Style) (property : String) :
    lastMention (styles ++ styles') property =
      (lastMention styles' property).or (lastMention styles property) := by
  rw [lastMention, List.filterMap_append, List.getLast?_append]
  rfl

theorem lastMention_singleton (s : Style) (property : String) :
    lastMention [s] property = s.get? property := by
  rw [lastMention_cons]
  exact Option.none_or

theorem exists_of_lastMention {s : Setting} (h : lastMention styles property = some s) :
    ∃ u ∈ styles, u.get? property = some s :=
  List.mem_filterMap.mp (List.mem_of_getLast? h)

theorem lastMention_ne_none {u : Style} (hu : u ∈ styles) (h : u.get? property ≠ none) :
    lastMention styles property ≠ none := by
  obtain ⟨s, hs⟩ := Option.ne_none_iff_exists'.mp h
  intro hnone
  have hmem : s ∈ styles.filterMap fun s => s.get? property := List.mem_filterMap.mpr ⟨u, hu, hs⟩
  rw [List.getLast?_eq_none_iff.mp hnone] at hmem
  cases hmem

theorem lastMention_eq_none (h : ∀ u ∈ styles, u.get? property = none) :
    lastMention styles property = none := by
  rw [lastMention, List.getLast?_eq_none_iff, List.filterMap_eq_nil_iff]
  exact h

theorem get?_foldl_insertAll (styles : List Style) (start : Style) (property : String) :
    (styles.foldl (fun style u => style.insertAll u.entries) start).get? property =
      (lastMention styles property).or (start.get? property) := by
  induction styles generalizing start with
  | nil => rfl
  | cons u styles ih =>
    rw [List.foldl_cons, ih, OrderedMap.get?_insertAll u.keys_nodup, lastMention_cons,
      Option.or_assoc]
    rfl

end Style

namespace InlineStyle

theorem get?_foldl_apply (styles : List Style) (inline : InlineStyle) (property : String) :
    (styles.foldl apply inline).get? property =
      (Style.lastMention styles property).or (inline.get? property) := by
  induction styles generalizing inline with
  | nil => rfl
  | cons u styles ih =>
    rw [List.foldl_cons, ih, get?_apply, Style.lastMention_cons, Option.or_assoc]

theorem get?_merge_eq (items : List StyleTree) (property : String) :
    (merge items).get? property = Style.lastMention (StyleTree.flattenAll items) property := by
  rw [merge_flatten, get?_foldl_apply, OrderedMap.get?_empty, Option.or_none]

end InlineStyle

namespace ToggleSystem

variable {system : ToggleSystem} {helpers : List Helper} {styles : List Style} {style : Style}

theorem fits_of_lastMention (hget : ∀ name, style.get? name = Style.lastMention styles name)
    (hfits : ∀ u ∈ styles, system.Fits helpers u) : system.Fits helpers style := by
  intro h hh
  cases hlast : Style.lastMention styles h.name with
  | none => exact Or.inl ((hget _).trans hlast)
  | some s =>
    obtain ⟨u, hu, hs⟩ := Style.exists_of_lastMention hlast
    rcases hfits u hu h hh with hnone | hp
    · rw [hs] at hnone
      cases hnone
    · exact Or.inr ((hget _).trans (hlast.trans (hs.symm.trans hp)))

/-- Merging fitting styles loses no helper: every style that mentions its name has the same
text there. -/
theorem provides_of_lastMention (hget : ∀ name, style.get? name = Style.lastMention styles name)
    (hfits : ∀ u ∈ styles, system.Fits helpers u) {h : Helper} (hh : h ∈ helpers) {u : Style}
    (hu : u ∈ styles) (hp : system.Provides u h) : system.Provides style h := by
  rcases fits_of_lastMention hget hfits h hh with hnone | hs
  · have hmention : u.get? h.name ≠ none := by
      rw [hp]
      exact Option.some_ne_none _
    rw [hget] at hnone
    exact absurd hnone (Style.lastMention_ne_none hu hmention)
  · exact hs

end ToggleSystem

namespace Registry

variable {r : Registry} {ds : List Declaration} {d : Declaration} {style : Style}

/-- What a style sets a property to, when the property is not named like a helper: what its
tree asks for, and nothing without a leaf. -/
theorem get?_compile (h : r.Admits ds) (hd : d ∈ ds) (hc : r.compile d = .ok style)
    {property : String} (hname : property ∉ ToggleSystem.helperNames (conjunctions ds)) :
    style.get? property = (d.get? property).bind fun t =>
      if t.tree.leaves = [] then none else some (r.toggles.chainSetting property t.tree.chain) := by
  cases ht : d.get? property with
  | none =>
    refine ToggleSystem.get?_compile_eq_none (compile_eq_ok.mp hc).2 ?_ ?_
    · intro hk
      have hkeys := OrderedMap.contains_iff.mpr (keys_chains_subset hk)
      rw [OrderedMap.contains, ht] at hkeys
      cases hkeys
    · exact fun hn => hname (helperNames_chains_subset hd hn)
  | some t =>
    rw [Option.bind_some]
    split
    next hleaves => exact get?_compile_of_no_leaves h hd hc ht hleaves
    next hleaves => exact get?_compile_of_leaves hc ht hleaves

end Registry

end HookStyle
