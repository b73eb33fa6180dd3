import HookStyle.Proofs.Style.LastWrites
import Mathlib.Data.Set.Defs

/-!
# The cascade of merged styles

One property may affect several longhands, and one longhand may be affected by several
properties. Of declarations that stand one after the other, the last one that affects a
longhand counts. A merged style declares each of its properties once, at the place of its
last write, and this is enough: whatever affects what, the declaration that counts is the
one that counts when all styles are written out.

* `lastAffecting_lastWrites`: leaving out the earlier writes changes no longhand.
* `lastAffecting_merge`: merging reproduces the cascade of the styles.
-/

namespace HookStyle

open Css

namespace InlineStyle

/-! ## Longhands -/

/-- The declaration of an entry that has a value. -/
def declaration? (e : String × Setting) : Option (String × String) :=
  e.2.map fun v => (Property.hyphenate e.1, v.render e.1)

theorem declarations_merge_single (s : Style) :
    (merge [.style s]).declarations = s.entries.filterMap declaration? := by
  rw [declarations, entries_merge_single]
  rfl

section

variable {Longhand : Type} (affects : String → Set Longhand)
  [∀ name l, Decidable (l ∈ affects name)] (l : Longhand)

/-- The last declaration that affects a longhand, where `affects` tells which longhands a
property of CSS sets. -/
def lastAffecting (ds : List (String × String)) : Option (String × String) :=
  (ds.filter fun d => l ∈ affects d.1).getLast?

/-- A declaration counts only if none behind it affects the longhand. -/
theorem lastAffecting_cons (d : String × String) (ds : List (String × String)) :
    lastAffecting affects l (d :: ds) =
      (lastAffecting affects l ds).or (if l ∈ affects d.1 then some d else none) := by
  rw [lastAffecting, List.filter_cons]
  by_cases h : l ∈ affects d.1
  · rw [if_pos (decide_eq_true h), if_pos h, List.getLast?_cons]
    unfold lastAffecting
    cases (ds.filter fun d => l ∈ affects d.1).getLast? <;> rfl
  · rw [if_neg (by simpa using h), if_neg h, Option.or_none]
    rfl

variable {affects l}

theorem isSome_lastAffecting {d : String × String} {ds : List (String × String)} (hd : d ∈ ds)
    (h : l ∈ affects d.1) : (lastAffecting affects l ds).isSome := by
  rw [Option.isSome_iff_ne_none]
  intro hnone
  have hmem : d ∈ ds.filter fun d => l ∈ affects d.1 := List.mem_filter.mpr ⟨hd, decide_eq_true h⟩
  rw [List.getLast?_eq_none_iff.mp hnone] at hmem
  cases hmem

/-- A write affects what every later write of the same property affects, so it may be left
out when there is a later one that has a value. -/
theorem lastAffecting_lastWrites {es : List (String × Setting)} (h : ∀ e ∈ es, e.2 ≠ none) :
    lastAffecting affects l ((Entries.lastWrites es).filterMap declaration?) =
      lastAffecting affects l (es.filterMap declaration?) := by
  induction es with
  | nil => rfl
  | cons e es ih =>
    have ih' := ih fun f hf => h f (List.mem_cons_of_mem _ hf)
    obtain ⟨v, hv⟩ := Option.ne_none_iff_exists'.mp (h e List.mem_cons_self)
    have hdeclared : declaration? e = some (Property.hyphenate e.1, v.render e.1) := by
      rw [declaration?, hv, Option.map_some]
    rw [List.filterMap_cons_some hdeclared, lastAffecting_cons, Entries.lastWrites]
    split
    next hkey =>
      rw [ih']
      split
      next haffects =>
        obtain ⟨s, hs⟩ := Entries.mem_keys.mp hkey
        obtain ⟨w, hw⟩ := Option.ne_none_iff_exists'.mp (h _ (List.mem_cons_of_mem _ hs))
        have hlater : (Property.hyphenate e.1, w.render e.1) ∈ es.filterMap declaration? :=
          List.mem_filterMap.mpr ⟨_, hs, by rw [declaration?, hw, Option.map_some]⟩
        exact (Option.or_of_isSome (isSome_lastAffecting hlater haffects)).symm
      next => rw [Option.or_none]
    next =>
      rw [List.filterMap_cons_some hdeclared, lastAffecting_cons, ih']

/-- Merging reproduces the cascade: every longhand is left to the declaration that it is
left to when the styles are written out one after the other. A cleared property has no
declaration, which would let an earlier one through. -/
theorem lastAffecting_merge {items : List StyleTree}
    (h : ∀ s ∈ StyleTree.flattenAll items, ∀ e ∈ s.entries, e.2 ≠ none) {Longhand : Type}
    (affects : String → Set Longhand) [∀ name l, Decidable (l ∈ affects name)] (l : Longhand) :
    lastAffecting affects l (merge items).declarations =
      lastAffecting affects l
        ((StyleTree.flattenAll items).flatMap fun s => (merge [.style s]).declarations) := by
  have hwrites : ∀ e ∈ (StyleTree.flattenAll items).flatMap OrderedMap.entries, e.2 ≠ none := by
    intro e he
    obtain ⟨s, hs, hes⟩ := List.mem_flatMap.mp he
    exact h s hs e hes
  have hwritten : ((StyleTree.flattenAll items).flatMap fun s => (merge [.style s]).declarations) =
      ((StyleTree.flattenAll items).flatMap OrderedMap.entries).filterMap declaration? := by
    rw [List.filterMap_flatMap]
    simp only [declarations_merge_single]
  have hmerged : (merge items).declarations =
      (Entries.lastWrites
        ((StyleTree.flattenAll items).flatMap OrderedMap.entries)).filterMap declaration? := by
    rw [declarations, entries_merge]
    rfl
  rw [hwritten, hmerged, lastAffecting_lastWrites hwrites]

end

/-! ## Two spellings and a shorthand -/

/-- The sides that a margin property affects. -/
def sides (name : String) : Set String :=
  fun side => name = "margin" ∨ name = "margin-" ++ side

instance (name side : String) : Decidable (side ∈ sides name) :=
  inferInstanceAs (Decidable (name = "margin" ∨ name = "margin-" ++ side))

def camelMargin : Style :=
  .ofList [("marginLeft", some (.text "1px")), ("margin", some (.text "2px"))]

def dashedMargin : Style :=
  .ofList [("margin-left", some (.text "3px")), ("marginLeft", some (.text "4px"))]

/-- `marginLeft` is moved behind `margin`, and behind its own other spelling. -/
theorem lastAffecting_merge_margins :
    (∀ s ∈ StyleTree.flattenAll [.style camelMargin, .list [.nothing, .style dashedMargin]],
        ∀ e ∈ s.entries, e.2 ≠ none) ∧
      lastAffecting sides "left"
          (merge [.style camelMargin, .list [.nothing, .style dashedMargin]]).declarations =
        some ("margin-left", "4px") ∧
      lastAffecting sides "top"
          (merge [.style camelMargin, .list [.nothing, .style dashedMargin]]).declarations =
        some ("margin", "2px") := by
  have h : ∀ s ∈ StyleTree.flattenAll [.style camelMargin, .list [.nothing, .style dashedMargin]],
      ∀ e ∈ s.entries, e.2 ≠ none := by decide +kernel
  refine ⟨h, ?_, ?_⟩
  · rw [lastAffecting_merge h]
    decide +kernel
  · rw [lastAffecting_merge h]
    decide +kernel

end InlineStyle

end HookStyle
