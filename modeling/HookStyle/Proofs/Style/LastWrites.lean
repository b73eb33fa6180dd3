import HookStyle.Proofs.OrderedMap.Entries
import HookStyle.Style.Merge

/-!
# Last writes

Merging writes the entries of all styles one after the other, and every write moves its key to
the end. What is left are the last writes: every key stands once, with its last setting, and
where it was last written. A cleared setting is a write like any other.

* `lastWrites_eq_filter`: an entry is kept when its key does not come again behind it.
* `lastWrites_append`: the last writes of a front give way to the keys that come behind it.
* `entries_foldl_write`, `entries_merge`: a merged style consists of the last writes of its
  styles.
* `merge_keeps_lastWrites`: only the order of the writes counts, and a front of them may be
  merged first.
-/

namespace HookStyle

namespace Entries

variable {α : Type} {es fs : List (String × α)}

/-- The entries whose key does not come again behind them. -/
def lastWrites : List (String × α) → List (String × α)
  | [] => []
  | e :: es => if e.1 ∈ keys es then lastWrites es else e :: lastWrites es

theorem lastWrites_of_nodup (h : (keys es).Nodup) : lastWrites es = es := by
  induction es with
  | nil => rfl
  | cons e es ih =>
    rw [keys_cons, List.nodup_cons] at h
    rw [lastWrites, if_neg h.1, ih h.2]

theorem mem_keys_lastWrites {key : String} : key ∈ keys (lastWrites es) ↔ key ∈ keys es := by
  induction es with
  | nil => rfl
  | cons e es ih =>
    rw [lastWrites, keys_cons, List.mem_cons]
    split
    next h =>
      rw [ih]
      constructor
      · exact Or.inr
      · rintro (rfl | hkey)
        · exact h
        · exact hkey
    next => rw [keys_cons, List.mem_cons, ih]

theorem nodup_keys_lastWrites (es : List (String × α)) : (keys (lastWrites es)).Nodup := by
  induction es with
  | nil => exact List.nodup_nil
  | cons e es ih =>
    rw [lastWrites]
    split
    next => exact ih
    next h => exact List.nodup_cons.mpr ⟨mt mem_keys_lastWrites.mp h, ih⟩

/-- Earlier writes count only for keys that are not written later. -/
theorem lastWrites_append (es fs : List (String × α)) :
    lastWrites (es ++ fs) = (lastWrites es).filter (fun e => e.1 ∉ keys fs) ++ lastWrites fs := by
  induction es with
  | nil => rfl
  | cons e es ih =>
    rw [List.cons_append, lastWrites, lastWrites, keys_append, ih]
    by_cases hes : e.1 ∈ keys es
    · rw [if_pos (List.mem_append_left _ hes), if_pos hes]
    · by_cases hfs : e.1 ∈ keys fs
      · rw [if_pos (List.mem_append_right _ hfs), if_neg hes,
          List.filter_cons_of_neg (by simpa using hfs)]
      · have hneither : e.1 ∉ keys es ++ keys fs := by simp [hes, hfs]
        rw [if_neg hneither, if_neg hes, List.filter_cons_of_pos (by simpa using hfs),
          List.cons_append]

/-- A front may be cut down to its last writes first. -/
theorem lastWrites_lastWrites_append (es fs : List (String × α)) :
    lastWrites (lastWrites es ++ fs) = lastWrites (es ++ fs) := by
  rw [lastWrites_append, lastWrites_append, lastWrites_of_nodup (nodup_keys_lastWrites es)]

/-- The places of `es` behind `front`, with what comes after each of them. -/
theorem lastWrites_behind (front es : List (String × α)) :
    lastWrites es =
      ((es.zipIdx front.length).filter fun w => w.1.1 ∉ keys ((front ++ es).drop (w.2 + 1))).map
        Prod.fst := by
  induction es generalizing front with
  | nil => rfl
  | cons e es ih =>
    have hbehind : (front ++ e :: es).drop (front.length + 1) = es := by
      rw [← List.drop_drop, List.drop_left, List.drop_one, List.tail_cons]
    have hfront := ih (front ++ [e])
    rw [List.length_append, List.length_singleton, List.append_assoc, List.singleton_append]
      at hfront
    rw [lastWrites, List.zipIdx_cons]
    by_cases h : e.1 ∈ keys es
    · rw [if_pos h, List.filter_cons_of_neg (by simpa [hbehind] using h), ← hfront]
    · rw [if_neg h, List.filter_cons_of_pos (by simpa [hbehind] using h), List.map_cons, ← hfront]

/-- The entries at the places behind which their key does not come again. -/
theorem lastWrites_eq_filter (es : List (String × α)) :
    lastWrites es =
      (es.zipIdx.filter fun w => w.1.1 ∉ keys (es.drop (w.2 + 1))).map Prod.fst :=
  lastWrites_behind [] es

end Entries

theorem OrderedMap.entries_setLast {α : Type} (m : OrderedMap α) (key : String) (value : α) :
    (m.setLast key value).entries = Entries.erase key m.entries ++ [(key, value)] := by
  have hnew : key ∉ (m.erase key).keys := by
    rw [keys_erase]
    simp
  exact entries_insert_of_not_mem hnew value

namespace StyleTree

theorem flattenAll_eq_flatMap (items : List StyleTree) :
    flattenAll items = items.flatMap flatten := by
  induction items with
  | nil => rfl
  | cons item items ih => rw [flattenAll, ih, List.flatMap_cons]

theorem flattenAll_map_style (styles : List Style) : flattenAll (styles.map style) = styles := by
  rw [flattenAll_eq_flatMap, List.flatMap_map]
  exact List.flatMap_singleton' styles

end StyleTree

namespace InlineStyle

/-- Writing entries one by one removes their keys from what was there, and leaves the last
writes behind it. -/
theorem entries_foldl_write (es : List (String × Setting)) (inline : InlineStyle) :
    (es.foldl write inline).entries =
      inline.entries.filter (fun e => e.1 ∉ Entries.keys es) ++ Entries.lastWrites es := by
  induction es generalizing inline with
  | nil => simp [Entries.lastWrites]
  | cons e es ih =>
    have hkept : (Entries.erase e.1 inline.entries).filter (fun f => f.1 ∉ Entries.keys es) =
        inline.entries.filter (fun f => f.1 ∉ Entries.keys (e :: es)) := by
      rw [Entries.erase, List.filter_filter]
      refine List.filter_congr fun f _ => ?_
      simp [Bool.and_comm]
    rw [List.foldl_cons, ih, write, OrderedMap.entries_setLast, List.filter_append, hkept,
      List.append_assoc, Entries.lastWrites]
    by_cases h : e.1 ∈ Entries.keys es
    · simp [h]
    · simp [h]

theorem foldl_apply (styles : List Style) (inline : InlineStyle) :
    styles.foldl apply inline = (styles.flatMap OrderedMap.entries).foldl write inline := by
  rw [List.foldl_flatMap]
  rfl

/-- A merged style has the last writes of all its items, in that order. -/
theorem entries_merge (items : List StyleTree) :
    (merge items).entries =
      Entries.lastWrites ((StyleTree.flattenAll items).flatMap OrderedMap.entries) := by
  rw [merge_flatten, foldl_apply, entries_foldl_write]
  rfl

theorem entries_merge_single (s : Style) : (merge [.style s]).entries = s.entries := by
  rw [entries_merge]
  change Entries.lastWrites (s.entries ++ []) = s.entries
  rw [List.append_nil, Entries.lastWrites_of_nodup s.keys_nodup]

/-- The last writes of a front may be merged before anything comes behind them. -/
theorem entries_merge_append (front back : List StyleTree) :
    (merge (front ++ back)).entries =
      Entries.lastWrites ((merge front).entries ++
        (StyleTree.flattenAll back).flatMap OrderedMap.entries) := by
  rw [entries_merge, entries_merge, Entries.lastWrites_lastWrites_append,
    StyleTree.flattenAll_eq_flatMap, List.flatMap_append, List.flatMap_append,
    StyleTree.flattenAll_eq_flatMap, StyleTree.flattenAll_eq_flatMap]

/-- The last style stands at the end, and what is left of the others in front of it. -/
theorem entries_merge_of_last {items : List StyleTree} {front : List Style} {s : Style}
    (h : StyleTree.flattenAll items = front ++ [s]) :
    (merge items).entries =
      (merge (front.map .style)).entries.filter (fun e => e.1 ∉ s.keys) ++ s.entries := by
  have hlast : [s].flatMap OrderedMap.entries = s.entries := List.append_nil _
  rw [entries_merge, entries_merge, h, StyleTree.flattenAll_map_style, List.flatMap_append, hlast,
    Entries.lastWrites_append, Entries.lastWrites_of_nodup s.keys_nodup]
  rfl

/-- The entries of all styles of a merge, one after the other. -/
def writes (items : List StyleTree) : List (String × Setting) :=
  (StyleTree.flattenAll items).flatMap OrderedMap.entries

/-- A merged style has every key once, as it was last written and where. So nothing counts but
the styles in their order, the last style stands at the end as it is, and the styles in front
may be merged into one. -/
theorem merge_keeps_lastWrites (items : List StyleTree) :
    (merge items).entries =
        ((writes items).zipIdx.filter fun w =>
          w.1.1 ∉ Entries.keys ((writes items).drop (w.2 + 1))).map Prod.fst ∧
      (∀ others, StyleTree.flattenAll others = StyleTree.flattenAll items →
        merge others = merge items) ∧
      (∀ front s, StyleTree.flattenAll items = front ++ [s] →
        (merge items).entries =
          (merge (front.map .style)).entries.filter (fun e => e.1 ∉ s.keys) ++ s.entries) ∧
      ∀ front back, items = front ++ back →
        merge (.style (merge front) :: back) = merge items := by
  refine ⟨?_, fun others h => ?_, fun front s => entries_merge_of_last, ?_⟩
  · rw [entries_merge, Entries.lastWrites_eq_filter]
    rfl
  · rw [merge_flatten, merge_flatten, h]
  · rintro front back rfl
    refine OrderedMap.ext ?_
    rw [← List.singleton_append, entries_merge_append, entries_merge_single, entries_merge_append]

/-! ## A cleared property, and a list in a list -/

def plain : Style := .ofList [("margin", some (.text "1px")), ("color", some (.text "red"))]

def clearing : Style := .ofList [("color", none), ("width", some (.text "2px"))]

def wide : Style := .ofList [("width", some (.text "3px")), ("margin", some (.text "4px"))]

/-- The colour stays cleared, the margin comes behind it, and the width stands in the middle. -/
theorem merge_clearing_wide :
    let front : List StyleTree := [.style plain, .list [.nothing, .list [.style clearing]]]
    let merged := merge (front ++ [.style wide])
    merged.entries =
        [("color", none), ("width", some (.text "3px")), ("margin", some (.text "4px"))] ∧
      merged.entries =
        (merge [.style plain, .style clearing]).entries.filter (fun e => e.1 ∉ wide.keys)
          ++ wide.entries ∧
      merge [.list [.style plain, .style clearing], .style wide] = merged ∧
      merge [.style (merge front), .style wide] = merged := by
  intro front merged
  obtain ⟨hentries, hothers, hlast, hfront⟩ := merge_keeps_lastWrites (front ++ [.style wide])
  refine ⟨?_, hlast [plain, clearing] wide rfl, hothers _ rfl, hfront front [.style wide] rfl⟩
  rw [hentries]
  decide +kernel

end InlineStyle

end HookStyle
