import HookStyle.OrderedMap.Basic
import Mathlib.Data.List.Nodup

/-!
# Maps from entries

A map that is made of entries with different keys has these entries, in their order.

* `entries_ofList`: entries with different keys are kept as they are.
* `get?_insertAll`: the look-up among entries that are set over a map.
* `lookup_map_key`: the look-up of a key under another name.
* `entries_foldl_insertNew`: of entries that are set unless their key is present, the first
  write of every key is kept, behind those of the keys before it.
-/

namespace HookStyle

namespace Entries

variable {α : Type} {es : List (String × α)} {f : String → String}

theorem keys_map_key (f : String → String) (es : List (String × α)) :
    keys (es.map fun e => (f e.1, e.2)) = (keys es).map f := by
  simp [keys]

theorem lookup_map_key {key : String} (hf : ∀ k ∈ keys es, f k = f key → k = key) :
    (es.map fun e => (f e.1, e.2)).lookup (f key) = es.lookup key := by
  induction es with
  | nil => rfl
  | cons e es ih =>
    rw [List.map_cons, lookup_cons, lookup_cons,
      ih fun k hk => hf k (List.mem_cons_of_mem _ hk)]
    by_cases h : key = e.1
    · rw [if_pos h, if_pos (congrArg f h)]
    · rw [if_neg h, if_neg fun he => h (hf e.1 List.mem_cons_self he.symm).symm]

theorem keys_filter (p : String → Bool) (es : List (String × α)) :
    keys (es.filter fun e => p e.1) = (keys es).filter p := by
  simp [keys, List.filter_map, Function.comp_def]

/-! ## First writes -/

/-- The entries whose key has not come before them. -/
def firstWrites : List (String × α) → List (String × α)
  | [] => []
  | e :: es => e :: erase e.1 (firstWrites es)

/-- Every key that is written has a first write. -/
theorem mem_keys_firstWrites {key : String} : key ∈ keys (firstWrites es) ↔ key ∈ keys es := by
  induction es with
  | nil => rfl
  | cons e es ih =>
    rw [firstWrites, keys_cons, keys_cons, keys_erase, List.mem_cons, List.mem_cons,
      List.mem_filter, ih, decide_eq_true_eq]
    by_cases h : key = e.1
    · simp [h]
    · simp [h]

theorem firstWrites_of_nodup (h : (keys es).Nodup) : firstWrites es = es := by
  induction es with
  | nil => rfl
  | cons e es ih =>
    rw [keys_cons, List.nodup_cons] at h
    rw [firstWrites, ih h.2, erase, List.filter_eq_self.mpr]
    intro d hd
    refine decide_eq_true ?_
    rintro hk
    exact h.1 (hk ▸ List.mem_map_of_mem hd)

/-- Later writes count only for new keys. -/
theorem firstWrites_append (es fs : List (String × α)) : firstWrites (es ++ fs) =
    firstWrites es ++ (firstWrites fs).filter fun e => e.1 ∉ keys es := by
  induction es with
  | nil => simp [firstWrites]
  | cons e es ih =>
    rw [List.cons_append, firstWrites, firstWrites, ih, erase, List.filter_append,
      List.filter_filter, erase, List.cons_append]
    congr 2
    refine List.filter_congr fun f _ => ?_
    simp

theorem mem_of_mem_firstWrites {e : String × α} (h : e ∈ firstWrites es) : e ∈ es := by
  induction es with
  | nil => exact h
  | cons d es ih =>
    rw [firstWrites, List.mem_cons, erase, List.mem_filter] at h
    exact List.mem_cons.mpr (h.imp_right fun h => ih h.1)

theorem nodup_keys_firstWrites (es : List (String × α)) : (keys (firstWrites es)).Nodup := by
  induction es with
  | nil => exact List.nodup_nil
  | cons e es ih =>
    rw [firstWrites, keys_cons, List.nodup_cons]
    refine ⟨?_, nodup_erase ih⟩
    rw [keys_erase, List.mem_filter]
    simp

/-- A front may be cut down to its first writes. -/
theorem firstWrites_firstWrites_append (es fs : List (String × α)) :
    firstWrites (firstWrites es ++ fs) = firstWrites (es ++ fs) := by
  rw [firstWrites_append, firstWrites_append, firstWrites_of_nodup (nodup_keys_firstWrites es)]
  congr 1
  refine List.filter_congr fun e _ => ?_
  simp only [mem_keys_firstWrites]

/-- Pieces may be cut down to their first writes before they are put together. -/
theorem firstWrites_flatMap {β : Type} (f : β → List (String × α)) (bs : List β) :
    firstWrites (bs.flatMap fun b => firstWrites (f b)) = firstWrites (bs.flatMap f) := by
  induction bs with
  | nil => rfl
  | cons b bs ih =>
    rw [List.flatMap_cons, List.flatMap_cons, firstWrites_firstWrites_append, firstWrites_append,
      ih, ← firstWrites_append]

/-- New entries stand together behind the first writes before them, and every other key that
comes later stands behind them. -/
theorem exists_firstWrites_append {fs : List (String × α)} (hnodup : (keys fs).Nodup)
    (hnew : ∀ key ∈ keys fs, key ∉ keys es) (gs : List (String × α)) :
    ∃ hs, firstWrites (es ++ (fs ++ gs)) = firstWrites es ++ (fs ++ hs) ∧
      ∀ key ∈ keys gs, key ∉ keys es → key ∉ keys fs → key ∈ keys hs := by
  refine ⟨((firstWrites gs).filter fun e => e.1 ∉ keys fs).filter fun e => e.1 ∉ keys es, ?_, ?_⟩
  · rw [firstWrites_append, firstWrites_append, firstWrites_of_nodup hnodup, List.filter_append,
      List.filter_eq_self.mpr fun e he => decide_eq_true (hnew e.1 (List.mem_map_of_mem he))]
  · intro key hkey hes hfs
    obtain ⟨value, hmem⟩ := mem_keys.mp (mem_keys_firstWrites.mpr hkey)
    refine mem_keys.mpr ⟨value, ?_⟩
    exact List.mem_filter.mpr ⟨List.mem_filter.mpr ⟨hmem, decide_eq_true hfs⟩, decide_eq_true hes⟩

/-- A test of the keys may come before or behind. -/
theorem filter_firstWrites (p : String → Bool) (es : List (String × α)) :
    (firstWrites es).filter (fun e => p e.1) = firstWrites (es.filter fun e => p e.1) := by
  induction es with
  | nil => rfl
  | cons e es ih =>
    have hcomm : (erase e.1 (firstWrites es)).filter (fun d => p d.1) =
        erase e.1 (firstWrites (es.filter fun d => p d.1)) := by
      rw [← ih, erase, erase, List.filter_filter, List.filter_filter]
      exact List.filter_congr fun d _ => Bool.and_comm _ _
    rw [firstWrites]
    by_cases hp : p e.1 = true
    · rw [List.filter_cons, if_pos hp, List.filter_cons, if_pos hp, firstWrites, hcomm]
    · rw [List.filter_cons, if_neg hp, List.filter_cons, if_neg hp, hcomm, ← ih, erase,
        List.filter_eq_self.mpr]
      intro d hd
      refine decide_eq_true ?_
      intro hk
      exact hp (hk ▸ (List.mem_filter.mp hd).2)

/-- What stands before an entry are the first writes of the entries before its own. -/
theorem exists_of_firstWrites_eq_append {front back : List (String × α)} {e : String × α}
    (h : firstWrites es = front ++ e :: back) :
    ∃ before after, es = before ++ e :: after ∧ front = firstWrites before := by
  induction es generalizing front back with
  | nil => cases front <;> cases h
  | cons d es ih =>
    rw [firstWrites] at h
    cases front with
    | nil =>
      obtain ⟨rfl, -⟩ := List.cons.inj h
      exact ⟨[], es, rfl, rfl⟩
    | cons c front =>
      obtain ⟨rfl, hkept⟩ := List.cons.inj (h.trans (List.cons_append ..))
      -- erasing the key of `d` kept `e`, so `e` is a first write of the rest
      rw [erase] at hkept
      obtain ⟨front', rest, hes, rfl, hrest⟩ := List.filter_eq_append_iff.mp hkept
      obtain ⟨erased, back', rfl, herased, -, -⟩ := List.filter_eq_cons_iff.mp hrest
      rw [← List.append_assoc] at hes
      obtain ⟨before, after, rfl, hfront⟩ := ih hes
      refine ⟨d :: before, after, rfl, ?_⟩
      rw [firstWrites, ← hfront, erase, List.filter_append, List.filter_eq_nil_iff.mpr herased,
        List.append_nil]

end Entries

namespace OrderedMap

variable {α : Type}

theorem entries_insert_of_not_mem {m : OrderedMap α} {key : String} (h : key ∉ m.keys)
    (value : α) : (m.insert key value).entries = m.entries ++ [(key, value)] := by
  obtain ⟨es, hnodup⟩ := m
  change key ∉ Entries.keys es at h
  change Entries.insert key value es = es ++ [(key, value)]
  clear hnodup
  induction es with
  | nil => rfl
  | cons e es ih =>
    rw [Entries.keys_cons, List.mem_cons, not_or] at h
    rw [Entries.insert, if_neg (Ne.symm h.1), ih h.2, List.cons_append]

/-- Setting entries unless their key is present keeps what was there, and the first writes
of the other keys behind it. -/
theorem entries_foldl_insertNew (es : List (String × α)) (m : OrderedMap α) :
    (es.foldl (fun acc e => acc.insertNew e.1 e.2) m).entries =
      m.entries ++ (Entries.firstWrites es).filter fun e => e.1 ∉ m.keys := by
  induction es generalizing m with
  | nil => simp [Entries.firstWrites]
  | cons e es ih =>
    rw [List.foldl_cons, ih, Entries.firstWrites]
    by_cases h : e.1 ∈ m.keys
    · rw [insertNew, if_pos (contains_iff.mpr h), List.filter_cons_of_neg (by simpa using h),
        Entries.erase, List.filter_filter]
      congr 1
      refine List.filter_congr fun f _ => ?_
      by_cases hf : f.1 = e.1
      · simp [hf, h]
      · simp [hf]
    · rw [insertNew, if_neg (by rwa [contains_iff]), entries_insert_of_not_mem h, keys_insert,
        if_neg h, List.filter_cons_of_pos (by simpa using h), Entries.erase, List.filter_filter,
        List.append_assoc, List.singleton_append]
      congr 2
      refine List.filter_congr fun f _ => ?_
      simp

theorem mem_keys_foldl_insertNew {es : List (String × α)} {m : OrderedMap α} {key : String} :
    key ∈ (es.foldl (fun acc e => acc.insertNew e.1 e.2) m).keys ↔
      key ∈ m.keys ∨ key ∈ Entries.keys es := by
  have hkeys := Entries.keys_filter (fun k => k ∉ m.keys) (Entries.firstWrites es)
  rw [keys, entries_foldl_insertNew, Entries.keys_append, hkeys, List.mem_append, List.mem_filter,
    Entries.mem_keys_firstWrites, decide_eq_true_eq]
  change key ∈ m.keys ∨ key ∈ Entries.keys es ∧ key ∉ m.keys ↔ _
  tauto

theorem insertAll_append (m : OrderedMap α) (es fs : List (String × α)) :
    m.insertAll (es ++ fs) = (m.insertAll es).insertAll fs := List.foldl_append

/-- Entries with new keys are appended in their order. -/
theorem entries_insertAll_of_nodup {m : OrderedMap α} {es : List (String × α)}
    (h : (m.keys ++ Entries.keys es).Nodup) : (m.insertAll es).entries = m.entries ++ es := by
  induction es generalizing m with
  | nil => simp [insertAll]
  | cons e es ih =>
    have hnew : e.1 ∉ m.keys := fun hm =>
      List.disjoint_of_nodup_append h hm List.mem_cons_self
    have hentries := entries_insert_of_not_mem hnew e.2
    have hkeys : (m.insert e.1 e.2).keys = m.keys ++ [e.1] := by
      rw [keys_insert, if_neg hnew]
    have hstep := ih (m := m.insert e.1 e.2) (by
      rw [hkeys, List.append_assoc]
      exact h)
    change ((m.insert e.1 e.2).insertAll es).entries = _
    rw [hstep, hentries, List.append_assoc]
    rfl

theorem entries_ofList {es : List (String × α)} (h : (Entries.keys es).Nodup) :
    (ofList es).entries = es := entries_insertAll_of_nodup (m := empty) h

theorem insert_of_mem {m : OrderedMap α} {e : String × α} (h : e ∈ m.entries) :
    m.insert e.1 e.2 = m := by
  obtain ⟨es, hnodup⟩ := m
  apply ext
  change Entries.insert e.1 e.2 es = es
  induction es with
  | nil => cases h
  | cons d es ih =>
    rw [Entries.keys_cons, List.nodup_cons] at hnodup
    rw [Entries.insert]
    rcases List.mem_cons.mp h with rfl | h
    · rw [if_pos rfl]
    · have hne : d.1 ≠ e.1 := fun hkey => hnodup.1 (hkey ▸ List.mem_map_of_mem h)
      rw [if_neg hne, ih hnodup.2 h]

/-- Entries of which those with one key are the same leave their first writes. -/
theorem entries_ofList_of_consistent {es : List (String × α)}
    (h : ∀ e ∈ es, ∀ d ∈ es, e.1 = d.1 → e = d) :
    (ofList es).entries = Entries.firstWrites es := by
  suffices hrun : ∀ (fs : List (String × α)) (m : OrderedMap α), (∀ e ∈ m.entries, e ∈ es) →
      (∀ e ∈ fs, e ∈ es) → m.insertAll fs = fs.foldl (fun acc e => acc.insertNew e.1 e.2) m by
    have hfold := hrun es empty (fun _ he => absurd he List.not_mem_nil) fun _ he => he
    rw [ofList, hfold, entries_foldl_insertNew]
    exact List.filter_eq_self.mpr fun _ _ => rfl
  intro fs
  induction fs with
  | nil => exact fun _ _ _ => rfl
  | cons e fs ih =>
    intro m hm hfs
    have he : e ∈ es := hfs e List.mem_cons_self
    have hrest : ∀ d ∈ fs, d ∈ es := fun d hd => hfs d (List.mem_cons_of_mem _ hd)
    change (m.insert e.1 e.2).insertAll fs = fs.foldl _ (m.insertNew e.1 e.2)
    rw [insertNew]
    split
    next hold =>
      -- what is there under the key is the same entry
      obtain ⟨value, hmem⟩ := Entries.mem_keys.mp (contains_iff.mp hold)
      have hsame : (e.1, value) = e := h _ (hm _ hmem) e he rfl
      rw [insert_of_mem (hsame ▸ hmem)]
      exact ih m hm hrest
    next hnew =>
      refine ih _ (fun d hd => ?_) hrest
      rw [entries_insert_of_not_mem (mt contains_iff.mpr hnew), List.mem_append,
        List.mem_singleton] at hd
      rcases hd with hd | rfl
      · exact hm d hd
      · exact he

/-- Entries inserted later win over those that were there. -/
theorem get?_insertAll {es : List (String × α)} (h : (Entries.keys es).Nodup)
    (m : OrderedMap α) (key : String) :
    (m.insertAll es).get? key = (es.lookup key).or (m.get? key) := by
  induction es generalizing m with
  | nil => rfl
  | cons e es ih =>
    rw [Entries.keys_cons, List.nodup_cons] at h
    change ((m.insert e.1 e.2).insertAll es).get? key = _
    rw [ih h.2, get?_insert, Entries.lookup_cons]
    split
    next hk =>
      have hnone : es.lookup key = none := by
        rw [← Option.not_isSome_iff_eq_none, Entries.lookup_isSome, hk]
        exact h.1
      rw [hnone]
      rfl
    next => rfl

theorem get?_single (key : String) (value : α) : (single key value).get? key = some value := by
  simp [get?, single]

end OrderedMap

end HookStyle
