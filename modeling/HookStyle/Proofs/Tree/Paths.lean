import HookStyle.Proofs.Tree.Leaves

/-!
# Paths in a tree

A tree is read by following keys: a path of keys leads to what stands below it. In a tree whose
branches have each of their keys once, the leaves are exactly what such paths end in, and they
come in the order in which their paths part.

* `mem_leaves_iff`: a leaf is listed when its path leads to it.
* `pairwise_leaves`: of two leaves the one is listed first whose key comes first in the branch
  where their paths part.
* `nodup_paths`: no path is listed twice.
* `base_eq_some_iff`, `base_eq_none_iff`: where the path of defaults ends.
* `Reading`: what layers say about a tree. `reading_layers` has it for every keyed tree.
-/

namespace HookStyle

namespace Tree

/-- What stands at the end of a path of keys. -/
def at? : List String → Tree → Option Tree
  | [], t => some t
  | key :: path, branch children => (children.lookup key).bind (at? path)
  | _ :: _, leaf _ => none

theorem at?_append (p q : List String) (t : Tree) : t.at? (p ++ q) = (t.at? p).bind (at? q) := by
  induction p generalizing t with
  | nil => rfl
  | cons key p ih =>
    cases t with
    | leaf s => rfl
    | branch children =>
      rw [List.cons_append, at?, at?]
      cases children.lookup key with
      | none => rfl
      | some u => exact ih u

theorem keyed_of_at? {t u : Tree} {p : List String} (ht : t.Keyed) (h : t.at? p = some u) :
    u.Keyed := by
  induction p generalizing t with
  | nil => exact Option.some.inj h ▸ ht
  | cons key p ih =>
    cases t with
    | leaf s => cases h
    | branch children =>
      obtain ⟨v, hv, h⟩ := Option.bind_eq_some_iff.mp h
      exact ih (childrenKeyed_iff.mp (keyed_branch.mp ht).2 _ (Entries.mem_of_lookup hv)) h

/-! ## Leaves -/

/-- The leaves of a keyed tree are what its paths lead to. -/
theorem mem_leaves_iff {t : Tree} (ht : t.Keyed) {l : Leaf} :
    l ∈ t.leaves ↔ t.at? l.path = some (leaf l.setting) := by
  induction t using childInduction generalizing l with
  | leaf s =>
    obtain ⟨path, setting⟩ := l
    rw [leaves, List.mem_singleton]
    cases path with
    | nil => simp [at?, eq_comm]
    | cons key path => simp [at?]
  | branch children ih =>
    obtain ⟨hnodup, hchildren⟩ := keyed_branch.mp ht
    rw [leaves, mem_leavesAll]
    constructor
    · rintro ⟨⟨key, u⟩, he, k, hk, rfl⟩
      have hu : u.at? k.path = some (leaf k.setting) :=
        (ih _ he (childrenKeyed_iff.mp hchildren _ he)).mp hk
      rw [Leaf.path_under, Leaf.setting_under, at?, Entries.lookup_of_mem hnodup he]
      exact hu
    · obtain ⟨path, setting⟩ := l
      cases path with
      | nil =>
        intro h
        cases h
      | cons key path =>
        intro h
        obtain ⟨u, hu, h⟩ := Option.bind_eq_some_iff.mp h
        have he := Entries.mem_of_lookup hu
        exact ⟨(key, u), he, ⟨path, setting⟩,
          (ih _ he (childrenKeyed_iff.mp hchildren _ he)).mpr h, rfl⟩

/-! ## Order -/

/-- Where two paths part, the key of the first one comes first in the branch. -/
def Precedes (t : Tree) (p q : List String) : Prop :=
  ∃ common children key p' key' q', t.at? common = some (branch children) ∧
    p = common ++ key :: p' ∧ q = common ++ key' :: q' ∧
      [key, key'].Sublist (Entries.keys children)

theorem not_precedes_self {t : Tree} (ht : t.Keyed) (p : List String) : ¬ t.Precedes p p := by
  rintro ⟨common, children, key, p', key', q', hat, hp, hq, hsublist⟩
  obtain ⟨rfl, -⟩ := List.cons.inj (List.append_cancel_left (hp.symm.trans hq))
  have hnodup := (keyed_branch.mp (keyed_of_at? ht hat)).1.sublist hsublist
  simp at hnodup

theorem Precedes.under {children : List (String × Tree)} {key : String} {t : Tree}
    (hkey : children.lookup key = some t) {p q : List String} (h : t.Precedes p q) :
    (branch children).Precedes (key :: p) (key :: q) := by
  obtain ⟨common, children', k, p', k', q', hat, rfl, rfl, hsublist⟩ := h
  refine ⟨key :: common, children', k, p', k', q', ?_, rfl, rfl, hsublist⟩
  rw [at?, hkey]
  exact hat

/-- The leaves of the children from any place on, in the order of the whole branch. -/
theorem pairwise_leavesAll {children : List (String × Tree)}
    (hnodup : (Entries.keys children).Nodup)
    (ih : ∀ e ∈ children, e.2.leaves.Pairwise fun l k => e.2.Precedes l.path k.path)
    {front rest : List (String × Tree)} (h : children = front ++ rest) :
    (leavesAll rest).Pairwise fun l k => (branch children).Precedes l.path k.path := by
  induction rest generalizing front with
  | nil => exact List.Pairwise.nil
  | cons e rest ihrest =>
    obtain ⟨key, u⟩ := e
    have he : (key, u) ∈ children := h ▸ List.mem_append_right _ List.mem_cons_self
    have hbehind : children = (front ++ [(key, u)]) ++ rest := by
      rw [h, List.append_assoc, List.singleton_append]
    rw [leavesAll, List.pairwise_append, List.pairwise_map]
    refine ⟨?_, ihrest hbehind, ?_⟩
    · refine (ih _ he).imp ?_
      exact Precedes.under (Entries.lookup_of_mem hnodup he)
    · -- a leaf of this child and one of a later child part at once
      intro l hl k hk
      obtain ⟨l, -, rfl⟩ := List.mem_map.mp hl
      obtain ⟨⟨key', u'⟩, he', k, -, rfl⟩ := mem_leavesAll.mp hk
      refine ⟨[], children, key, l.path, key', k.path, rfl, rfl, rfl, ?_⟩
      have hkey' : [key'].Sublist (Entries.keys rest) :=
        List.singleton_sublist.mpr (Entries.mem_keys.mpr ⟨u', he'⟩)
      rw [h, Entries.keys_append, Entries.keys_cons]
      exact (hkey'.cons_cons key).trans (List.sublist_append_right _ _)

/-- Leaves come in the order of their paths. -/
theorem pairwise_leaves {t : Tree} (ht : t.Keyed) :
    t.leaves.Pairwise fun l k => t.Precedes l.path k.path := by
  induction t using childInduction with
  | leaf s => exact List.pairwise_singleton _ _
  | branch children ih =>
    obtain ⟨hnodup, hchildren⟩ := keyed_branch.mp ht
    exact pairwise_leavesAll hnodup
      (fun e he => ih e he (childrenKeyed_iff.mp hchildren e he)) (List.nil_append _).symm

theorem nodup_paths {t : Tree} (ht : t.Keyed) : (t.leaves.map Leaf.path).Nodup := by
  rw [List.Nodup, List.pairwise_map]
  refine (pairwise_leaves ht).imp fun {l k} h heq => ?_
  rw [heq] at h
  exact not_precedes_self ht _ h

/-! ## The path of defaults -/

/-- No key of a path is a hook when all of them are the word `default`. -/
theorem hooks_eq_nil_iff {l : Leaf} :
    l.hooks = [] ↔ ∃ n, l.path = List.replicate n defaultKey := by
  rw [Leaf.hooks, List.filter_eq_nil_iff]
  constructor
  · intro h
    have hdefault : ∀ key ∈ l.path, key = defaultKey := fun key hkey => by simpa using h key hkey
    exact ⟨l.path.length, List.eq_replicate_iff.mpr ⟨rfl, hdefault⟩⟩
  · rintro ⟨n, h⟩ key hkey
    rw [h] at hkey
    simp [List.eq_of_mem_replicate hkey]

theorem base_eq_some_iff {t : Tree} (ht : t.Keyed) {s : Setting} :
    t.layers.base = some s ↔ ∃ n, t.at? (List.replicate n defaultKey) = some (leaf s) := by
  rw [layers_eq, Option.map_eq_some_iff]
  constructor
  · rintro ⟨l, hl, rfl⟩
    obtain ⟨hmem, hhooks⟩ := (defaultLeaf?_eq_some ht).mp hl
    obtain ⟨n, hpath⟩ := hooks_eq_nil_iff.mp hhooks
    exact ⟨n, hpath ▸ (mem_leaves_iff ht).mp hmem⟩
  · rintro ⟨n, h⟩
    have hmem : ⟨List.replicate n defaultKey, s⟩ ∈ t.leaves := (mem_leaves_iff ht).mpr h
    exact ⟨_, (defaultLeaf?_eq_some ht).mpr ⟨hmem, hooks_eq_nil_iff.mpr ⟨n, rfl⟩⟩, rfl⟩

/-- The path of defaults ends in a branch without that key. -/
theorem at?_default_eq_none {children : List (String × Tree)} :
    (branch children).at? [defaultKey] = none ↔ defaultKey ∉ Entries.keys children := by
  rw [at?, ← Entries.lookup_isSome, Option.not_isSome_iff_eq_none]
  cases children.lookup defaultKey with
  | none => simp
  | some u => simp [at?]

/-- The path of defaults ends somewhere. -/
theorem exists_end (t : Tree) :
    ∃ n u, t.at? (List.replicate n defaultKey) = some u ∧ u.at? [defaultKey] = none := by
  induction t using childInduction with
  | leaf s => exact ⟨0, leaf s, rfl, rfl⟩
  | branch children ih =>
    cases h : children.lookup defaultKey with
    | none => exact ⟨0, branch children, rfl, by rw [at?, h]; rfl⟩
    | some v =>
      obtain ⟨n, u, hu, hend⟩ := ih _ (Entries.mem_of_lookup h)
      refine ⟨n + 1, u, ?_, hend⟩
      rw [List.replicate_succ, at?, h]
      exact hu

theorem le_of_end {t u v : Tree} {m n : Nat} (hu : t.at? (List.replicate m defaultKey) = some u)
    (hend : u.at? [defaultKey] = none) (hv : t.at? (List.replicate n defaultKey) = some v) :
    n ≤ m := by
  by_contra hlt
  obtain ⟨k, rfl⟩ := Nat.exists_eq_add_of_lt (Nat.lt_of_not_le hlt)
  have hsplit : List.replicate (m + k + 1) defaultKey =
      List.replicate m defaultKey ++ ([defaultKey] ++ List.replicate k defaultKey) := by
    rw [List.singleton_append, ← List.replicate_succ, List.replicate_append_replicate,
      Nat.add_assoc]
  rw [hsplit, at?_append, hu, Option.bind_some, at?_append, hend] at hv
  cases hv

/-- There is no base exactly when following `default` ends at a branch without it. -/
theorem base_eq_none_iff {t : Tree} (ht : t.Keyed) :
    t.layers.base = none ↔ ∃ n children,
      t.at? (List.replicate n defaultKey) = some (branch children) ∧
        defaultKey ∉ Entries.keys children := by
  constructor
  · intro h
    obtain ⟨n, u, hu, hend⟩ := t.exists_end
    cases u with
    | leaf s =>
      rw [(base_eq_some_iff ht).mpr ⟨n, hu⟩] at h
      cases h
    | branch children => exact ⟨n, children, hu, at?_default_eq_none.mp hend⟩
  · rintro ⟨n, children, hn, hkeys⟩
    rw [Option.eq_none_iff_forall_ne_some]
    intro s hs
    obtain ⟨m, hm⟩ := (base_eq_some_iff ht).mp hs
    have hend := at?_default_eq_none.mpr hkeys
    -- both places end the path of defaults, so they are one place
    obtain rfl : m = n := Nat.le_antisymm (le_of_end hn hend hm) (le_of_end hm rfl hn)
    rw [hm] at hn
    cases hn

/-! ## Reading a tree -/

/-- Layers that say what a tree says. The leaves are given by the paths that lead to them, in
the order of the keys. Those with a hook on their path make the overrides, each under the hooks
of its path from the outermost inwards, and the one that has none is the base. -/
structure Reading (t : Tree) (leaves : List Leaf) (layers : Layers) : Prop where
  complete : ∀ l, l ∈ leaves ↔ t.at? l.path = some (leaf l.setting)
  once : (leaves.map Leaf.path).Nodup
  ordered : leaves.Pairwise fun l k => t.Precedes l.path k.path
  overrides : layers.overrides =
    (leaves.filter fun l => l.path.any (· ≠ defaultKey)).map fun l =>
      ⟨l.path.filter (· ≠ defaultKey), l.setting⟩
  conditional : ∀ o ∈ layers.overrides, o.hooks ≠ []
  base : ∀ s, layers.base = some s ↔ ∃ n, t.at? (List.replicate n defaultKey) = some (leaf s)
  baseless : layers.base = none ↔ ∃ n children,
    t.at? (List.replicate n defaultKey) = some (branch children) ∧
      defaultKey ∉ Entries.keys children

theorem hooks_ne_nil_of_mem_overrides {t : Tree} {o : Override} (h : o ∈ t.layers.overrides) :
    o.hooks ≠ [] := by
  rw [layers_eq] at h
  obtain ⟨l, hl, rfl⟩ := List.mem_map.mp h
  simpa using (List.mem_filter.mp hl).2

theorem isEmpty_hooks (l : Leaf) : (!l.hooks.isEmpty) = l.path.any (· ≠ defaultKey) := by
  rw [Bool.eq_iff_iff]
  simp [Leaf.hooks]

theorem reading_layers {t : Tree} (ht : t.Keyed) : t.Reading t.leaves t.layers where
  complete _ := mem_leaves_iff ht
  once := nodup_paths ht
  ordered := pairwise_leaves ht
  overrides := by
    rw [layers_eq, hookLeaves]
    simp only [isEmpty_hooks]
    rfl
  conditional _ := hooks_ne_nil_of_mem_overrides
  base _ := base_eq_some_iff ht
  baseless := base_eq_none_iff ht

end Tree

end HookStyle
