import HookStyle.Proofs.Tree.Meaning

/-!
# Defaults among hooks

The base of a branch is meant for the states in which no hook of the branch applies. The
layers of a tree take it for one more setting at its place among the keys, so that a base
written behind a hook is shown although the hook applies, unless the base stands under no
hook at all.

* `chosen`: the leaf by the rule that a base only serves when no hook does.
* `selected_eq_chosen_iff`: a tree shows the leaf of the rule exactly in the states in which
  every branch on the way to it has no competing base behind the hook that is taken.
* `defaultsYield_of_defaultsFirst`: this holds in every state when bases are written first.
-/

namespace HookStyle

open Css Evaluation

/-- A leaf that applies, and does not have to wait until no other leaf does: below a hook
that is taken this is any leaf, elsewhere a leaf under hooks. -/
def Leaf.competes (active : String → Bool) (below : Bool) (l : Leaf) : Bool :=
  l.applies active && (below || !l.hooks.isEmpty)

namespace Tree

mutual

/-- The leaf of a tree by the rule that the base of a branch serves only when no hook of
the branch is active and leads to a leaf. Among the hooks the last one is taken. -/
def chosen (active : String → Bool) : Tree → Option Leaf
  | leaf s => some ⟨[], s⟩
  | branch children => (chosenByHook active children).or (chosenByDefault active children)

/-- The leaf that the last active hook with a leaf leads to. -/
def chosenByHook (active : String → Bool) : List (String × Tree) → Option Leaf
  | [] => none
  | (key, t) :: rest =>
    (chosenByHook active rest).or
      (if key ≠ defaultKey ∧ active key = true then (t.chosen active).map (Leaf.under key)
        else none)

/-- The leaf that the base leads to. -/
def chosenByDefault (active : String → Bool) : List (String × Tree) → Option Leaf
  | [] => none
  | (key, t) :: rest =>
    if key = defaultKey then (t.chosen active).map (Leaf.under key)
    else chosenByDefault active rest

end

/-- Whether a base among the children has a leaf that competes. -/
def baseCompetes (active : String → Bool) (below : Bool) (children : List (String × Tree)) : Bool :=
  children.any fun e => e.1 = defaultKey && e.2.leaves.any (Leaf.competes active below)

mutual

/-- Whether, in every branch on the way to the chosen leaf, no base behind the hook that is
taken has a leaf that competes. -/
def defaultsYield (active : String → Bool) (below : Bool) : Tree → Bool
  | leaf _ => true
  | branch children =>
    if (chosenByHook active children).isSome then yieldToHook active below children
    else yieldByDefault active below children

/-- The same for the children of a branch in which a hook is taken. -/
def yieldToHook (active : String → Bool) (below : Bool) : List (String × Tree) → Bool
  | [] => true
  | (_, t) :: rest =>
    if (chosenByHook active rest).isSome then yieldToHook active below rest
    else t.defaultsYield active true && !baseCompetes active below rest

/-- The same for the children of a branch in which the base is taken. -/
def yieldByDefault (active : String → Bool) (below : Bool) : List (String × Tree) → Bool
  | [] => true
  | (key, t) :: rest =>
    if key = defaultKey then t.defaultsYield active below else yieldByDefault active below rest

end

/-! ## The last leaf that competes -/

def lastOf (active : String → Bool) (below : Bool) (ls : List Leaf) : Option Leaf :=
  (ls.filter (Leaf.competes active below)).getLast?

/-- The leaf that some leaves show. -/
def pick (active : String → Bool) (below : Bool) (ls : List Leaf) : Option Leaf :=
  (lastOf active below ls).or (defaultOf ls)

variable {active : String → Bool} {below : Bool}

theorem competes_under_default (l : Leaf) :
    (l.under defaultKey).competes active below = l.competes active below := by
  rw [Leaf.competes, Leaf.competes, Leaf.applies, Leaf.applies, Leaf.hooks_under_default]

theorem competes_under_hook {key : String} (h : key ≠ defaultKey) (l : Leaf) :
    (l.under key).competes active below = (active key && l.competes active true) := by
  rw [Leaf.competes, Leaf.competes, Leaf.applies, Leaf.applies, Leaf.hooks_under h]
  simp

theorem lastOf_append (ls ks : List Leaf) : lastOf active below (ls ++ ks) =
    (lastOf active below ks).or (lastOf active below ls) := by
  rw [lastOf, List.filter_append, List.getLast?_append]
  rfl

theorem lastOf_eq_none {ls : List Leaf} : lastOf active below ls = none ↔
    ∀ l ∈ ls, l.competes active below = false := by
  rw [lastOf, List.getLast?_eq_none_iff, List.filter_eq_nil_iff]
  simp

theorem lastOf_eq_some {ls : List Leaf} {l : Leaf} (h : lastOf active below ls = some l) :
    l ∈ ls ∧ l.competes active below = true :=
  List.mem_filter.mp (List.mem_of_getLast? h)

theorem lastOf_under_default (ls : List Leaf) :
    lastOf active below (ls.map (Leaf.under defaultKey)) =
      (lastOf active below ls).map (Leaf.under defaultKey) := by
  rw [lastOf, List.filter_map, List.getLast?_map, lastOf]
  simp only [Function.comp_def, competes_under_default]

theorem lastOf_under_hook {key : String} (h : key ≠ defaultKey) (ls : List Leaf) :
    lastOf active below (ls.map (Leaf.under key)) =
      if active key = true then (lastOf active true ls).map (Leaf.under key) else none := by
  rw [lastOf, List.filter_map, List.getLast?_map, lastOf]
  simp only [Function.comp_def, competes_under_hook h]
  cases active key <;> simp

theorem defaultOf_append (ls ks : List Leaf) :
    defaultOf (ls ++ ks) = (defaultOf ls).or (defaultOf ks) := List.find?_append

theorem defaultOf_under_default (ls : List Leaf) :
    defaultOf (ls.map (Leaf.under defaultKey)) = (defaultOf ls).map (Leaf.under defaultKey) := by
  rw [defaultOf, List.find?_map]
  simp only [Function.comp_def, Leaf.hooks_under_default, defaultOf]

theorem defaultOf_under_hook {key : String} (h : key ≠ defaultKey) (ls : List Leaf) :
    defaultOf (ls.map (Leaf.under key)) = none := by
  rw [defaultOf_eq_none]
  intro l hl
  obtain ⟨k, -, rfl⟩ := List.mem_map.mp hl
  rw [Leaf.hooks_under h]
  exact List.cons_ne_nil _ _

theorem selected_eq_pick (t : Tree) : t.selected active = pick active false t.leaves := by
  have hfilter : t.hookLeaves.filter (Leaf.applies active)
      = t.leaves.filter (Leaf.competes active false) := by
    rw [hookLeaves, List.filter_filter]
    rfl
  rw [selected, hfilter]
  rfl

/-! ## When nothing is chosen -/

theorem chosenByHook_eq_none {children : List (String × Tree)} :
    chosenByHook active children = none ↔
      ∀ e ∈ children, e.1 ≠ defaultKey → active e.1 = true → e.2.chosen active = none := by
  induction children with
  | nil => simp [chosenByHook]
  | cons e children ih =>
    obtain ⟨key, t⟩ := e
    rw [chosenByHook, Option.or_eq_none_iff, ih, List.forall_mem_cons, and_comm]
    refine and_congr_left fun _ => ?_
    split
    next hk => simp [hk]
    next hk =>
      refine ⟨fun _ hne ha => absurd ⟨hne, ha⟩ hk, fun _ => rfl⟩

theorem chosenByDefault_eq_none {children : List (String × Tree)}
    (h : (Entries.keys children).Nodup) :
    chosenByDefault active children = none ↔
      ∀ e ∈ children, e.1 = defaultKey → e.2.chosen active = none := by
  induction children with
  | nil => simp [chosenByDefault]
  | cons e children ih =>
    obtain ⟨key, t⟩ := e
    rw [Entries.keys_cons, List.nodup_cons] at h
    rw [chosenByDefault, List.forall_mem_cons]
    split
    next hk =>
      subst hk
      have hrest : ∀ e ∈ children, e.1 = defaultKey → e.2.chosen active = none :=
        fun e he hd => absurd (List.mem_map.mpr ⟨e, he, hd⟩) h.1
      simp only [Option.map_eq_none_iff, forall_const]
      exact ⟨fun hn => ⟨hn, hrest⟩, And.left⟩
    next hk =>
      rw [ih h.2]
      exact ⟨fun hn => ⟨fun hd => absurd hd hk, hn⟩, And.right⟩

/-- The rule chooses a leaf whenever some leaf applies. -/
theorem chosen_eq_none {t : Tree} (h : t.Keyed) :
    t.chosen active = none ↔ ∀ l ∈ t.leaves, l.applies active = false := by
  induction t using childInduction with
  | leaf s => simp [chosen, leaves, Leaf.applies, Leaf.hooks]
  | branch children ih =>
    obtain ⟨hnodup, hchildren⟩ := keyed_branch.mp h
    have hchild := fun e he => ih e he (childrenKeyed_iff.mp hchildren e he)
    rw [chosen, Option.or_eq_none_iff, chosenByHook_eq_none, chosenByDefault_eq_none hnodup]
    constructor
    · rintro ⟨hhook, hdefault⟩ l hl
      obtain ⟨e, he, k, hk, rfl⟩ := mem_leavesAll.mp hl
      by_cases hkey : e.1 = defaultKey
      · rw [hkey, Leaf.applies, Leaf.hooks_under_default]
        exact (hchild e he).mp (hdefault e he hkey) k hk
      · rw [Leaf.applies, Leaf.hooks_under hkey, List.all_cons]
        cases ha : active e.1 with
        | false => rfl
        | true => exact (hchild e he).mp (hhook e he hkey ha) k hk
    · intro hall
      have hunder : ∀ e ∈ children, ∀ k ∈ e.2.leaves, (k.under e.1).applies active = false :=
        fun e he k hk => hall _ (mem_leavesAll.mpr ⟨e, he, k, hk, rfl⟩)
      constructor
      · intro e he hkey ha
        refine (hchild e he).mpr fun k hk => ?_
        have hu := hunder e he k hk
        rw [Leaf.applies, Leaf.hooks_under hkey, List.all_cons, ha, Bool.true_and] at hu
        exact hu
      · intro e he hkey
        refine (hchild e he).mpr fun k hk => ?_
        have hu := hunder e he k hk
        rw [hkey, Leaf.applies, Leaf.hooks_under_default] at hu
        exact hu

theorem lastOf_eq_none_iff_chosen {t : Tree} (h : t.Keyed) :
    lastOf active true t.leaves = none ↔ t.chosen active = none := by
  rw [lastOf_eq_none, chosen_eq_none h]
  simp [Leaf.competes]

/-- Where no hook leads to a leaf, only leaves of the base compete. -/
theorem exists_base_of_lastOf {children : List (String × Tree)} (hkeyed : ChildrenKeyed children)
    (h : chosenByHook active children = none) {l : Leaf}
    (hl : lastOf active below (leavesAll children) = some l) :
    baseCompetes active below children = true ∧ ∃ k : Leaf, l = k.under defaultKey := by
  obtain ⟨hmem, hcompetes⟩ := lastOf_eq_some hl
  obtain ⟨e, he, k, hk, rfl⟩ := mem_leavesAll.mp hmem
  by_cases hkey : e.1 = defaultKey
  · rw [hkey, competes_under_default] at hcompetes
    refine ⟨List.any_eq_true.mpr ⟨e, he, ?_⟩, k, by rw [hkey]⟩
    simp only [hkey, decide_true, Bool.true_and]
    exact List.any_eq_true.mpr ⟨k, hk, hcompetes⟩
  · rw [competes_under_hook hkey, Bool.and_eq_true] at hcompetes
    have hnone := chosenByHook_eq_none.mp h e he hkey hcompetes.1
    have happlies := (chosen_eq_none (childrenKeyed_iff.mp hkeyed e he)).mp hnone k hk
    simp [Leaf.competes, happlies] at hcompetes

theorem baseCompetes_of_defaultKey_not_mem {children : List (String × Tree)}
    (h : defaultKey ∉ Entries.keys children) : baseCompetes active below children = false := by
  rw [← Bool.not_eq_true]
  intro hb
  obtain ⟨e, he, hany⟩ := List.any_eq_true.mp hb
  rw [Bool.and_eq_true, decide_eq_true_eq] at hany
  exact h (List.mem_map.mpr ⟨e, he, hany.1⟩)

theorem defaultOf_eq_none_of_defaultKey_not_mem {children : List (String × Tree)}
    (h : defaultKey ∉ Entries.keys children) : defaultOf (leavesAll children) = none := by
  rw [defaultOf_eq_none]
  intro l hl
  obtain ⟨e, he, k, -, rfl⟩ := mem_leavesAll.mp hl
  rw [Leaf.hooks_under fun hd => h (List.mem_map.mpr ⟨e, he, hd⟩)]
  exact List.cons_ne_nil _ _

theorem lastOf_eq_none_of_not_baseCompetes {children : List (String × Tree)}
    (hkeyed : ChildrenKeyed children) (h : chosenByHook active children = none)
    (hbase : baseCompetes active below children = false) :
    lastOf active below (leavesAll children) = none := by
  by_contra hne
  obtain ⟨l, hl⟩ := Option.ne_none_iff_exists'.mp hne
  rw [(exists_base_of_lastOf hkeyed h hl).1] at hbase
  cases hbase

theorem lastOf_ne_none_of_baseCompetes {children : List (String × Tree)}
    (h : baseCompetes active below children = true) :
    lastOf active below (leavesAll children) ≠ none := by
  obtain ⟨e, he, hany⟩ := List.any_eq_true.mp h
  rw [Bool.and_eq_true, decide_eq_true_eq] at hany
  obtain ⟨k, hk, hcompetes⟩ := List.any_eq_true.mp hany.2
  intro hnone
  have := lastOf_eq_none.mp hnone _ (mem_leavesAll.mpr ⟨e, he, k, hk, rfl⟩)
  rw [hany.1, competes_under_default, hcompetes] at this
  cases this

/-! ## The exact condition -/

theorem lastOf_leavesAll_cons (key : String) (t : Tree) (rest : List (String × Tree)) :
    lastOf active below (leavesAll ((key, t) :: rest)) =
      (lastOf active below (leavesAll rest)).or
        (lastOf active below (t.leaves.map (Leaf.under key))) := by
  rw [leavesAll, lastOf_append]

theorem map_under_inj {key : String} {a b : Option Leaf} :
    a.map (Leaf.under key) = b.map (Leaf.under key) ↔ a = b :=
  (Option.map_injective fun _ _ => Leaf.under_injective).eq_iff

theorem isSome_lastOf_of_chosenByHook (below : Bool) {children : List (String × Tree)}
    (hkeyed : ChildrenKeyed children) (h : (chosenByHook active children).isSome) :
    (lastOf active below (leavesAll children)).isSome := by
  rw [Option.isSome_iff_ne_none, ne_eq, chosenByHook_eq_none] at h
  push Not at h
  obtain ⟨e, he, hkey, ha, hne⟩ := h
  rw [ne_eq, chosen_eq_none (childrenKeyed_iff.mp hkeyed e he)] at hne
  push Not at hne
  obtain ⟨k, hk, happlies⟩ := hne
  rw [Option.isSome_iff_ne_none]
  intro hnone
  have := lastOf_eq_none.mp hnone _ (mem_leavesAll.mpr ⟨e, he, k, hk, rfl⟩)
  rw [competes_under_hook hkey, ha] at this
  simp [Leaf.competes, happlies] at this

/-- The first child is a hook that is taken, since no later one leads to a leaf. -/
theorem lastOf_cons_eq_iff {key : String} {t : Tree} {rest : List (String × Tree)}
    (ht : t.Keyed) (hrest : ChildrenKeyed rest) (hkey : key ≠ defaultKey)
    (ha : active key = true) (hnone : chosenByHook active rest = none)
    (hsome : (t.chosen active).isSome)
    (ih : pick active true t.leaves = t.chosen active ↔ t.defaultsYield active true = true) :
    lastOf active below (leavesAll ((key, t) :: rest)) = (t.chosen active).map (Leaf.under key) ↔
      (t.defaultsYield active true && !baseCompetes active below rest) = true := by
  rw [lastOf_leavesAll_cons, lastOf_under_hook hkey, if_pos ha]
  cases hbase : baseCompetes active below rest with
  | true =>
    -- a leaf of the base behind the hook is shown, which the rule does not choose
    obtain ⟨m, hm⟩ := Option.ne_none_iff_exists'.mp (lastOf_ne_none_of_baseCompetes hbase)
    obtain ⟨-, k, rfl⟩ := exists_base_of_lastOf hrest hnone hm
    obtain ⟨c, hc⟩ := Option.isSome_iff_exists.mp hsome
    rw [hm, hc, Option.some_or, Option.map_some, Bool.not_true, Bool.and_false]
    refine iff_of_false (fun he => hkey ?_) Bool.false_ne_true
    have hpath := congrArg Leaf.path (Option.some.inj he)
    exact (List.cons.inj hpath).1.symm
  | false =>
    have hlast := lastOf_eq_none_of_not_baseCompetes hrest hnone hbase
    have htrue : (lastOf active true t.leaves).isSome := by
      rw [Option.isSome_iff_ne_none] at hsome ⊢
      intro hn
      exact hsome ((lastOf_eq_none_iff_chosen ht).mp hn)
    rw [pick, Option.or_of_isSome htrue] at ih
    rw [hlast, Option.none_or, map_under_inj, ih, Bool.not_false, Bool.and_true]

/-- In a branch in which a hook is taken, given the claim for the children. -/
theorem lastOf_eq_chosenByHook_iff {children : List (String × Tree)}
    (hkeyed : ChildrenKeyed children) (h : (chosenByHook active children).isSome)
    (ih : ∀ e ∈ children,
      (pick active true e.2.leaves = e.2.chosen active ↔ e.2.defaultsYield active true = true)) :
    lastOf active below (leavesAll children) = chosenByHook active children ↔
      yieldToHook active below children = true := by
  induction children with
  | nil => cases h
  | cons e rest ihrest =>
    obtain ⟨key, t⟩ := e
    obtain ⟨htk, hrk⟩ := hkeyed
    rw [yieldToHook]
    rw [chosenByHook] at h ⊢
    cases hr : chosenByHook active rest with
    | some l =>
      obtain ⟨m, hm⟩ := Option.isSome_iff_exists.mp
        (isSome_lastOf_of_chosenByHook below hrk (by rw [hr]; rfl))
      have hrest := ihrest hrk (by rw [hr]; rfl) fun e he => ih e (List.mem_cons_of_mem _ he)
      rw [hr, hm] at hrest
      rw [lastOf_leavesAll_cons, hm]
      exact hrest
    | none =>
      rw [hr, Option.none_or] at h
      rw [Option.none_or, Option.isSome_none, if_neg Bool.false_ne_true]
      split at h
      next hk =>
        rw [if_pos hk]
        rw [Option.isSome_map] at h
        exact lastOf_cons_eq_iff htk hrk hk.1 hk.2 hr h (ih _ List.mem_cons_self)
      next => cases h

/-- In a branch in which no hook is taken, given the claim for the children. -/
theorem pick_eq_chosenByDefault_iff {children : List (String × Tree)}
    (hnodup : (Entries.keys children).Nodup) (hkeyed : ChildrenKeyed children)
    (h : chosenByHook active children = none)
    (ih : ∀ e ∈ children,
      (pick active below e.2.leaves = e.2.chosen active ↔
        e.2.defaultsYield active below = true)) :
    pick active below (leavesAll children) = chosenByDefault active children ↔
      yieldByDefault active below children = true := by
  induction children with
  | nil => exact iff_of_true rfl rfl
  | cons e rest ihrest =>
    obtain ⟨key, t⟩ := e
    obtain ⟨htk, hrk⟩ := hkeyed
    rw [Entries.keys_cons, List.nodup_cons] at hnodup
    rw [chosenByHook, Option.or_eq_none_iff] at h
    obtain ⟨hr, hhead⟩ := h
    rw [pick, lastOf_leavesAll_cons, leavesAll, defaultOf_append, chosenByDefault, yieldByDefault]
    split
    next hkey =>
      subst hkey
      -- there is no second base
      have hbase : baseCompetes active below rest = false :=
        baseCompetes_of_defaultKey_not_mem hnodup.1
      have hlast := lastOf_eq_none_of_not_baseCompetes hrk hr hbase
      rw [hlast, defaultOf_eq_none_of_defaultKey_not_mem hnodup.1, lastOf_under_default,
        defaultOf_under_default, Option.none_or, Option.or_none, ← Option.map_or, map_under_inj]
      exact ih _ List.mem_cons_self
    next hkey =>
      have hlast : lastOf active below (t.leaves.map (Leaf.under key)) = none := by
        rw [lastOf_under_hook hkey]
        split
        next ha =>
          rw [if_pos ⟨hkey, ha⟩, Option.map_eq_none_iff] at hhead
          rw [(lastOf_eq_none_iff_chosen htk).mpr hhead]
          rfl
        next => rfl
      rw [hlast, defaultOf_under_hook hkey, Option.or_none, Option.none_or]
      exact ihrest hnodup.2 hrk hr fun e he => ih e (List.mem_cons_of_mem _ he)

theorem pick_eq_chosen_iff {t : Tree} (h : t.Keyed) (below : Bool) :
    pick active below t.leaves = t.chosen active ↔ t.defaultsYield active below = true := by
  induction t using childInduction generalizing below with
  | leaf s =>
    refine iff_of_true ?_ rfl
    cases below <;> rfl
  | branch children ih =>
    obtain ⟨hnodup, hchildren⟩ := keyed_branch.mp h
    have hchild := fun e he below => ih e he (childrenKeyed_iff.mp hchildren e he) below
    rw [leaves, chosen, defaultsYield]
    split
    next hsome =>
      have hlast := isSome_lastOf_of_chosenByHook below hchildren hsome
      rw [pick, Option.or_of_isSome hlast, Option.or_of_isSome hsome]
      exact lastOf_eq_chosenByHook_iff hchildren hsome fun e he => hchild e he true
    next hnone =>
      have hnone' := Option.not_isSome_iff_eq_none.mp hnone
      rw [hnone', Option.none_or]
      exact pick_eq_chosenByDefault_iff hnodup hchildren hnone' fun e he => hchild e he below

/-- A tree shows the leaf of the rule exactly when the bases on the way to it yield. -/
theorem selected_eq_chosen_iff (active : String → Bool) {t : Tree} (h : t.Keyed) :
    t.selected active = t.chosen active ↔ t.defaultsYield active false = true := by
  rw [selected_eq_pick]
  exact pick_eq_chosen_iff h false

/-! ## Bases that are written first -/

mutual

/-- Whether the base of every branch stands before its hooks. -/
def defaultsFirst : Tree → Bool
  | leaf _ => true
  | branch children =>
    decide (defaultKey ∉ (Entries.keys children).tail) && allDefaultsFirst children

def allDefaultsFirst : List (String × Tree) → Bool
  | [] => true
  | (_, t) :: rest => t.defaultsFirst && allDefaultsFirst rest

end

theorem allDefaultsFirst_iff {children : List (String × Tree)} :
    allDefaultsFirst children = true ↔ ∀ e ∈ children, e.2.defaultsFirst = true := by
  induction children with
  | nil => simp [allDefaultsFirst]
  | cons e children ih =>
    obtain ⟨key, t⟩ := e
    simp [allDefaultsFirst, ih]

theorem yieldToHook_of_defaultKey_not_mem {children : List (String × Tree)}
    (h : defaultKey ∉ (Entries.keys children).tail)
    (ih : ∀ e ∈ children, e.2.defaultsYield active true = true) :
    yieldToHook active below children = true := by
  induction children with
  | nil => rfl
  | cons e rest ihrest =>
    obtain ⟨key, t⟩ := e
    change defaultKey ∉ Entries.keys rest at h
    rw [yieldToHook]
    split
    · exact ihrest (fun hm => h (List.mem_of_mem_tail hm))
        fun e he => ih e (List.mem_cons_of_mem _ he)
    · rw [ih _ List.mem_cons_self, baseCompetes_of_defaultKey_not_mem h]
      rfl

theorem yieldByDefault_of_forall {children : List (String × Tree)}
    (ih : ∀ e ∈ children, e.2.defaultsYield active below = true) :
    yieldByDefault active below children = true := by
  induction children with
  | nil => rfl
  | cons e rest ihrest =>
    obtain ⟨key, t⟩ := e
    rw [yieldByDefault]
    split
    · exact ih _ List.mem_cons_self
    · exact ihrest fun e he => ih e (List.mem_cons_of_mem _ he)

theorem defaultsYield_of_defaultsFirst {t : Tree} (h : t.defaultsFirst = true)
    (active : String → Bool) (below : Bool) : t.defaultsYield active below = true := by
  induction t using childInduction generalizing below with
  | leaf s => rfl
  | branch children ih =>
    rw [defaultsFirst, Bool.and_eq_true, decide_eq_true_eq, allDefaultsFirst_iff] at h
    have hchild := fun e he => ih e he (h.2 e he)
    rw [defaultsYield]
    split
    · exact yieldToHook_of_defaultKey_not_mem h.1 fun e he => hchild e he true
    · exact yieldByDefault_of_forall fun e he => hchild e he below

end Tree

namespace Engine

/-- The leaf of the rule is the one that is shown exactly when the bases on the way to it
yield; the property then has its value. -/
theorem computed_chosen (engine : Engine) (active : String → Bool) {d : Declaration}
    {style : Style} (hc : engine.inline d = .ok style) (h : engine.registry.Admits [d])
    {property : String} {t : KeyedTree} (ht : d.get? property = some t)
    (hplain : t.tree.IsPlain engine.registry.toggles) :
    (t.tree.selected active = t.tree.chosen active ↔ t.tree.defaultsYield active false = true) ∧
      engine.registry.toggles.computed active style property =
        t.tree.shown engine.registry.toggles property
          ((t.tree.selected active).bind Leaf.setting) ∧
      (t.tree.defaultsYield active false = true →
        engine.registry.toggles.computed active style property =
          t.tree.shown engine.registry.toggles property
            ((t.tree.chosen active).bind Leaf.setting)) := by
  have hexact := Tree.selected_eq_chosen_iff active t.keyed
  have hvalue := computed_of_get? active h (List.mem_singleton.mpr rfl) hc ht hplain
  refine ⟨hexact, hvalue, ?_⟩
  intro hyield
  rw [hvalue, hexact.mpr hyield]

/-- A base behind a hook, inside another hook. -/
def baseBehindFocus : KeyedTree :=
  KeyedTree.empty.on ":hover" (KeyedTree.empty.on ":focus" (.literal (.text "blue"))
    |>.base (.literal (.text "red")))

/-- With both hooks active the base is shown, and not the leaf of the rule; with the outer
hook alone both are the same. -/
theorem computed_chosen_baseBehindFocus : ∃ style,
    hoverFocus.inline (.single "color" baseBehindFocus) = .ok style ∧
      hoverFocus.registry.toggles.computed (fun _ => true) style "color" = some "red".toList ∧
      baseBehindFocus.tree.selected (fun _ => true) ≠
        baseBehindFocus.tree.chosen (fun _ => true) ∧
      hoverFocus.registry.toggles.computed (· == ":hover") style "color" =
        some "red".toList ∧
      baseBehindFocus.tree.selected (· == ":hover") =
        baseBehindFocus.tree.chosen (· == ":hover") := by
  obtain ⟨style, hc⟩ : ∃ style, hoverFocus.inline (.single "color" baseBehindFocus) = .ok style :=
    Registry.compile_succeeds_iff.mpr (by decide +kernel)
  have h : hoverFocus.registry.Admits [.single "color" baseBehindFocus] :=
    ⟨hoverFocus_distinctHooks, by decide +kernel, by decide +kernel⟩
  have hplain : baseBehindFocus.tree.IsPlain hoverFocus.registry.toggles := by decide +kernel
  have ht : (OrderedMap.single "color" baseBehindFocus).get? "color" = some baseBehindFocus := rfl
  obtain ⟨hboth, hvalue, -⟩ := computed_chosen hoverFocus (fun _ => true) hc h ht hplain
  obtain ⟨hhover, -, hchosen⟩ := computed_chosen hoverFocus (· == ":hover") hc h ht hplain
  have hyield : baseBehindFocus.tree.defaultsYield (· == ":hover") false = true := by
    decide +kernel
  refine ⟨style, hc, hvalue, fun he => ?_, hchosen hyield, hhover.mpr hyield⟩
  exact absurd (hboth.mp he) (by decide +kernel)

end Engine

end HookStyle
