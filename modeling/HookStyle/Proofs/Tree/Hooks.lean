import HookStyle.Proofs.Tree.Leaves

/-!
# The hooks that a tree asks for

A tree asks for the keys of its branches, also of those above branches without leaves. The
word `default` is no hook. The check of a declaration walks the trees in an order of its own;
it finds an unknown hook exactly when some tree asks for one, and the leaves of a tree stand
under hooks that the tree asks for, so the check leaves nothing for later.

* `unknownHook?_eq_none_iff`, `asks_of_unknownHook?`: what the check of a tree finds.
* `exists_of_unknownHook?`: the check of a declaration finds a hook of the first property
  that asks for an unknown one.
-/

namespace HookStyle

namespace Tree

/-- A key of some branch of a tree. -/
inductive HasKey (key : String) : Tree → Prop
  | here {children : List (String × Tree)} (h : key ∈ Entries.keys children) :
    HasKey key (branch children)
  | inside {children : List (String × Tree)} {e : String × Tree} (he : e ∈ children)
    (h : HasKey key e.2) : HasKey key (branch children)

/-- A tree asks for a hook that is a key of some branch. The word `default` is no hook. -/
def Asks (t : Tree) (hook : String) : Prop := t.HasKey hook ∧ hook ≠ defaultKey

variable {known : String → Bool} {t : Tree} {children : List (String × Tree)} {hook : String}

theorem not_asks_leaf (s : Setting) : ¬ (leaf s).Asks hook := by
  rintro ⟨h, -⟩
  cases h

/-- A branch asks for its own keys, the default aside, and for what its children ask for. -/
theorem asks_branch : (branch children).Asks hook ↔
    (hook ∈ Entries.keys children ∧ hook ≠ defaultKey) ∨ ∃ e ∈ children, e.2.Asks hook := by
  constructor
  · rintro ⟨h, hne⟩
    cases h with
    | here h => exact Or.inl ⟨h, hne⟩
    | inside he h => exact Or.inr ⟨_, he, h, hne⟩
  · rintro (⟨h, hne⟩ | ⟨e, he, h, hne⟩)
    · exact ⟨.here h, hne⟩
    · exact ⟨.inside he h, hne⟩

/-- The hooks of a leaf are keys on its way from the root. -/
theorem asks_of_mem_leaves {l : Leaf} (hl : l ∈ t.leaves) (hh : hook ∈ l.hooks) :
    t.Asks hook := by
  induction t using childInduction generalizing l with
  | leaf s =>
    obtain rfl := List.mem_singleton.mp hl
    cases hh
  | branch children ih =>
    obtain ⟨e, he, k, hk, rfl⟩ := mem_leavesAll.mp hl
    rw [asks_branch]
    by_cases hkey : e.1 = defaultKey
    · rw [hkey, Leaf.hooks_under_default] at hh
      exact Or.inr ⟨e, he, ih e he hk hh⟩
    · rw [Leaf.hooks_under hkey] at hh
      rcases List.mem_cons.mp hh with rfl | hh
      · exact Or.inl ⟨List.mem_map_of_mem he, hkey⟩
      · exact Or.inr ⟨e, he, ih e he hk hh⟩

/-! ## The check of a tree -/

theorem exists_of_unknownBelow? (h : unknownBelow? known children = some hook) :
    ∃ e ∈ children, e.2.unknownHook? known = some hook := by
  induction children with
  | nil => cases h
  | cons e children ih =>
    obtain ⟨key, t⟩ := e
    rw [unknownBelow?, Option.orElse_eq_orElse, Option.orElse_eq_or, Option.or_eq_some_iff] at h
    rcases h with h | ⟨-, h⟩
    · obtain ⟨e, he, hhook⟩ := ih h
      exact ⟨e, List.mem_cons_of_mem _ he, hhook⟩
    · exact ⟨_, List.mem_cons_self, h⟩

theorem unknownBelow?_eq_none :
    unknownBelow? known children = none ↔ ∀ e ∈ children, e.2.unknownHook? known = none := by
  induction children with
  | nil => simp [unknownBelow?]
  | cons e children ih =>
    obtain ⟨key, t⟩ := e
    simp [unknownBelow?, ih, and_comm]

/-- A hook that the check of a tree finds is unknown, and the tree asks for it. -/
theorem asks_of_unknownHook? (h : t.unknownHook? known = some hook) :
    t.Asks hook ∧ known hook = false := by
  induction t using childInduction with
  | leaf s => cases h
  | branch children ih =>
    rw [unknownHook?, Option.orElse_eq_orElse, Option.orElse_eq_or, Option.or_eq_some_iff] at h
    rcases h with h | ⟨-, h⟩
    · have hunknown := List.find?_some h
      rw [Bool.and_eq_true, decide_eq_true_eq, Bool.not_eq_true'] at hunknown
      exact ⟨asks_branch.mpr (Or.inl ⟨List.mem_of_find?_eq_some h, hunknown.1⟩), hunknown.2⟩
    · obtain ⟨e, he, hhook⟩ := exists_of_unknownBelow? h
      obtain ⟨hasks, hunknown⟩ := ih e he hhook
      exact ⟨asks_branch.mpr (Or.inr ⟨e, he, hasks⟩), hunknown⟩

/-- The check of a tree finds nothing exactly when the tree asks for known hooks only. -/
theorem unknownHook?_eq_none_iff :
    t.unknownHook? known = none ↔ ∀ hook, t.Asks hook → known hook = true := by
  constructor
  · intro h hook hasks
    induction t using childInduction with
    | leaf s => exact absurd hasks (not_asks_leaf s)
    | branch children ih =>
      rw [unknownHook?, Option.orElse_eq_orElse, Option.orElse_eq_or,
        Option.or_eq_none_iff] at h
      obtain ⟨hkeys, hbelow⟩ := h
      rcases asks_branch.mp hasks with ⟨hkey, hne⟩ | ⟨e, he, hasks⟩
      · have hnone := List.find?_eq_none.mp hkeys hook hkey
        simpa [hne] using hnone
      · exact ih e he (unknownBelow?_eq_none.mp hbelow e he) hasks
  · intro h
    rw [Option.eq_none_iff_forall_ne_some]
    intro hook hsome
    obtain ⟨hasks, hunknown⟩ := asks_of_unknownHook? hsome
    rw [h hook hasks] at hunknown
    cases hunknown

end Tree

/-! ## The check of a declaration -/

namespace Declaration

variable {known : String → Bool} {d : Declaration} {hook : String}

theorem unknownHook?_eq_none_iff : d.unknownHook? known = none ↔
    ∀ e ∈ d.entries, ∀ hook, e.2.tree.Asks hook → known hook = true := by
  simp only [unknownHook?, List.findSome?_eq_none_iff, Tree.unknownHook?_eq_none_iff]

/-- The hook that the check finds is one of the first property that asks for an unknown
hook. -/
theorem exists_of_unknownHook? (h : d.unknownHook? known = some hook) :
    ∃ before property t after, d.entries = before ++ (property, t) :: after ∧
      (∀ e ∈ before, ∀ asked, e.2.tree.Asks asked → known asked = true) ∧
        t.tree.Asks hook ∧ known hook = false := by
  obtain ⟨before, ⟨property, t⟩, after, hentries, hhook, hbefore⟩ :=
    List.findSome?_eq_some_iff.mp h
  refine ⟨before, property, t, after, hentries, ?_, Tree.asks_of_unknownHook? hhook⟩
  intro e he
  exact Tree.unknownHook?_eq_none_iff.mp (hbefore e he)

end Declaration

end HookStyle
