import HookStyle.Proofs.OrderedMap.Entries
import HookStyle.Proofs.Outcome
import HookStyle.Proofs.Text.Numbered
import HookStyle.Style.Keyframes
import Mathlib.Data.List.Nodup

/-!
# The history of an animation store

A store is used in any order: animations are registered, and sheets are requested for names.
What it answers comes from its table of blocks, which is written under names that a counter
makes. That these names are new every time is what keeps one block from taking another's
place, and then the store answers for the history of its registrations and for nothing else.

* `Records.register`: one registration appends its block to the table, behind all that is there.
* `Records.after`: after a run, the table has the blocks of its registrations, in their order.
* `block?_after_of_lt`: a block below the counter stays whatever comes later.
* `blocks_eq_ok`, `blocks_eq_error`: the blocks of a request, and its first name without one.
* `accounts_of_run`: after every run, a store accounts for the names that the run has returned,
  and will write the same blocks for them after whatever comes later.
-/

namespace HookStyle

open Css

namespace AnimationStore

/-! ## Names -/

theorem toList_nameOf (namePart : String) (n : Nat) :
    (nameOf namePart n).toList
      = ("__" ++ namePart ++ "_keyframes").toList ++ '-' :: (toString n).toList := by
  simp [nameOf]

/-- The name of an animation gives back its part for the configuration and its number. -/
theorem nameOf_inj {namePart namePart' : String} {m n : Nat} :
    nameOf namePart m = nameOf namePart' n ↔ namePart = namePart' ∧ m = n := by
  constructor
  · intro h
    have hlist := congrArg String.toList h
    rw [toList_nameOf, toList_nameOf] at hlist
    obtain ⟨hfront, hnumber⟩ := Text.eq_of_append_number (by decide) hlist
    exact ⟨String.toList_injective (by simpa using hfront), hnumber⟩
  · rintro ⟨rfl, rfl⟩
    rfl

/-! ## What a store holds -/

/-- What a store holds after some registrations, the first one first, each with the name that
was returned for it. -/
structure Records (namePart : String) (layout : Layout) (log : List (String × Animation))
    (store : AnimationStore) : Prop where
  namePart_eq : store.namePart = namePart
  layout_eq : store.layout = layout
  /-- The names are those of the numbers from zero on. -/
  names : Entries.keys log = (List.range log.length).map (nameOf namePart)
  /-- The next number has not been used. -/
  next_eq : store.next = log.length
  /-- The table has one block for each registration, written under its own name. -/
  table : store.rendered.entries = log.map fun e => (e.1, (e.2.rule e.1).text layout)

namespace Records

variable {namePart : String} {layout : Layout} {log : List (String × Animation)}
variable {store : AnimationStore}

theorem empty (namePart : String) (layout : Layout) :
    Records namePart layout [] (AnimationStore.empty namePart layout) :=
  ⟨rfl, rfl, rfl, rfl, rfl⟩

theorem exists_number (h : Records namePart layout log store) {name : String}
    (hname : name ∈ Entries.keys log) : ∃ n < store.next, name = nameOf store.namePart n := by
  rw [h.names, List.mem_map] at hname
  obtain ⟨n, hn, rfl⟩ := hname
  rw [h.next_eq, h.namePart_eq]
  exact ⟨n, List.mem_range.mp hn, rfl⟩

theorem nodup_names (h : Records namePart layout log store) : (Entries.keys log).Nodup := by
  rw [h.names]
  exact List.nodup_range.map fun _ _ hname => (nameOf_inj.mp hname).2

theorem keys_rendered (h : Records namePart layout log store) :
    store.rendered.keys = Entries.keys log := by
  rw [OrderedMap.keys, h.table, Entries.keys, Entries.keys, List.map_map]
  rfl

/-- The table is as large as the history is long: no block was lost. -/
theorem count_eq (h : Records namePart layout log store) : store.count = log.length := by
  rw [count, OrderedMap.size, h.table, List.length_map]

theorem register_not_mem (h : Records namePart layout log store) (animation : Animation) :
    (store.register animation).1 ∉ Entries.keys log := by
  intro hname
  obtain ⟨n, hn, heq⟩ := h.exists_number hname
  rw [register_name, nameOf_inj] at heq
  exact Nat.ne_of_gt hn heq.2

/-- A registration overwrites nothing. -/
theorem rendered_register (h : Records namePart layout log store) (animation : Animation) :
    (store.register animation).2.rendered.entries = store.rendered.entries ++
      [((store.register animation).1,
        (animation.rule (store.register animation).1).text layout)] := by
  have hnew : (store.register animation).1 ∉ store.rendered.keys := by
    rw [h.keys_rendered]
    exact h.register_not_mem animation
  rw [← h.layout_eq]
  exact OrderedMap.entries_insert_of_not_mem hnew _

/-- One registration adds itself to the history. -/
theorem register (h : Records namePart layout log store) (animation : Animation) :
    Records namePart layout (log ++ [((store.register animation).1, animation)])
      (store.register animation).2 := by
  refine ⟨h.namePart_eq, h.layout_eq, ?_, ?_, ?_⟩
  · rw [Entries.keys_append, h.names, List.length_append, List.length_singleton,
      List.range_succ, List.map_append, ← h.next_eq, ← h.namePart_eq]
    rfl
  · rw [next_register, h.next_eq, List.length_append, List.length_singleton]
  · rw [h.rendered_register, h.table, List.map_append]
    rfl

/-- A block is found under a name exactly when an animation of the log renders to it. -/
theorem block?_eq_some (h : Records namePart layout log store) {name block : String} :
    store.block? name = some block ↔
      ∃ animation, (name, animation) ∈ log ∧ (animation.rule name).text layout = block := by
  have hmem : store.block? name = some block ↔ (name, block) ∈ store.rendered.entries :=
    ⟨OrderedMap.mem_of_get?, OrderedMap.get?_of_mem⟩
  rw [hmem, h.table, List.mem_map]
  constructor
  · rintro ⟨⟨name', animation⟩, hlog, heq⟩
    obtain ⟨rfl, htext⟩ := Prod.mk.inj heq
    exact ⟨animation, hlog, htext⟩
  · rintro ⟨animation, hlog, rfl⟩
    exact ⟨_, hlog, rfl⟩

end Records

/-! ## Requests -/

variable {store : AnimationStore} {name : String}

theorem block?_eq_none : store.block? name = none ↔ name ∉ store.rendered.keys := by
  rw [block?, OrderedMap.get?, ← Option.not_isSome_iff_eq_none, Entries.lookup_isSome]
  rfl

/-- Blocks are asked for one by one, and each of the names has to be known. -/
theorem blocks_eq_ok {names blocks : List String} : store.blocks names = .ok blocks ↔
    List.Forall₂ (fun name block => store.block? name = some block) names blocks := by
  induction names generalizing blocks with
  | nil =>
    rw [AnimationStore.blocks, List.forall₂_nil_left_iff]
    constructor
    · rintro ⟨⟩
      rfl
    · rintro rfl
      rfl
  | cons name names ih =>
    rw [AnimationStore.blocks, List.forall₂_cons_left_iff]
    cases h : store.block? name with
    | none => simp
    | some block =>
      simp only [Outcome.map_eq_ok, ih, Option.some.injEq]
      constructor
      · rintro ⟨rest, hrest, rfl⟩
        exact ⟨block, rest, rfl, hrest, rfl⟩
      · rintro ⟨_, rest, rfl, hrest, rfl⟩
        exact ⟨rest, hrest, rfl⟩

/-- A request fails with its first name that was not returned. -/
theorem blocks_eq_error {names : List String} {error : StyleError} :
    store.blocks names = .error error ↔
      ∃ before name after, names = before ++ name :: after ∧
        (∀ n ∈ before, n ∈ store.rendered.keys) ∧
          name ∉ store.rendered.keys ∧ error = .unknownKeyframes name := by
  induction names with
  | nil =>
    rw [AnimationStore.blocks]
    constructor
    · rintro ⟨⟩
    · rintro ⟨before, name, after, h, -⟩
      simp at h
  | cons name names ih =>
    rw [AnimationStore.blocks, Outcome.exists_split_cons, ← ih]
    cases h : store.block? name with
    | none =>
      have hnot := block?_eq_none.mp h
      simp only [hnot, not_false_eq_true, true_and, false_and, or_false]
      exact ⟨fun herror => (Except.error.inj herror).symm, fun herror => herror ▸ rfl⟩
    | some block =>
      have hmem : name ∈ store.rendered.keys := by
        by_contra hnot
        rw [block?_eq_none.mpr hnot] at h
        cases h
      simp only [hmem, not_true_eq_false, false_and, false_or, true_and]
      exact Outcome.map_eq_error

/-! ## Runs -/

/-- A use of a store. -/
inductive Use where
  | register (animation : Animation)
  | sheet (names : List String)

/-- What a use gives. -/
inductive Reply where
  | name (name : String)
  | sheet (outcome : Except StyleError String)

/-- The reply to a use, and the store after it. -/
def serve (store : AnimationStore) : Use → Reply × AnimationStore
  | .register animation => (.name (store.register animation).1, (store.register animation).2)
  | .sheet names => (.sheet (store.sheet names), store)

/-- The store after a run. -/
def after (store : AnimationStore) (uses : List Use) : AnimationStore :=
  uses.foldl (fun s use => (s.serve use).2) store

/-- The name that a reply returns for an animation. -/
def Reply.issued : Use → Reply → List (String × Animation)
  | .register animation, .name name => [(name, animation)]
  | _, _ => []

/-- The names that a run returns, each with its animation, the first one first. -/
def issued (store : AnimationStore) : List Use → List (String × Animation)
  | [] => []
  | use :: uses => (store.serve use).1.issued use ++ (store.serve use).2.issued uses

theorem layout_after (store : AnimationStore) (uses : List Use) :
    (store.after uses).layout = store.layout := by
  induction uses generalizing store with
  | nil => rfl
  | cons use uses ih =>
    refine (ih (store.serve use).2).trans ?_
    cases use <;> rfl

theorem namePart_after (store : AnimationStore) (uses : List Use) :
    (store.after uses).namePart = store.namePart := by
  induction uses generalizing store with
  | nil => rfl
  | cons use uses ih =>
    refine (ih (store.serve use).2).trans ?_
    cases use <;> rfl

/-- One use keeps the store and the log in step, whichever use it is. -/
theorem Records.serve {namePart : String} {layout : Layout} {log : List (String × Animation)}
    (h : Records namePart layout log store) (use : Use) :
    Records namePart layout (log ++ (store.serve use).1.issued use) (store.serve use).2 := by
  cases use with
  | register animation => exact h.register animation
  | sheet names =>
    have hnone : log ++ (store.serve (.sheet names)).1.issued (.sheet names) = log :=
      List.append_nil log
    rw [hnone]
    exact h

/-- A run adds its registrations to the history. -/
theorem Records.after {namePart : String} {layout : Layout} {log : List (String × Animation)}
    (h : Records namePart layout log store) (uses : List Use) :
    Records namePart layout (log ++ store.issued uses) (store.after uses) := by
  induction uses generalizing store log with
  | nil =>
    rw [issued, List.append_nil]
    exact h
  | cons use uses ih =>
    rw [issued, ← List.append_assoc]
    exact ih (h.serve use)

/-- Whatever a table holds, a use leaves the names below the counter alone. -/
theorem block?_serve_of_lt {n : Nat} (h : n < store.next) (use : Use) :
    (store.serve use).2.block? (nameOf store.namePart n) =
      store.block? (nameOf store.namePart n) := by
  cases use with
  | register animation =>
    refine (store.block?_register animation _).trans (if_neg ?_)
    rw [register_name, nameOf_inj]
    exact fun heq => Nat.ne_of_lt h heq.2
  | sheet names => rfl

/-- A block below the counter is the same after whatever comes later. -/
theorem block?_after_of_lt {n : Nat} (h : n < store.next) (uses : List Use) :
    (store.after uses).block? (nameOf store.namePart n) =
      store.block? (nameOf store.namePart n) := by
  induction uses generalizing store with
  | nil => rfl
  | cons use uses ih =>
    have hnext : n < (store.serve use).2.next := by
      cases use with
      | register animation => exact Nat.lt_succ_of_lt h
      | sheet names => exact h
    have hpart : (store.serve use).2.namePart = store.namePart := by cases use <;> rfl
    have hrest := ih hnext
    rw [hpart, block?_serve_of_lt h] at hrest
    exact hrest

/-- What has been written for some names is written for them after whatever comes later. -/
theorem Records.sheet_after {namePart : String} {layout : Layout}
    {log : List (String × Animation)} (h : Records namePart layout log store)
    {names : List String} {text : String} (hsheet : store.sheet names = .ok text)
    (later : List Use) : (store.after later).sheet names = .ok text := by
  obtain ⟨blocks, hblocks, rfl⟩ := Outcome.map_eq_ok.mp hsheet
  rw [sheet, layout_after]
  refine Outcome.map_eq_ok.mpr ⟨blocks, blocks_eq_ok.mpr ?_, rfl⟩
  refine (blocks_eq_ok.mp hblocks).imp fun name block hblock => ?_
  obtain ⟨animation, hmem, -⟩ := h.block?_eq_some.mp hblock
  obtain ⟨n, hn, rfl⟩ := h.exists_number (Entries.mem_keys.mpr ⟨animation, hmem⟩)
  rw [block?_after_of_lt hn, hblock]

/-- What a store answers, by the names that it has returned, each with its animation. -/
structure Accounts (namePart : String) (layout : Layout) (log : List (String × Animation))
    (store : AnimationStore) : Prop extends Records namePart layout log store where
  /-- No name was returned twice, also for equal animations. -/
  distinct : (Entries.keys log).Nodup
  /-- Nor will the next one be, whatever it is for. -/
  fresh : ∀ animation, (store.register animation).1 ∉ Entries.keys log
  /-- So the next block takes no other's place. -/
  keeps : ∀ animation, (store.register animation).2.rendered.entries =
    store.rendered.entries ++ [((store.register animation).1,
      (animation.rule (store.register animation).1).text layout)]
  /-- The size of the table is the number of registrations. -/
  count : store.count = log.length
  /-- A sheet is written exactly for names that were returned. -/
  written : ∀ names,
    (∃ text, store.sheet names = .ok text) ↔ ∀ name ∈ names, name ∈ Entries.keys log
  /-- It has the blocks of the animations behind the names, in the order of the request. -/
  blocks : ∀ names text, store.sheet names = .ok text →
    ∃ blocks, text = layout.newline.intercalate blocks ∧
      List.Forall₂ (fun name block => ∃ animation, (name, animation) ∈ log ∧
        block = (animation.rule name).text layout) names blocks
  /-- Any other request fails with its first name that was not returned. -/
  refused : ∀ names error, store.sheet names = .error error ↔
    ∃ before name after, names = before ++ name :: after ∧
      (∀ n ∈ before, n ∈ Entries.keys log) ∧ name ∉ Entries.keys log ∧
        error = .unknownKeyframes name

section Sheets

variable {namePart : String} {layout : Layout} {log : List (String × Animation)}

theorem Records.blocks_of_sheet (h : Records namePart layout log store) {names : List String}
    {text : String} (hsheet : store.sheet names = .ok text) :
    ∃ blocks, text = layout.newline.intercalate blocks ∧
      List.Forall₂ (fun name block => ∃ animation, (name, animation) ∈ log ∧
        block = (animation.rule name).text layout) names blocks := by
  obtain ⟨blocks, hblocks, rfl⟩ := Outcome.map_eq_ok.mp hsheet
  rw [h.layout_eq]
  refine ⟨blocks, rfl, (blocks_eq_ok.mp hblocks).imp fun name block hblock => ?_⟩
  obtain ⟨animation, hmem, htext⟩ := h.block?_eq_some.mp hblock
  exact ⟨animation, hmem, htext.symm⟩

theorem Records.sheet_eq_error (h : Records namePart layout log store) {names : List String}
    {error : StyleError} : store.sheet names = .error error ↔
      ∃ before name after, names = before ++ name :: after ∧
        (∀ n ∈ before, n ∈ Entries.keys log) ∧ name ∉ Entries.keys log ∧
          error = .unknownKeyframes name := by
  rw [← h.keys_rendered]
  exact Outcome.map_eq_error.trans blocks_eq_error

theorem Records.sheet_succeeds_iff (h : Records namePart layout log store)
    {names : List String} :
    (∃ text, store.sheet names = .ok text) ↔ ∀ name ∈ names, name ∈ Entries.keys log := by
  constructor
  · rintro ⟨text, hsheet⟩
    obtain ⟨blocks, -, hall⟩ := h.blocks_of_sheet hsheet
    have hnamed : List.Forall₂ (fun name _ => name ∈ Entries.keys log ∧ True) names blocks := by
      refine hall.imp fun name block hblock => ⟨?_, trivial⟩
      obtain ⟨animation, hmem, -⟩ := hblock
      exact Entries.mem_keys.mpr ⟨animation, hmem⟩
    exact ((List.forall₂_and_left names blocks).mp hnamed).1
  · intro hall
    cases hsheet : store.sheet names with
    | ok text => exact ⟨text, rfl⟩
    | error error =>
      obtain ⟨before, name, after, rfl, -, hnot, -⟩ := h.sheet_eq_error.mp hsheet
      exact absurd (hall name (by simp)) hnot

/-- A store that holds its history answers for it. -/
theorem Records.accounts (h : Records namePart layout log store) :
    Accounts namePart layout log store where
  toRecords := h
  distinct := h.nodup_names
  fresh := h.register_not_mem
  keeps := h.rendered_register
  count := h.count_eq
  written _ := h.sheet_succeeds_iff
  blocks _ _ := h.blocks_of_sheet
  refused _ _ := h.sheet_eq_error

end Sheets

/-- The animation that a use registers. -/
def Use.animation? : Use → Option Animation
  | .register animation => some animation
  | .sheet _ => none

/-- Every registration returns a name. -/
theorem map_snd_issued (store : AnimationStore) (uses : List Use) :
    (store.issued uses).map Prod.snd = uses.filterMap Use.animation? := by
  induction uses generalizing store with
  | nil => rfl
  | cons use uses ih =>
    rw [issued, List.map_append, ih]
    cases use <;> rfl

/-- Whatever a store is used for, and in whichever order, it accounts for the names that it has
returned. Requests change nothing, and what was written once is written for ever. -/
theorem accounts_of_run (namePart : String) (layout : Layout) (uses : List Use) :
    let start := empty namePart layout
    Accounts namePart layout (start.issued uses) (start.after uses) ∧
      (start.issued uses).map Prod.snd = uses.filterMap Use.animation? ∧
      (∀ names, start.after (uses ++ [.sheet names]) = start.after uses) ∧
      ∀ names text, (start.after uses).sheet names = .ok text →
        ∀ later, (start.after (uses ++ later)).sheet names = .ok text := by
  intro start
  have hrecords : Records namePart layout (start.issued uses) (start.after uses) :=
    (Records.empty namePart layout).after uses
  have happend : ∀ later, start.after (uses ++ later) = (start.after uses).after later :=
    fun later => List.foldl_append
  refine ⟨hrecords.accounts, start.map_snd_issued uses, fun names => happend _,
    fun names text hsheet later => ?_⟩
  rw [happend]
  exact hrecords.sheet_after hsheet later

def fade : Animation := [⟨"from", .single "opacity" (.text "0")⟩]

/-- One animation under two names, and a request between the registrations that is refused. -/
def fadeTwice : List Use := [.register fade, .sheet ["__app_keyframes-1"], .register fade]

theorem accounts_of_fadeTwice :
    let store := (empty "app" .compact).after fadeTwice
    let names := ["__app_keyframes-1", "__app_keyframes-0"]
    let text := "@keyframes __app_keyframes-1\x7bfrom\x7bopacity:0;\x7d\x7d"
      ++ "@keyframes __app_keyframes-0\x7bfrom\x7bopacity:0;\x7d\x7d"
    store.sheet names = .ok text ∧
      ∀ later, ((empty "app" .compact).after (fadeTwice ++ later)).sheet names = .ok text := by
  intro store names text
  have h : store.sheet names = .ok text := by decide +kernel
  obtain ⟨-, -, -, hlater⟩ := accounts_of_run "app" .compact fadeTwice
  exact ⟨h, hlater names text h⟩

end AnimationStore

end HookStyle
