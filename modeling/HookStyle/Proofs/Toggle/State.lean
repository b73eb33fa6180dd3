import HookStyle.Proofs.Chain.Reading
import HookStyle.Proofs.Css.Reading
import HookStyle.Proofs.Hook.Names
import HookStyle.Proofs.OrderedMap.Entries
import HookStyle.Proofs.Toggle.Sheet
import Mathlib.Logic.Function.Basic

/-!
# What the style sheet says in a state of the hooks

In a state of the hooks, the universal rule of a sheet and the rules of the active hooks
apply to an element, in the order of the text, and a later declaration of a property wins.
The universal rule sets both sides of every toggle, and a hook's own rule sets the same two
sides again.

Whose declarations they are depends on the prelude. A selector has its declarations in its own
body, and what is in a block inside that is for other elements. An at-rule has no element, so
only a universal rule inside it declares something. The rule of a hook is written for one or
the other by the `&` in its definition, and where that is not what the prelude says, as behind
`@supports selector(&)`, the rule declares nothing.

* `declared_readRule`: the rule of a hook declares that its toggle is on, or nothing.
* `Shows.insertAll`: one rule changes the sides of one toggle and nothing else.
* `shows_applySheet`: after the rules of the active hooks, the toggles of those whose rules take
  effect are on, and all others are off.
* `sheet_drives_toggles_iff`: read from its text, the sheet gives every toggle the state of its
  hook exactly when the at-rules among the definitions are those without an `&`.
-/

namespace HookStyle

open Css Evaluation
open Css.Expression (blankUnless)

/-! ## What rules declare -/

namespace Css.Rule

/-- An at-rule starts with an at-sign, before which there may be white space. -/
def isAtRule (prelude : String) : Bool :=
  prelude.toList.find? (fun c => !Text.isBlank c) == some '@'

/-- The declarations that stand in a body itself. -/
def declarations (body : List Rule) : List (String × String) :=
  body.filterMap fun
    | declaration name value => some (name, value)
    | block _ _ => none

theorem declarations_flatMap {α : Type} (f : α → List Rule) (xs : List α) :
    declarations (xs.flatMap f) = xs.flatMap fun x => declarations (f x) :=
  List.filterMap_flatMap

/-- What a rule declares for every element. -/
def universal : Rule → List (String × String)
  | declaration _ _ => []
  | block prelude body => if prelude = "*" then declarations body else []

/-- What a rule declares for an element to which it applies. In an at-rule that is what the
universal rules in it declare: declarations that stand there by themselves have no element. -/
def declared : Rule → List (String × String)
  | declaration _ _ => []
  | block prelude body =>
    if isAtRule prelude then body.flatMap universal else declarations body

/-- Applies the rules of the active hooks over what has been set before. There is one rule for
each of the hooks. -/
def applyRules (active : String → Bool) (set : OrderedMap String) (names : List String)
    (rules : List Rule) : OrderedMap String :=
  ((names.zip rules).filter fun e => active e.1).foldl
    (fun set e => set.insertAll e.2.declared) set

/-- What is set by a sheet: by its first rule for every element, and by the rules of the active
hooks. -/
def applySheet (active : String → Bool) (names : List String) : List Rule → OrderedMap String
  | [] => .empty
  | rule :: rules => applyRules active (.ofList rule.universal) names rules

section AtRules

theorem Blank.find?_eq_none {cs : List Char} (h : Blank cs) :
    cs.find? (fun c => !Text.isBlank c) = none := by
  refine List.find?_eq_none.mpr fun c hc => ?_
  rw [h c hc]
  decide

/-- Trimming does not touch the first character that is no white space. -/
theorem find?_trim (cs : List Char) :
    (trim cs).find? (fun c => !Text.isBlank c) = cs.find? fun c => !Text.isBlank c := by
  have hfront : Blank (cs.takeWhile Text.isBlank) := fun c hc => List.mem_takeWhile_imp hc
  have hend : Blank ((cs.dropWhile Text.isBlank).rtakeWhile Text.isBlank) :=
    fun c hc => List.mem_rtakeWhile_imp hc
  have hdrop : (cs.dropWhile Text.isBlank).rdropWhile Text.isBlank ++
      (cs.dropWhile Text.isBlank).rtakeWhile Text.isBlank = cs.dropWhile Text.isBlank :=
    List.rdropWhile_append_rtakeWhile
  conv_rhs =>
    rw [← List.takeWhile_append_dropWhile (p := Text.isBlank) (l := cs), ← hdrop,
      List.find?_append, List.find?_append, hfront.find?_eq_none, hend.find?_eq_none,
      Option.none_or, Option.or_none]
  rfl

theorem isAtRule_part (s : String) : isAtRule (part s.toList) = isAtRule s := by
  rw [isAtRule, isAtRule, part, String.toList_ofList, find?_trim]

end AtRules

end Css.Rule

/-! ## The characters of a hook's toggle -/

namespace Identifier

/-- A declaration of a plain name can be read back. -/
theorem legible_of_isPlain {name value : String} (h : isPlain name = true)
    (hvalue : ∀ c ∈ value.toList, Rule.isMark c = false) :
    (Rule.declaration name value).Legible := by
  refine ⟨fun c hc => ⟨?_, ne_of_isPlain h hc (by decide)⟩, hvalue⟩
  rw [Rule.isMark, Bool.or_eq_false_iff, Bool.or_eq_false_iff, beq_eq_false_iff_ne,
    beq_eq_false_iff_ne, beq_eq_false_iff_ne]
  exact ⟨⟨ne_of_isPlain h hc (by decide), ne_of_isPlain h hc (by decide)⟩,
    ne_of_isPlain h hc (by decide)⟩

end Identifier

namespace Toggle

theorem isPlain_ofId {id : String} (h : Identifier.isPlain id = true) :
    Identifier.isPlain (ofId id).whenTrue = true ∧
      Identifier.isPlain (ofId id).whenFalse = true := by
  have hbefore : Identifier.isPlain ("--" ++ id) = true :=
    Identifier.isPlain_append (by decide) h
  exact ⟨Identifier.isPlain_append hbefore (by decide),
    Identifier.isPlain_append hbefore (by decide)⟩

end Toggle

namespace ToggleSystem

/-! ## The declarations of a toggle -/

/-- The text of one side of a toggle: the invalid value or nothing. -/
def sideText (invalid : Bool) : String := if invalid then "initial" else ""

theorem sideText_inj {invalid invalid' : Bool} :
    sideText invalid = sideText invalid' ↔ invalid = invalid' := by
  cases invalid <;> cases invalid' <;> decide

/-- The declarations of a toggle that is on or off. -/
def sides (on : Bool) (id : String) : List (String × String) :=
  [((Toggle.ofId id).whenFalse, sideText !on), ((Toggle.ofId id).whenTrue, sideText on)]

theorem isMark_sideText (invalid : Bool) :
    ∀ c ∈ (sideText invalid).toList, Rule.isMark c = false :=
  Rule.isMark_eq_false_of_any (by cases invalid <;> decide)

theorem part_sideText (invalid : Bool) :
    Rule.part (sideText invalid).toList = sideText invalid := by
  cases invalid <;> decide +kernel

/-- The rules that declare the sides of a toggle. -/
def sideRules (on : Bool) (id : String) : List Rule :=
  (sides on id).map fun e => .declaration e.1 e.2

theorem switchOff_eq (id : String) : switchOff id = sideRules false id := rfl

theorem switchOn_eq (id : String) : switchOn id = sideRules true id := rfl

section Sides

variable {layout : Layout} {name definition : String}

theorem legible_sideRules (on : Bool) :
    ∀ rule ∈ sideRules on (Identifier.ofHook layout name definition), rule.Legible := by
  have hplain := Toggle.isPlain_ofId (Identifier.isPlain_ofHook layout name definition)
  intro rule hrule
  simp only [sideRules, sides, List.map_cons, List.map_nil, List.mem_cons, List.not_mem_nil,
    or_false] at hrule
  rcases hrule with rfl | rfl
  · exact Identifier.legible_of_isPlain hplain.2 (isMark_sideText _)
  · exact Identifier.legible_of_isPlain hplain.1 (isMark_sideText _)

/-- The names and the texts of the sides have no white space at their ends. -/
theorem stripped_sideRules (on : Bool) :
    (sideRules on (Identifier.ofHook layout name definition)).map Rule.stripped =
      sideRules on (Identifier.ofHook layout name definition) := by
  have hname := isName_ofId (Identifier.isName_ofHook layout name definition)
  have hpart : ∀ {s : String}, isName s = true → Rule.part s.toList = s := by
    intro s hs
    rw [Rule.part, trim_of_isName (List.all_eq_true.mp hs), String.ofList_toList]
  simp only [sideRules, sides, List.map_cons, List.map_nil, Rule.stripped, hpart hname.1,
    hpart hname.2, part_sideText]

end Sides

theorem declarations_sideRules (on : Bool) (id : String) :
    Rule.declarations (sideRules on id) = sides on id := rfl

theorem flatMap_universal_sideRules (on : Bool) (id : String) :
    (sideRules on id).flatMap Rule.universal = [] := rfl

/-! ## The rules of a sheet -/

theorem isMark_universal : ∀ c ∈ "*".toList, Rule.isMark c = false :=
  Rule.isMark_eq_false_of_any (by decide)

theorem part_universal : Rule.part "*".toList = "*" := by decide +kernel

/-- The rule of a hook as it is read back: for a selector its declarations, and for an at-rule a
universal rule with them. -/
def readRule (id definition : String) : Rule :=
  if '&' ∈ definition.toList then
    .block (Rule.part (selector definition).toList) (sideRules true id)
  else .block (Rule.part definition.toList) [.block "*" (sideRules true id)]

/-- Whether the rule of a definition is of the kind that its prelude asks for. -/
def takesEffect (definition : String) : Bool :=
  Rule.isAtRule definition != isSelector definition

theorem takesEffect_iff {definition : String} :
    takesEffect definition = true ↔
      (Rule.isAtRule definition = true ↔ '&' ∉ definition.toList) := by
  have hselector : '&' ∈ definition.toList ↔ isSelector definition = true := by
    rw [isSelector, List.contains_iff_mem]
  rw [takesEffect, hselector]
  cases Rule.isAtRule definition <;> cases isSelector definition <;> decide

/-- Replacing the styled element by any element does not make an at-rule. -/
theorem isAtRule_selector (definition : String) :
    Rule.isAtRule (selector definition) = Rule.isAtRule definition := by
  have hblank : ((fun c => !Text.isBlank c) ∘ fun c => if c = '&' then '*' else c) =
      fun c => !Text.isBlank c := by
    funext c
    by_cases hc : c = '&'
    · subst hc
      decide
    · simp only [Function.comp_apply, if_neg hc]
  rw [Rule.isAtRule, Rule.isAtRule, selector, String.toList_map, List.find?_map, hblank]
  cases definition.toList.find? fun c => !Text.isBlank c with
  | none => rfl
  | some c =>
    by_cases hc : c = '&'
    · subst hc
      decide
    · rw [Option.map_some, if_neg hc]

theorem declared_readRule (id definition : String) :
    (readRule id definition).declared = if takesEffect definition then sides true id else [] := by
  rw [takesEffect]
  by_cases hmem : '&' ∈ definition.toList
  · -- bare declarations count unless the prelude is that of an at-rule
    have hselector : isSelector definition = true := List.contains_iff_mem.mpr hmem
    rw [readRule, if_pos hmem, Rule.declared, Rule.isAtRule_part, isAtRule_selector, hselector,
      declarations_sideRules, flatMap_universal_sideRules]
    cases Rule.isAtRule definition <;> rfl
  · -- a universal rule counts only in an at-rule
    have hselector : isSelector definition = false :=
      Bool.eq_false_iff.mpr (mt List.contains_iff_mem.mp hmem)
    rw [readRule, if_neg hmem, Rule.declared, Rule.isAtRule_part, hselector]
    cases Rule.isAtRule definition <;> rfl

section Rules

variable (layout : Layout) (name definition : String)

theorem legible_hookRule (h : ∀ c ∈ definition.toList, Rule.isMark c = false) :
    (hookRule (Identifier.ofHook layout name definition) definition).Legible := by
  have hbody : Rule.AllLegible (switchOn (Identifier.ofHook layout name definition)) :=
    Rule.allLegible_iff.mpr (legible_sideRules true)
  unfold hookRule
  split
  · refine ⟨fun c hc => ?_, hbody⟩
    rw [selector, String.toList_map] at hc
    obtain ⟨d, hd, rfl⟩ := List.mem_map.mp hc
    split
    · decide
    · exact h d hd
  · exact ⟨h, ⟨isMark_universal, hbody⟩, trivial⟩

theorem stripped_hookRule :
    (hookRule (Identifier.ofHook layout name definition) definition).stripped =
      readRule (Identifier.ofHook layout name definition) definition := by
  have hbody : Rule.strippedAll (switchOn (Identifier.ofHook layout name definition)) =
      sideRules true (Identifier.ofHook layout name definition) := by
    rw [Rule.strippedAll_eq_map, switchOn_eq, stripped_sideRules]
  rw [hookRule, readRule, isSelector]
  by_cases hmem : '&' ∈ definition.toList
  · rw [if_pos (List.contains_iff_mem.mpr hmem), if_pos hmem, Rule.stripped, hbody]
  · rw [if_neg (mt List.contains_iff_mem.mp hmem), if_neg hmem, Rule.stripped, Rule.strippedAll,
      Rule.stripped, hbody, part_universal, Rule.strippedAll]

end Rules

/-! ## What is set -/

/-- The toggles that are set: both sides of a toggle that is on or off, and nothing for a
toggle without a state. -/
structure Shows (set : OrderedMap String) (state : String → Option Bool) : Prop where
  whenTrue : ∀ id, set.get? (Toggle.ofId id).whenTrue = (state id).map sideText
  whenFalse : ∀ id, set.get? (Toggle.ofId id).whenFalse = (state id).map fun on => sideText !on
  other : ∀ key, ¬ IsSide key → set.get? key = none

namespace Shows

variable {set : OrderedMap String} {state : String → Option Bool}

theorem empty : Shows OrderedMap.empty fun _ => none :=
  ⟨fun _ => rfl, fun _ => rfl, fun _ _ => rfl⟩

/-- The declarations of one toggle change its state and no other. -/
theorem insertAll (h : Shows set state) (on : Bool) (id : String) :
    Shows (set.insertAll (sides on id)) (Function.update state id (some on)) := by
  have hget : ∀ key, (set.insertAll (sides on id)).get? key =
      if key = (Toggle.ofId id).whenTrue then some (sideText on)
      else if key = (Toggle.ofId id).whenFalse then some (sideText !on) else set.get? key := by
    intro key
    change ((set.insert _ _).insert _ _).get? key = _
    rw [OrderedMap.get?_insert, OrderedMap.get?_insert]
  refine ⟨fun other => ?_, fun other => ?_, fun key hkey => ?_⟩
  · rw [hget, if_neg (Toggle.whenTrue_ne_whenFalse _ _), h.whenTrue, Function.update_apply]
    by_cases hid : other = id
    · rw [if_pos hid, hid, if_pos rfl]
      rfl
    · rw [if_neg hid, if_neg fun he => hid (Toggle.whenTrue_injective he)]
  · rw [hget, if_neg (Toggle.whenTrue_ne_whenFalse _ _).symm, h.whenFalse, Function.update_apply]
    by_cases hid : other = id
    · rw [if_pos hid, hid, if_pos rfl]
      rfl
    · rw [if_neg hid, if_neg fun he => hid (Toggle.whenFalse_injective he)]
  · have hsides := isSide_ofId id
    have htrue : key ≠ (Toggle.ofId id).whenTrue := fun he => hkey (he ▸ hsides.1)
    have hfalse : key ≠ (Toggle.ofId id).whenFalse := fun he => hkey (he ▸ hsides.2)
    rw [hget, if_neg htrue, if_neg hfalse, h.other key hkey]

/-- The declarations of several toggles, all on or all off. -/
theorem insertAll_flatMap (h : Shows set state) (on : Bool) (ids : List String) :
    Shows (set.insertAll (ids.flatMap (sides on)))
      fun id => if id ∈ ids then some on else state id := by
  induction ids generalizing set state with
  | nil => simpa [OrderedMap.insertAll] using h
  | cons id ids ih =>
    have hrest := ih (h.insertAll on id)
    -- an identifier that comes again is set to the same state again
    have hstate : (fun other => if other ∈ ids then some on else
        Function.update state id (some on) other) =
        fun other => if other ∈ id :: ids then some on else state other := by
      funext other
      rw [Function.update_apply]
      by_cases hid : other = id
      · simp [hid]
      · simp [hid]
    rw [List.flatMap_cons, OrderedMap.insertAll_append, ← hstate]
    exact hrest

end Shows

/-! ## The run over a sheet -/

/-- The identifiers of the hooks of some entries. -/
def idsOf (layout : Layout) (es : List (String × String)) : List String :=
  es.map fun e => Identifier.ofHook layout e.1 e.2

theorem idsOf_cons (layout : Layout) (e : String × String) (es : List (String × String)) :
    idsOf layout (e :: es) = Identifier.ofHook layout e.1 e.2 :: idsOf layout es := rfl

/-- The rules of active hooks declare that their toggles are on, one after the other, as far as
they take effect. -/
theorem applyRules_eq (layout : Layout) (active : String → Bool) (set : OrderedMap String)
    (es : List (String × String)) :
    Rule.applyRules active set (Entries.keys es)
        (es.map fun e => readRule (Identifier.ofHook layout e.1 e.2) e.2) =
      set.insertAll ((idsOf layout (es.filter fun e => active e.1 && takesEffect e.2)).flatMap
        (sides true)) := by
  induction es generalizing set with
  | nil => rfl
  | cons e es ih =>
    simp only [Rule.applyRules] at ih ⊢
    rw [Entries.keys_cons, List.map_cons, List.zip_cons_cons, List.filter_cons, List.filter_cons]
    cases active e.1 with
    | false =>
      rw [Bool.false_and]
      exact ih set
    | true =>
      rw [if_pos rfl, List.foldl_cons, declared_readRule, Bool.true_and]
      by_cases heffect : takesEffect e.2 = true
      · rw [if_pos heffect, if_pos heffect, idsOf_cons, List.flatMap_cons,
          OrderedMap.insertAll_append]
        exact ih _
      · rw [if_neg heffect, if_neg heffect]
        exact ih set

variable (system : ToggleSystem)

/-- The hooks that are switched on by their rules when some hooks are active. -/
def effective (active : String → Bool) (name : String) : Bool :=
  active name && (system.definitions.get? name).any takesEffect

/-- The identifiers of the hooks of a system that are in a state. -/
def activeIds (active : String → Bool) : List String :=
  idsOf system.layout (system.definitions.entries.filter fun e => active e.1)

/-- The state of a toggle: the last of the rules that set it decides. -/
def shown (active : String → Bool) (id : String) : Option Bool :=
  if id ∈ system.activeIds active then some true
  else if id ∈ system.hooks.map Prod.fst then some false
  else none

theorem activeIds_effective (active : String → Bool) :
    system.activeIds (system.effective active) =
      idsOf system.layout
        (system.definitions.entries.filter fun e => active e.1 && takesEffect e.2) := by
  rw [activeIds]
  congr 1
  refine List.filter_congr fun e he => ?_
  rw [effective, OrderedMap.get?_of_mem he, Option.any_some]

theorem hooks_ids : system.hooks.map Prod.fst = idsOf system.layout system.definitions.entries := by
  rw [hooks, List.map_map]
  rfl

theorem exists_name_of_mem_hooks {system : ToggleSystem} {hook : String × String}
    (h : hook ∈ system.hooks) :
    ∃ name, hook.1 = Identifier.ofHook system.layout name hook.2 := by
  obtain ⟨e, -, rfl⟩ := List.mem_map.mp h
  exact ⟨e.1, rfl⟩

/-- The rules of a system as they are read back. -/
theorem stripped_rules : system.rules.map Rule.stripped =
    .block "*" (system.hooks.flatMap fun hook => sideRules false hook.1) ::
      system.hooks.map fun hook => readRule hook.1 hook.2 := by
  have huniversal : (system.hooks.flatMap fun hook => switchOff hook.1).map Rule.stripped =
      system.hooks.flatMap fun hook => sideRules false hook.1 := by
    rw [List.map_flatMap]
    refine List.flatMap_congr fun hook hmem => ?_
    obtain ⟨name, hname⟩ := exists_name_of_mem_hooks hmem
    rw [hname, switchOff_eq, stripped_sideRules]
  have hhooks : (system.hooks.map fun hook => hookRule hook.1 hook.2).map Rule.stripped =
      system.hooks.map fun hook => readRule hook.1 hook.2 := by
    rw [List.map_map]
    refine List.map_congr_left fun hook hmem => ?_
    obtain ⟨name, hname⟩ := exists_name_of_mem_hooks hmem
    rw [Function.comp_apply, hname, stripped_hookRule]
  rw [rules, List.map_cons, Rule.stripped, part_universal, Rule.strippedAll_eq_map, huniversal,
    hhooks]

theorem universal_flatMap_sideRules (on : Bool) (ids : List String) :
    Rule.universal (.block "*" (ids.flatMap (sideRules on))) = ids.flatMap (sides on) := by
  rw [Rule.universal, if_pos rfl, Rule.declarations_flatMap]
  simp only [declarations_sideRules]

/-- What the sheet sets: the universal rule speaks first, and the rules of active hooks over
it. -/
theorem shows_applySheet (active : String → Bool) :
    Shows (Rule.applySheet active system.definitions.keys (system.rules.map Rule.stripped))
      (system.shown (system.effective active)) := by
  have hoff := Shows.empty.insertAll_flatMap false (system.hooks.map Prod.fst)
  have hon := hoff.insertAll_flatMap true (system.activeIds (system.effective active))
  have huniversal := universal_flatMap_sideRules false (system.hooks.map Prod.fst)
  rw [List.flatMap_map] at huniversal
  have hrules := applyRules_eq system.layout active
    (.ofList ((system.hooks.map Prod.fst).flatMap (sides false))) system.definitions.entries
  have hhooks : system.hooks.map (fun hook => readRule hook.1 hook.2) =
      system.definitions.entries.map
        fun e => readRule (Identifier.ofHook system.layout e.1 e.2) e.2 := by
    rw [hooks, List.map_map]
    rfl
  rw [← activeIds_effective] at hrules
  rw [stripped_rules, Rule.applySheet, huniversal, hhooks]
  exact hrules ▸ hon

/-! ## The states of hooks -/

variable {system} {active : String → Bool} {name id : String}

theorem mem_hooks_iff : id ∈ system.hooks.map Prod.fst ↔ ∃ name, system.id? name = some id := by
  constructor
  · intro h
    rw [hooks_ids] at h
    obtain ⟨e, he, rfl⟩ := List.mem_map.mp h
    exact ⟨e.1, id?_of_mem he⟩
  · rintro ⟨name, h⟩
    exact id?_mem_hooks h

/-- With an identifier of its own, a hook's toggle shows the state of the hook. -/
theorem shown_eq (active : String → Bool) (hd : system.DistinctHooks)
    (h : system.id? name = some id) :
    system.shown active id = some (active name) := by
  have hmem : id ∈ system.activeIds active ↔ active name = true := by
    constructor
    · intro hid
      obtain ⟨e, he, rfl⟩ := List.mem_map.mp hid
      obtain ⟨hentry, hactive⟩ := List.mem_filter.mp he
      rw [hd _ _ _ h (id?_of_mem hentry)]
      exact hactive
    · intro hactive
      obtain ⟨definition, hentry, rfl⟩ := exists_mem_of_id? h
      exact List.mem_map.mpr ⟨_, List.mem_filter.mpr ⟨hentry, hactive⟩, rfl⟩
  rw [shown, if_pos (id?_mem_hooks h)]
  cases hactive : active name with
  | true => rw [if_pos (hmem.mpr hactive)]
  | false => rw [if_neg fun hid => by rw [hmem.mp hid] at hactive; cases hactive]

theorem shown_eq_none (active : String → Bool) (h : ∀ name, system.id? name ≠ some id) :
    system.shown active id = none := by
  have hmem : id ∉ system.hooks.map Prod.fst := fun hid =>
    (mem_hooks_iff.mp hid).elim h
  have hactive : id ∉ system.activeIds active := by
    intro hid
    obtain ⟨e, he, rfl⟩ := List.mem_map.mp hid
    exact h e.1 (id?_of_mem (List.mem_filter.mp he).1)
  rw [shown, if_neg hactive, if_neg hmem]

/-- The value that a text gives to a custom property. -/
def customValue (text : String) : Computed := if text = "initial" then none else some text.toList

theorem customValue_sideText (invalid : Bool) :
    customValue (sideText invalid) = blankUnless invalid := by
  cases invalid <;> rfl

/-- The properties that are set have the values that the state of the hooks gives them. -/
theorem Shows.toggleState? {set : OrderedMap String} (h : Shows set (system.shown active))
    (hd : system.DistinctHooks) (key : String) :
    (set.get? key).map customValue = system.toggleState? active key := by
  by_cases hkey : IsSide key
  · obtain ⟨id, hside⟩ := hkey
    by_cases hid : ∃ name, system.id? name = some id
    · obtain ⟨name, hname⟩ := hid
      have hshown := shown_eq active hd hname
      rcases hside with rfl | rfl
      · rw [h.whenTrue, hshown, toggleState?_whenTrue hd hname, Option.map_some, Option.map_some,
          customValue_sideText]
      · rw [h.whenFalse, hshown, toggleState?_whenFalse hd hname, Option.map_some,
          Option.map_some, customValue_sideText]
    · have hnone := not_exists.mp hid
      have hshown := shown_eq_none active hnone
      obtain ⟨htrue, hfalse⟩ := toggleState?_ofId_eq_none active hnone
      rcases hside with rfl | rfl
      · rw [h.whenTrue, hshown, htrue]
        rfl
      · rw [h.whenFalse, hshown, hfalse]
        rfl
  · rw [h.other key hkey, toggleState?_of_not_isSide hkey]
    rfl

/-- Only the toggles of hooks are set. -/
theorem Shows.owned {set : OrderedMap String} (h : Shows set (system.shown active))
    {key value : String} (hvalue : set.get? key = some value) :
    ∃ name id, system.id? name = some id ∧
      (key = (Toggle.ofId id).whenTrue ∨ key = (Toggle.ofId id).whenFalse) := by
  have hkey : IsSide key := by
    by_contra hkey
    rw [h.other key hkey] at hvalue
    cases hvalue
  obtain ⟨id, hside⟩ := hkey
  have hstate : system.shown active id ≠ none := by
    intro hnone
    rcases hside with rfl | rfl
    · rw [h.whenTrue, hnone] at hvalue
      cases hvalue
    · rw [h.whenFalse, hnone] at hvalue
      cases hvalue
  obtain ⟨name, hname⟩ := not_forall_not.mp fun hall => hstate (shown_eq_none active hall)
  exact ⟨name, id, hname, hside⟩

/-! ## Reading the sheet -/

theorem ofText?_sheet
    (h : ∀ hook ∈ system.hooks, ∀ c ∈ hook.2.toList, Rule.isMark c = false) :
    Rule.ofText? system.sheet = some (system.rules.map Rule.stripped) := by
  refine Rule.ofText?_sheet system.layout fun rule hrule => ?_
  rcases List.mem_cons.mp hrule with rfl | hrule
  · refine ⟨isMark_universal, Rule.allLegible_iff.mpr fun rule hrule => ?_⟩
    obtain ⟨hook, hmem, hswitch⟩ := List.mem_flatMap.mp hrule
    obtain ⟨name, hname⟩ := exists_name_of_mem_hooks hmem
    rw [hname] at hswitch
    exact legible_sideRules false rule hswitch
  · obtain ⟨hook, hmem, rfl⟩ := List.mem_map.mp hrule
    obtain ⟨name, hname⟩ := exists_name_of_mem_hooks hmem
    rw [hname]
    exact legible_hookRule system.layout name hook.2 (h hook hmem)

/-- A toggle shows the state of its hook in every state of the hooks exactly when the rule of
the hook takes effect. -/
theorem effective_eq_iff {definition : String}
    (h : system.definitions.get? name = some definition) :
    (∀ active : String → Bool, system.effective active name = active name) ↔
      takesEffect definition = true := by
  simp only [effective, h, Option.any_some]
  constructor
  · intro hall
    exact hall fun _ => true
  · intro heffect active
    rw [heffect, Bool.and_true]

/-- What the sheet sets the toggle of a hook to. -/
theorem get?_applySheet (active : String → Bool) (hd : system.DistinctHooks)
    (hid : system.id? name = some id) :
    let set := Rule.applySheet active system.definitions.keys (system.rules.map Rule.stripped)
    set.get? (Toggle.ofId id).whenTrue = some (sideText (system.effective active name)) ∧
      set.get? (Toggle.ofId id).whenFalse = some (sideText !system.effective active name) := by
  have hshows := shows_applySheet system active
  intro set
  rw [hshows.whenTrue, hshows.whenFalse, shown_eq _ hd hid]
  exact ⟨rfl, rfl⟩

/-- The toggles follow all states of the hooks exactly when every rule takes effect. -/
theorem applySheet_follows_iff (hd : system.DistinctHooks) :
    (∀ (active : String → Bool) name id, system.id? name = some id →
      let set := Rule.applySheet active system.definitions.keys (system.rules.map Rule.stripped)
      set.get? (Toggle.ofId id).whenTrue = some (if active name then "initial" else "") ∧
        set.get? (Toggle.ofId id).whenFalse = some (if active name then "" else "initial")) ↔
      ∀ hook ∈ system.hooks, (Rule.isAtRule hook.2 = true ↔ '&' ∉ hook.2.toList) := by
  constructor
  · intro hall hook hmem
    obtain ⟨e, he, rfl⟩ := List.mem_map.mp hmem
    refine takesEffect_iff.mp ((effective_eq_iff (OrderedMap.get?_of_mem he)).mp fun active => ?_)
    have hid := id?_of_mem he
    have htrue := (hall active e.1 _ hid).1
    rw [(get?_applySheet active hd hid).1] at htrue
    exact sideText_inj.mp (Option.some.inj htrue)
  · intro hall active name id hid
    obtain ⟨definition, hentry, rfl⟩ := exists_mem_of_id? hid
    have heffect := takesEffect_iff.mpr (hall _ (List.mem_map_of_mem hentry))
    have hactive := (effective_eq_iff (OrderedMap.get?_of_mem hentry)).mpr heffect active
    have hset := get?_applySheet active hd hid
    rw [hactive] at hset
    refine ⟨hset.1, hset.2.trans ?_⟩
    cases active name <;> rfl

/-- The sheet is read back from its text as the universal rule and the rules of the hooks, bare
for a definition with `&` and around a universal rule for any other. In every state of the hooks
they set exactly the toggles of the hooks, of each one side and not the other: on are those of
the active hooks whose rules take effect, and compiled styles are evaluated in this state. It is
the state of the hooks themselves exactly when the at-rules among the definitions are those
without an `&`. -/
theorem sheet_drives_toggles_iff (system : ToggleSystem)
    (hids : (system.hooks.map Prod.fst).Nodup)
    (hdefinitions : ∀ hook ∈ system.hooks, ∀ c ∈ hook.2.toList,
      c ≠ '\x7b' ∧ c ≠ '\x7d' ∧ c ≠ ';') :
    ∃ rules, Rule.ofText? system.sheet = some rules ∧
      rules = .block "*" (system.hooks.flatMap fun hook => sideRules false hook.1) ::
        system.hooks.map (fun hook => readRule hook.1 hook.2) ∧
      (∀ active : String → Bool,
        let set := Rule.applySheet active system.definitions.keys rules
        (∀ name id, system.id? name = some id →
          (set.get? (Toggle.ofId id).whenTrue = some (sideText (system.effective active name)) ∧
            set.get? (Toggle.ofId id).whenFalse
              = some (sideText !system.effective active name)) ∧
          (set.get? (Toggle.ofId id).whenTrue = some "initial" ↔
            set.get? (Toggle.ofId id).whenFalse ≠ some "initial")) ∧
        (∀ key value, set.get? key = some value → ∃ name id, system.id? name = some id ∧
          (key = (Toggle.ofId id).whenTrue ∨ key = (Toggle.ofId id).whenFalse)) ∧
        ∀ key, (set.get? key).map customValue =
          system.toggleState? (system.effective active) key) ∧
      ((∀ (active : String → Bool) name id, system.id? name = some id →
          let set := Rule.applySheet active system.definitions.keys rules
          set.get? (Toggle.ofId id).whenTrue = some (if active name then "initial" else "") ∧
            set.get? (Toggle.ofId id).whenFalse = some (if active name then "" else "initial")) ↔
        ∀ hook ∈ system.hooks, (Rule.isAtRule hook.2 = true ↔ '&' ∉ hook.2.toList)) := by
  have hd : system.DistinctHooks := by
    have hnodup : (system.hooks.map Prod.fst ++ List.map Condition.identifier []).Nodup := by
      rw [List.map_nil, List.append_nil]
      exact hids
    exact (Separate.of_nodup hnodup).hooks
  have hmarks : ∀ hook ∈ system.hooks, ∀ c ∈ hook.2.toList, Rule.isMark c = false := by
    intro hook hmem c hc
    simpa [Rule.isMark, and_assoc] using hdefinitions hook hmem c hc
  refine ⟨_, ofText?_sheet hmarks, stripped_rules system, fun active => ⟨?_, ?_, ?_⟩,
    applySheet_follows_iff hd⟩
  · intro name id hid
    have hset := get?_applySheet active hd hid
    refine ⟨hset, ?_⟩
    rw [hset.1, hset.2]
    cases system.effective active name <;> decide
  · exact fun key value hvalue => (shows_applySheet system active).owned hvalue
  · exact (shows_applySheet system active).toggleState? hd

/-- A selector, an at-rule, and an at-rule that is written like a selector. -/
def hoverPrintNesting : ToggleSystem :=
  ofHooks [(":hover", "&:hover"), ("@media print", "@media print"),
    ("@supports selector(&)", "@supports selector(&)")] .pretty defaultFallback

/-- While all hooks are active, the toggle of the query for nested selectors is off. -/
theorem sheet_drives_toggles_hoverPrintNesting :
    (hoverPrintNesting.hooks.map Prod.fst).Nodup ∧
      (∀ hook ∈ hoverPrintNesting.hooks, ∀ c ∈ hook.2.toList,
        c ≠ '\x7b' ∧ c ≠ '\x7d' ∧ c ≠ ';') ∧
      ∃ rules set, Rule.ofText? hoverPrintNesting.sheet = some rules ∧
        Rule.applySheet (fun _ => true) hoverPrintNesting.definitions.keys rules = set ∧
        set.get? "--_hover-im0eso-1" = some "initial" ∧
        set.get? "--_media_print-anktt-1" = some "initial" ∧
        set.get? "--_media_print-anktt-0" = some "" ∧
        set.get? "--_supports_selector___-m8xkr4-1" = some "" ∧
        set.get? "--_supports_selector___-m8xkr4-0" = some "initial" := by
  have hids : (hoverPrintNesting.hooks.map Prod.fst).Nodup := by decide +kernel
  have hmarks :
      (hoverPrintNesting.hooks.any fun hook => hook.2.toList.any Rule.isMark) = false := by
    decide +kernel
  have hdefinitions : ∀ hook ∈ hoverPrintNesting.hooks, ∀ c ∈ hook.2.toList,
      c ≠ '\x7b' ∧ c ≠ '\x7d' ∧ c ≠ ';' := by
    simpa [Rule.isMark, and_assoc] using hmarks
  obtain ⟨rules, htext, -, hstates, -⟩ := sheet_drives_toggles_iff hoverPrintNesting hids
    hdefinitions
  obtain ⟨hhooks, -, -⟩ := hstates fun _ => true
  have hhover := hhooks ":hover" "_hover-im0eso" (by decide +kernel)
  have hprint := hhooks "@media print" "_media_print-anktt" (by decide +kernel)
  have hnesting := hhooks "@supports selector(&)" "_supports_selector___-m8xkr4"
    (by decide +kernel)
  exact ⟨hids, hdefinitions, rules, _, htext, rfl, hhover.1.1, hprint.1.1, hprint.1.2,
    hnesting.1.1, hnesting.1.2⟩

end ToggleSystem

/-! ## The hooks of a registry -/

namespace Hook

/-- The definitions of at-rule hooks are at-rules, and those of selector hooks are not. -/
theorem isAtRule_definition_iff (hook : Hook) :
    Rule.isAtRule hook.definition = true ↔ hook.kind ≠ .selector := by
  obtain ⟨rest, hname⟩ :=
    HookKind.exists_of_named (HookKind.ofName?_eq_some_iff.mp hook.kind_eq)
  cases hkind : hook.kind with
  | selector =>
    rw [definition_of_selector hkind, Rule.isAtRule, String.toList_append]
    exact iff_of_false Bool.false_ne_true fun h => h rfl
  | media =>
    have hne : hook.kind ≠ .selector := by rw [hkind]; decide
    rw [definition_of_ne_selector hne, Rule.isAtRule, hname, hkind]
    exact ⟨fun _ => by decide, fun _ => rfl⟩
  | supports =>
    have hne : hook.kind ≠ .selector := by rw [hkind]; decide
    rw [definition_of_ne_selector hne, Rule.isAtRule, hname, hkind]
    exact ⟨fun _ => by decide, fun _ => rfl⟩

theorem takesEffect_definition_iff (hook : Hook) :
    ToggleSystem.takesEffect hook.definition = true ↔ ¬ hook.Mistakable := by
  rw [ToggleSystem.takesEffect_iff, isAtRule_definition_iff, Mistakable, not_and]
  by_cases hkind : hook.kind = .selector
  · have hmem : '&' ∈ hook.definition.toList := by
      rw [definition_of_selector hkind]
      simp
    exact iff_of_true ⟨fun h => absurd hkind h, fun h => absurd hmem h⟩ fun h => absurd hkind h
  · rw [definition_of_ne_selector hkind]
    exact ⟨fun h hne => h.mp hne, fun h => ⟨h, fun _ => hkind⟩⟩

end Hook

/-- All rules of a registry's sheet take effect exactly when they are the rules that the kinds
of its hooks ask for. -/
theorem Registry.takesEffect_iff_sheet (r : Registry) :
    (∀ hook ∈ r.toggles.hooks, ToggleSystem.takesEffect hook.2 = true) ↔
      r.toggles.sheet =
        r.universalText ++ String.join (r.hooks.map (Hook.ruleText r.layout)) := by
  rw [sheet_toggles, String.append_right_inj, join_texts_eq_iff, hooks_toggles,
    List.forall_mem_map]
  exact forall₂_congr fun hook _ => hook.takesEffect_definition_iff

end HookStyle
