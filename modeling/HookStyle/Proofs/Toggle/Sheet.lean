import HookStyle.Engine.Registry
import HookStyle.Proofs.Css.Written
import HookStyle.Proofs.OrderedMap.Entries
import HookStyle.Proofs.Outcome
import Mathlib.Algebra.Order.BigOperators.Group.List
import Mathlib.Algebra.Order.Group.Nat

/-!
# The style sheet of a registry

The sheet has a universal rule, which switches every hook off, and behind it one rule for
every registered hook, which switches that hook on. A selector hook asks for a rule that holds
its declarations itself, and an at-rule hook for its name around a universal rule.

Which of the two is written is not decided by the kind of the hook but by an `&` in its
definition. A selector's definition always has one. An at-rule's may have one as well: then
the at-rule is written like a selector, with its `&` replaced, and holds bare declarations.

* `names_ofNames`: the registered hooks are the given names, without repetitions.
* `sheet_ofNames`: the text of the sheet, hook by hook.
* `sheet_follows_kinds_iff`: the sheet has the rule of every hook's kind exactly when no
  at-rule hook has an `&`.
-/

namespace HookStyle

open Css

/-! ## The texts of the rules -/

namespace ToggleSystem

/-- The declarations of a toggle that is off. -/
def offText (layout : Layout) (depth : Nat) (id : String) : String :=
  declarationText layout depth ("--" ++ id ++ "-0") "initial"
    ++ declarationText layout depth ("--" ++ id ++ "-1") ""

/-- The declarations of a toggle that is on. -/
def onText (layout : Layout) (depth : Nat) (id : String) : String :=
  declarationText layout depth ("--" ++ id ++ "-0") ""
    ++ declarationText layout depth ("--" ++ id ++ "-1") "initial"

/-- A rule that switches a hook on by itself. -/
def plainText (layout : Layout) (prelude id : String) : String :=
  blockText layout 0 prelude (onText layout 1 id)

/-- A rule that switches a hook on by a universal rule inside it. -/
def wrappingText (layout : Layout) (prelude id : String) : String :=
  blockText layout 0 prelude (blockText layout 1 "*" (onText layout 2 id))

theorem written_switchOff (layout : Layout) (depth : Nat) (id : String) :
    Rule.written layout depth (switchOff id) = offText layout depth id := by
  rw [switchOff, Rule.written_cons, Rule.written_declaration, Rule.written_declaration]
  rfl

theorem written_switchOn (layout : Layout) (depth : Nat) (id : String) :
    Rule.written layout depth (switchOn id) = onText layout depth id := by
  rw [switchOn, Rule.written_cons, Rule.written_declaration, Rule.written_declaration]
  rfl

theorem isSelector_iff {definition : String} :
    isSelector definition = true ↔ '&' ∈ definition.toList := by
  rw [isSelector, List.contains_iff_mem]

theorem written_hookRule (layout : Layout) (id definition : String) :
    Rule.written layout 0 [hookRule id definition] =
      if '&' ∈ definition.toList then plainText layout (selector definition) id
      else wrappingText layout definition id := by
  rw [hookRule]
  by_cases h : '&' ∈ definition.toList
  · rw [if_pos (isSelector_iff.mpr h), if_pos h, Rule.written_block, written_switchOn]
    rfl
  · rw [if_neg (isSelector_iff.not.mpr h), if_neg h, Rule.written_block, Rule.written_block,
      written_switchOn]
    rfl

theorem sheet_eq (system : ToggleSystem) :
    system.sheet =
      blockText system.layout 0 "*"
          (String.join (system.hooks.map fun h => offText system.layout 1 h.1))
        ++ String.join (system.hooks.map fun h =>
          if '&' ∈ h.2.toList then plainText system.layout (selector h.2) h.1
          else wrappingText system.layout h.2 h.1) := by
  rw [sheet, Rule.sheet_eq_written, rules, Rule.written_cons, Rule.written_block,
    Rule.written_flatMap, Rule.written_map]
  simp only [written_switchOff, written_hookRule]

/-- The universal rule that a wrapping rule has inside it makes it the longer one. -/
theorem length_plainText_lt (layout : Layout) (prelude id : String) :
    (plainText layout (selector prelude) id).length < (wrappingText layout prelude id).length := by
  simp only [plainText, wrappingText, blockText, onText, declarationText, selector, Layout.indent,
    String.length_append, String.length_map]
  have hstar : ("*" : String).length = 1 := rfl
  omega

end ToggleSystem

/-! ## Kinds -/

namespace Hook

def id (layout : Layout) (hook : Hook) : String :=
  Identifier.ofHook layout hook.name hook.definition

/-- The text of the rule that the kind of a hook asks for. In a selector `&` is the styled
element, which any element may be. -/
def ruleText (layout : Layout) (hook : Hook) : String :=
  if hook.kind = .selector then
    ToggleSystem.plainText layout ("*" ++ ToggleSystem.selector hook.name) (hook.id layout)
  else ToggleSystem.wrappingText layout hook.name (hook.id layout)

/-- An at-rule that reads like a selector. -/
def Mistakable (hook : Hook) : Prop := hook.kind ≠ .selector ∧ '&' ∈ hook.name.toList

instance (hook : Hook) : Decidable hook.Mistakable :=
  inferInstanceAs (Decidable (hook.kind ≠ .selector ∧ '&' ∈ hook.name.toList))

/-- The text of the rule that a hook has. -/
def writtenText (layout : Layout) (hook : Hook) : String :=
  if hook.Mistakable then
    ToggleSystem.plainText layout (ToggleSystem.selector hook.name) (hook.id layout)
  else hook.ruleText layout

theorem definition_of_selector {hook : Hook} (h : hook.kind = .selector) :
    hook.definition = "&" ++ hook.name := by
  rw [definition, h]

theorem definition_of_ne_selector {hook : Hook} (h : hook.kind ≠ .selector) :
    hook.definition = hook.name := by
  rw [definition]
  split
  next hkind => exact absurd hkind h
  all_goals rfl

/-- The rule that the definition of a hook leads to. -/
theorem text_of_definition (layout : Layout) (hook : Hook) :
    (if '&' ∈ hook.definition.toList then
        ToggleSystem.plainText layout (ToggleSystem.selector hook.definition) (hook.id layout)
      else ToggleSystem.wrappingText layout hook.definition (hook.id layout)) =
      hook.writtenText layout := by
  by_cases hkind : hook.kind = .selector
  · have hmem : '&' ∈ hook.definition.toList := by
      rw [definition_of_selector hkind]
      simp
    have hselector : ToggleSystem.selector hook.definition =
        "*" ++ ToggleSystem.selector hook.name := by
      rw [definition_of_selector hkind]
      apply String.toList_injective
      simp [ToggleSystem.selector]
    rw [if_pos hmem, hselector, writtenText, if_neg fun h => h.1 hkind, ruleText, if_pos hkind]
  · rw [definition_of_ne_selector hkind, writtenText, ruleText, if_neg hkind]
    by_cases hmem : '&' ∈ hook.name.toList
    · rw [if_pos hmem, if_pos ⟨hkind, hmem⟩]
    · rw [if_neg hmem, if_neg fun h => hmem h.2]

/-- The rule that a mistakable hook has is shorter than the one it should have. -/
theorem length_writtenText_lt {hook : Hook} (layout : Layout) (h : hook.Mistakable) :
    (hook.writtenText layout).length < (hook.ruleText layout).length := by
  rw [writtenText, if_pos h, ruleText, if_neg h.1]
  exact ToggleSystem.length_plainText_lt layout hook.name (hook.id layout)

theorem writtenText_of_not_mistakable {hook : Hook} (layout : Layout) (h : ¬ hook.Mistakable) :
    hook.writtenText layout = hook.ruleText layout := if_neg h

end Hook

/-! ## The sheet of registered hooks -/

namespace Registry

theorem hooksOf_eq_ok {names : List String} {hooks : List Hook}
    (h : hooksOf names = .ok hooks) : hooks.map Hook.name = names := by
  induction names generalizing hooks with
  | nil =>
    cases h
    rfl
  | cons name names ih =>
    rw [hooksOf] at h
    split at h
    next => cases h
    next hook hname =>
      obtain ⟨rest, hrest, rfl⟩ := Outcome.map_eq_ok.mp h
      rw [List.map_cons, ih hrest, Hook.ofName?_eq_some_iff.mp hname]

theorem names_dropRepeated (seen : List String) (hooks : List Hook) :
    (dropRepeated seen hooks).map Hook.name =
      ((hooks.map Hook.name).filter (· ∉ seen)).eraseDups := by
  induction hooks generalizing seen with
  | nil => rfl
  | cons hook hooks ih =>
    rw [dropRepeated, List.map_cons]
    by_cases h : hook.name ∈ seen
    · rw [if_pos h, ih, List.filter_cons_of_neg (by simpa using h)]
    · rw [if_neg h, List.map_cons, ih, List.filter_cons_of_pos (by simpa using h),
        List.eraseDups_cons, List.filter_filter]
      congr 2
      refine List.filter_congr fun name _ => ?_
      rw [Bool.eq_iff_iff]
      simp

theorem names_ofNames {names : List String} {layout : Layout} {fallback : String} {r : Registry}
    (hr : ofNames names layout fallback = .ok r) : r.hooks.map Hook.name = names.eraseDups := by
  obtain ⟨hooks, hhooks, rfl⟩ := Outcome.map_eq_ok.mp hr
  change (dropRepeated [] hooks).map Hook.name = _
  rw [names_dropRepeated, hooksOf_eq_ok hhooks]
  simp

theorem entries_toggles (r : Registry) :
    r.toggles.definitions.entries = r.hooks.map fun hook => (hook.name, hook.definition) := by
  have hkeys : (Entries.keys (r.hooks.map fun hook => (hook.name, hook.definition))).Nodup := by
    rw [Entries.keys, List.map_map]
    exact r.names_nodup
  exact OrderedMap.entries_ofList hkeys

theorem hooks_toggles (r : Registry) :
    r.toggles.hooks = r.hooks.map fun hook => (hook.id r.layout, hook.definition) := by
  rw [ToggleSystem.hooks, entries_toggles, List.map_map]
  rfl

/-- The text of the universal rule, which switches all hooks off. -/
def universalText (r : Registry) : String :=
  blockText r.layout 0 "*"
    (String.join (r.hooks.map fun hook => ToggleSystem.offText r.layout 1 (hook.id r.layout)))

theorem sheet_toggles (r : Registry) :
    r.toggles.sheet = r.universalText ++ String.join (r.hooks.map (Hook.writtenText r.layout)) := by
  rw [ToggleSystem.sheet_eq, hooks_toggles, List.map_map, List.map_map]
  congr 2
  exact List.map_congr_left fun hook _ => Hook.text_of_definition r.layout hook

/-- Texts of which none is longer than its counterpart are different in all when one is. -/
theorem join_ne_join {α : Type} {f g : α → String} {xs : List α}
    (hle : ∀ x ∈ xs, (f x).length ≤ (g x).length) (hlt : ∃ x ∈ xs, (f x).length < (g x).length) :
    String.join (xs.map f) ≠ String.join (xs.map g) := by
  intro h
  have hlength := congrArg String.length h
  rw [String.length_join, String.length_join, List.map_map, List.map_map] at hlength
  exact Nat.ne_of_lt (List.sum_lt_sum _ _ hle hlt) hlength

theorem join_texts_eq_iff (layout : Layout) (hooks : List Hook) :
    String.join (hooks.map (Hook.writtenText layout)) =
        String.join (hooks.map (Hook.ruleText layout)) ↔
      ∀ hook ∈ hooks, ¬ hook.Mistakable := by
  constructor
  · intro h hook hmem hmistakable
    refine join_ne_join (fun g _ => ?_)
      ⟨hook, hmem, Hook.length_writtenText_lt layout hmistakable⟩ h
    by_cases hg : g.Mistakable
    · exact (Hook.length_writtenText_lt layout hg).le
    · rw [Hook.writtenText_of_not_mistakable layout hg]
  · intro h
    rw [List.map_congr_left fun hook hmem =>
      Hook.writtenText_of_not_mistakable layout (h hook hmem)]

/-- The sheet of a registry is the universal rule and one rule for each of the given names, in
the order of their first mention. The rules are those of the hooks' kinds, the at-rules with
their names as they are, exactly when no at-rule hook has an `&` in its name. -/
theorem sheet_follows_kinds_iff {names : List String} {layout : Layout} {fallback : String}
    {r : Registry} (hr : ofNames names layout fallback = .ok r) :
    r.hooks.map Hook.name = names.eraseDups ∧
      r.toggles.sheet =
        r.universalText ++ String.join (r.hooks.map (Hook.writtenText layout)) ∧
      (r.toggles.sheet = r.universalText ++ String.join (r.hooks.map (Hook.ruleText layout)) ↔
        ∀ hook ∈ r.hooks, hook.kind ≠ .selector → '&' ∉ hook.name.toList) := by
  have hlayout : r.layout = layout := by
    obtain ⟨hooks, -, rfl⟩ := Outcome.map_eq_ok.mp hr
    rfl
  have hsheet := sheet_toggles r
  rw [hlayout] at hsheet
  refine ⟨names_ofNames hr, hsheet, ?_⟩
  rw [hsheet, String.append_right_inj, join_texts_eq_iff]
  simp only [Hook.Mistakable, not_and]

/-- One feature query, which asks whether selectors may be nested. -/
def nestingQuery : Registry where
  hooks := [⟨"@supports selector(&)", .supports, by decide +kernel⟩]
  names_nodup := List.nodup_singleton _
  layout := .compact
  fallback := ToggleSystem.defaultFallback

/-- The query is written with another selector, and nothing is wrapped. -/
theorem sheet_nestingQuery :
    ofNames ["@supports selector(&)", "@supports selector(&)"] .compact
        ToggleSystem.defaultFallback = .ok nestingQuery ∧
      nestingQuery.toggles.sheet =
        "*\x7b--m8xkr4-0:initial;--m8xkr4-1:;\x7d" ++
          "@supports selector(*)\x7b--m8xkr4-0:;--m8xkr4-1:initial;\x7d" ∧
      nestingQuery.toggles.sheet ≠
        "*\x7b--m8xkr4-0:initial;--m8xkr4-1:;\x7d" ++
          "@supports selector(&)\x7b*\x7b--m8xkr4-0:;--m8xkr4-1:initial;\x7d\x7d" := by
  have hr : ofNames ["@supports selector(&)", "@supports selector(&)"] .compact
      ToggleSystem.defaultFallback = .ok nestingQuery := rfl
  obtain ⟨-, hsheet, hiff⟩ := sheet_follows_kinds_iff hr
  have huniversal : nestingQuery.universalText =
      "*\x7b--m8xkr4-0:initial;--m8xkr4-1:;\x7d" := by decide +kernel
  have hwritten : String.join (nestingQuery.hooks.map (Hook.writtenText .compact)) =
      "@supports selector(*)\x7b--m8xkr4-0:;--m8xkr4-1:initial;\x7d" := by decide +kernel
  have hkind : String.join (nestingQuery.hooks.map (Hook.ruleText .compact)) =
      "@supports selector(&)\x7b*\x7b--m8xkr4-0:;--m8xkr4-1:initial;\x7d\x7d" := by
    decide +kernel
  rw [huniversal, hkind] at hiff
  rw [huniversal, hwritten] at hsheet
  exact ⟨hr, hsheet, fun h =>
    hiff.mp h _ (List.mem_singleton_self _) (by decide) (by decide +kernel)⟩

end Registry

end HookStyle
