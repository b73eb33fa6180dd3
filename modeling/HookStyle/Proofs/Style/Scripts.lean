import HookStyle.Proofs.Css.Reading
import HookStyle.Proofs.Css.Spelling
import HookStyle.Proofs.Hook.Identifier
import HookStyle.Proofs.Style.Animations

/-!
# The scripts of animations

The block of an animation has one declaration for every property of every frame, under the
name in its CSS form. The frames keep their order, so that an offset may come twice, and a
frame may have nothing in it. Read back, the block is the script of the animation: its name,
and the offsets with what is declared at them.

* `hyphens_trimmed`, `hyphens_unmarked`: the CSS form of a name has no marks or white space
  that the name does not have.
* `ofText?_rule`: the text of a block is read back as a script, from both layouts alike.
* `script_readsBack`: so are the blocks that a store writes, at any later time.
-/

namespace HookStyle

open Css

/-! ## The CSS form of names -/

namespace Css.Property

open Evaluation Rule

variable {c : Char} {cs : List Char}

theorem isAlphanum_toLower (h : c.isUpper = true) : c.toLower.isAlphanum = true := by
  have hrange := isUpper_iff.mp h
  have hlower := toNat_toLower h
  have hsmall : c.toLower.isLower = true := isLower_iff.mpr (by omega)
  change (c.toLower.isUpper || c.toLower.isLower || c.toLower.isDigit) = true
  rw [hsmall, Bool.or_true, Bool.true_or]

theorem isMark_of_isAlphanum (h : c.isAlphanum = true) : isMark c = false ∧ c ≠ ':' := by
  rw [isMark, Bool.or_eq_false_iff, Bool.or_eq_false_iff, beq_eq_false_iff_ne,
    beq_eq_false_iff_ne, beq_eq_false_iff_ne]
  refine ⟨⟨⟨?_, ?_⟩, ?_⟩, ?_⟩
  all_goals
    rintro rfl
    revert h
    decide

theorem isBlank_of_isAlphanum (h : c.isAlphanum = true) : Text.isBlank c = false :=
  (isNameChar_iff.mp (isNameChar_of_isAlphanum h)).2.2.2

/-- A CSS form has only the characters of the name, dashes and small letters. -/
theorem mem_splitCapitals (h : c ∈ splitCapitals cs) :
    c ∈ cs ∨ c = '-' ∨ c.isAlphanum = true := by
  obtain ⟨d, hd, h⟩ := List.mem_flatMap.mp h
  cases hupper : d.isUpper with
  | false =>
    rw [hupper, if_neg Bool.false_ne_true, List.mem_singleton] at h
    exact Or.inl (h ▸ hd)
  | true =>
    rw [hupper, if_pos rfl, List.mem_cons, List.mem_singleton] at h
    rcases h with rfl | rfl
    · exact Or.inr (Or.inl rfl)
    · exact Or.inr (Or.inr (isAlphanum_toLower hupper))

theorem mem_hyphens (h : c ∈ hyphens cs) : c ∈ cs ∨ c = '-' ∨ c.isAlphanum = true := by
  unfold hyphens at h
  split at h
  · exact Or.inl h
  · split at h
    · rcases List.mem_cons.mp h with rfl | h
      · exact Or.inr (Or.inl rfl)
      · exact mem_splitCapitals h
    · exact mem_splitCapitals h

theorem hyphens_unmarked (h : ∀ c ∈ cs, isMark c = false ∧ c ≠ ':') :
    ∀ c ∈ hyphens cs, isMark c = false ∧ c ≠ ':' := by
  intro c hc
  rcases mem_hyphens hc with hmem | rfl | halphanum
  · exact h c hmem
  · decide
  · exact isMark_of_isAlphanum halphanum

theorem isBlank_toLower (h : Text.isBlank c = false) : Text.isBlank c.toLower = false := by
  cases hupper : c.isUpper with
  | false => rwa [toLower_of_isUpper_eq_false hupper]
  | true => exact isBlank_of_isAlphanum (isAlphanum_toLower hupper)

theorem head?_splitCapitals (cs : List Char) :
    (splitCapitals cs).head? = cs.head?.map fun c => if c.isUpper then '-' else c := by
  cases cs with
  | nil => rfl
  | cons c cs =>
    cases h : c.isUpper with
    | false =>
      rw [splitCapitals_cons_of_isUpper_eq_false h]
      simp [h]
    | true =>
      rw [splitCapitals_cons_of_isUpper h]
      simp [h]

theorem getLast?_splitCapitals (cs : List Char) :
    (splitCapitals cs).getLast? = cs.getLast?.map Char.toLower := by
  induction cs using List.reverseRecOn with
  | nil => rfl
  | append_singleton cs c ih =>
    rw [List.getLast?_concat, splitCapitals, List.flatMap_append, List.flatMap_singleton]
    cases h : c.isUpper with
    | false => simp [toLower_of_isUpper_eq_false h]
    | true => simp

/-- Splitting puts no white space at either end. -/
theorem splitCapitals_trimmed (h : Trimmed cs) : Trimmed (splitCapitals cs) := by
  constructor
  · intro c hc
    rw [head?_splitCapitals] at hc
    obtain ⟨d, hd, rfl⟩ := Option.map_eq_some_iff.mp hc
    split
    · decide
    · exact h.head d hd
  · intro c hc
    rw [getLast?_splitCapitals] at hc
    obtain ⟨d, hd, rfl⟩ := Option.map_eq_some_iff.mp hc
    exact isBlank_toLower (h.last d hd)

theorem hyphens_trimmed (h : Trimmed cs) : Trimmed (hyphens cs) := by
  unfold hyphens
  split
  · exact h
  · split
    · obtain ⟨hhead, hlast⟩ := splitCapitals_trimmed h
      refine ⟨fun c hc => ?_, fun c hc => ?_⟩
      · obtain rfl := Option.some.inj hc
        decide
      · cases hs : splitCapitals cs with
        | nil =>
          rw [hs] at hc
          obtain rfl := Option.some.inj hc
          decide
        | cons d ds =>
          rw [hs, List.getLast?_cons_cons, ← hs] at hc
          exact hlast c hc
    · exact splitCapitals_trimmed h

end Css.Property

/-! ## Scripts -/

/-- What the block of an animation shows: a name, and at each offset the properties that are
declared, as they are written. -/
structure Script where
  name : String
  frames : List (String × List (String × String))
  deriving DecidableEq, Repr

namespace Script

open Rule

/-- A declared property and its value. -/
def declared? : Rule → Option (String × String)
  | .declaration name value => some (name, value)
  | .block _ _ => none

/-- An offset and the properties that are declared at it. -/
def frame? : Rule → Option (String × List (String × String))
  | .declaration _ _ => none
  | .block offset body => (body.mapM declared?).map fun declarations => (offset, declarations)

/-- What the block of an animation starts with. -/
def keyword : List Char := ['@', 'k', 'e', 'y', 'f', 'r', 'a', 'm', 'e', 's']

/-- The script of one block, with the name behind the keyword. -/
def ofRules? : List Rule → Option Script
  | [.block prelude body] =>
    (Text.stripStart? keyword prelude.toList).bind fun name =>
      (body.mapM frame?).map fun frames => ⟨part name, frames⟩
  | _ => none

/-- Reads the text of a block. -/
def ofText? (s : String) : Option Script := (Rule.ofText? s).bind ofRules?

end Script

namespace Animation

open Rule Property

/-- The script of an animation under a name: every frame at its place, with all its properties
in order. -/
def script (animation : Animation) (name : String) : Script :=
  ⟨name, animation.map fun frame =>
    (frame.offset, frame.properties.entries.map fun e => (hyphenate e.1, e.2.render e.1))⟩

/-- Text that can be told from what stands around it: there are no marks in it and no white
space at its ends. -/
structure Clear (s : String) : Prop where
  unmarked : ∀ c ∈ s.toList, isMark c = false
  trimmed : Trimmed s.toList

instance (s : String) : Decidable (Clear s) :=
  decidable_of_iff (s.toList.any isMark = false ∧ Trimmed s.toList)
    ⟨fun h => ⟨isMark_eq_false_of_any h.1, h.2⟩,
      fun h => ⟨List.any_eq_false.mpr fun c hc => by simp [h.unmarked c hc], h.trimmed⟩⟩

/-- All texts of an animation are clear, and no property has a colon in its name. -/
def Legible (animation : Animation) : Prop :=
  ∀ frame ∈ animation, Clear frame.offset ∧ ∀ e ∈ frame.properties.entries,
    Clear e.1 ∧ ':' ∉ e.1.toList ∧ Clear (e.2.render e.1)

instance (animation : Animation) : Decidable animation.Legible :=
  inferInstanceAs (Decidable (∀ frame ∈ animation, Clear frame.offset ∧
    ∀ e ∈ frame.properties.entries, Clear e.1 ∧ ':' ∉ e.1.toList ∧ Clear (e.2.render e.1)))

variable {animation : Animation} {name : String}

theorem mapM_map_eq_some {α β γ : Type} {f : α → β} {read : β → Option γ} {g : α → γ}
    (h : ∀ x, read (f x) = some (g x)) (xs : List α) :
    (xs.map f).mapM read = some (xs.map g) := by
  have hread : read ∘ f = fun x => pure (g x) := funext h
  rw [List.mapM_map, hread, List.mapM_pure]
  rfl

theorem Clear.hyphenate_clear {p : String} (h : Clear p) (hcolon : ':' ∉ p.toList) :
    (∀ c ∈ (hyphenate p).toList, isMark c = false ∧ c ≠ ':') ∧ Trimmed (hyphenate p).toList := by
  rw [hyphenate, String.toList_ofList]
  exact ⟨hyphens_unmarked fun c hc => ⟨h.unmarked c hc, fun heq => hcolon (heq ▸ hc)⟩,
    hyphens_trimmed h.trimmed⟩

theorem legible_rule (h : animation.Legible) (hname : ∀ c ∈ name.toList, isMark c = false) :
    (animation.rule name).Legible := by
  have hprelude : ∀ c ∈ ("@keyframes " ++ name).toList, isMark c = false := by
    intro c hc
    rw [String.toList_append, List.mem_append] at hc
    rcases hc with hc | hc
    · exact isMark_eq_false_of_any (by decide) c hc
    · exact hname c hc
  rw [rule, Rule.Legible, allLegible_iff, List.forall_mem_map]
  refine ⟨hprelude, fun frame hframe => ?_⟩
  obtain ⟨hoffset, hproperties⟩ := h frame hframe
  rw [Rule.Legible, allLegible_iff, List.forall_mem_map]
  refine ⟨hoffset.unmarked, fun e he => ?_⟩
  obtain ⟨hp, hcolon, hvalue⟩ := hproperties e he
  rw [Rule.Legible]
  exact ⟨(hp.hyphenate_clear hcolon).1, hvalue.unmarked⟩

/-- Only the name of a legible animation may have white space at its ends. -/
theorem stripped_rule (h : animation.Legible) : (animation.rule name).stripped =
    .block (part ("@keyframes " ++ name).toList) (animation.map fun frame =>
      .block frame.offset <| frame.properties.entries.map fun e =>
        .declaration (hyphenate e.1) (e.2.render e.1)) := by
  rw [rule, stripped, strippedAll_eq_map, List.map_map]
  refine congrArg _ (List.map_congr_left fun frame hframe => ?_)
  obtain ⟨hoffset, hproperties⟩ := h frame hframe
  rw [Function.comp_apply, stripped, strippedAll_eq_map, List.map_map, hoffset.trimmed.part_eq]
  refine congrArg _ (List.map_congr_left fun e he => ?_)
  obtain ⟨hp, hcolon, hvalue⟩ := hproperties e he
  rw [Function.comp_apply, stripped, (hp.hyphenate_clear hcolon).2.part_eq, hvalue.trimmed.part_eq]

theorem stripStart?_part (name : String) :
    Text.stripStart? Script.keyword (part ("@keyframes " ++ name).toList).toList =
      some ((' ' :: name.toList).rdropWhile Text.isBlank) := by
  have hkeyword : Trimmed Script.keyword := by decide
  have htext : ("@keyframes " ++ name).toList = Script.keyword ++ ' ' :: name.toList := by
    rw [String.toList_append]
    rfl
  rw [part, htext, hkeyword.trim_append (List.cons_ne_nil _ _), String.toList_ofList,
    Text.stripStart?_append]

/-- The text of an animation reads back as its script in both layouts. -/
theorem ofText?_rule (h : animation.Legible) (hname : ∀ c ∈ name.toList, isMark c = false)
    (layout : Layout) :
    Script.ofText? ((animation.rule name).text layout)
      = some (animation.script (part name.toList)) := by
  have hframes : (animation.map fun frame => Rule.block frame.offset <|
      frame.properties.entries.map fun e => .declaration (hyphenate e.1) (e.2.render e.1)).mapM
        Script.frame? = some (animation.script (part name.toList)).frames := by
    refine mapM_map_eq_some (fun frame => ?_) animation
    have hdeclared : (frame.properties.entries.map fun e =>
        Rule.declaration (hyphenate e.1) (e.2.render e.1)).mapM Script.declared? =
          some (frame.properties.entries.map fun e => (hyphenate e.1, e.2.render e.1)) :=
      mapM_map_eq_some (fun e => by rfl) _
    rw [Script.frame?, hdeclared, Option.map_some]
  have hpart : part ((' ' :: name.toList).rdropWhile Text.isBlank) = part name.toList := by
    rw [part, trim_rdropWhile, Evaluation.trim_cons_blank (by decide), part]
  rw [Script.ofText?, ofText?_text layout (legible_rule h hname), stripped_rule h,
    Option.bind_some, Script.ofRules?, stripStart?_part, Option.bind_some, hframes,
    Option.map_some, hpart]
  rfl

/-- The names of a store have an underscore in front and a digit at the end. -/
theorem clear_nameOf {namePart : String} (h : ∀ c ∈ namePart.toList, isMark c = false) (n : Nat) :
    Clear (AnimationStore.nameOf namePart n) := by
  have hdigit : ∀ c ∈ (toString n).toList, c.isAlphanum = true := by
    intro c hc
    rw [Char.isAlphanum, Text.isDigit_of_mem_toString hc, Bool.or_true]
  refine ⟨fun c hc => ?_, ⟨fun c hc => ?_, fun c hc => ?_⟩⟩
  · simp only [AnimationStore.nameOf, String.toList_append, List.mem_append] at hc
    rcases hc with ((hc | hc) | hc) | hc
    · exact isMark_eq_false_of_any (by decide) c hc
    · exact h c hc
    · exact isMark_eq_false_of_any (by decide) c hc
    · exact (isMark_of_isAlphanum (hdigit c hc)).1
  · have hhead : (AnimationStore.nameOf namePart n).toList.head? = some '_' := by
      simp [AnimationStore.nameOf]
    rw [hhead] at hc
    obtain rfl := Option.some.inj hc
    decide
  · rw [AnimationStore.toList_nameOf, List.getLast?_append_of_ne_nil _ (List.cons_ne_nil _ _)] at hc
    rcases List.mem_cons.mp (List.mem_of_getLast? hc) with rfl | hc
    · decide
    · exact isBlank_of_isAlphanum (hdigit c hc)

/-- Whatever an animation has in it, when its texts are clear, its block is read back as its
script, from both layouts alike: under a clear name, and under any name without marks but for
the white space at its ends. So are the blocks that a store writes, whatever the store was used
for before and is used for later. -/
theorem script_readsBack (h : animation.Legible) :
    (∀ name, Clear name → ∀ layout,
      Script.ofText? ((animation.rule name).text layout) = some (animation.script name)) ∧
    (∀ name : String, (∀ c ∈ name.toList, isMark c = false) → ∀ layout,
      Script.ofText? ((animation.rule name).text layout)
        = some (animation.script (part name.toList))) ∧
    ∀ store : AnimationStore, (∀ c ∈ store.namePart.toList, isMark c = false) → ∀ later,
      ∃ block,
        ((store.register animation).2.after later).block? (store.register animation).1
            = some block ∧
          Script.ofText? block = some (animation.script (store.register animation).1) := by
  have hclear : ∀ name, Clear name → ∀ layout,
      Script.ofText? ((animation.rule name).text layout) = some (animation.script name) := by
    intro name hname layout
    rw [ofText?_rule h hname.unmarked, hname.trimmed.part_eq]
  refine ⟨hclear, fun name hname layout => ofText?_rule h hname layout,
    fun store hpart later => ?_⟩
  -- the number of the name has been passed over, so the block is never written again
  have hlt : store.next < (store.register animation).2.next := Nat.lt_succ_self _
  have hkept := AnimationStore.block?_after_of_lt hlt later
  rw [AnimationStore.namePart_register, ← AnimationStore.register_name store animation,
    AnimationStore.block?_register, if_pos rfl] at hkept
  exact ⟨_, hkept, hclear _ (clear_nameOf hpart _) _⟩

/-- Three frames: the last one has the offset of the first, and the second one has nothing. -/
def pulse : Animation :=
  [⟨"0%", .ofList [("backgroundColor", .text "red"), ("WebkitTransform", .text "scale(1)")]⟩,
    ⟨"50%", .ofList []⟩, ⟨"0%", .ofList [("content", .text "")]⟩]

theorem script_readsBack_pulse : pulse.Legible ∧ Clear "pulse" ∧ ∀ layout,
    Script.ofText? ((pulse.rule "pulse").text layout) = some ⟨"pulse",
      [("0%", [("background-color", "red"), ("-webkit-transform", "scale(1)")]), ("50%", []),
        ("0%", [("content", "")])]⟩ := by
  have hlegible : pulse.Legible := by decide +kernel
  have hname : Clear "pulse" := by decide +kernel
  have hscript : pulse.script "pulse" = ⟨"pulse",
      [("0%", [("background-color", "red"), ("-webkit-transform", "scale(1)")]), ("50%", []),
        ("0%", [("content", "")])]⟩ := by decide +kernel
  obtain ⟨hclear, -⟩ := script_readsBack hlegible
  refine ⟨hlegible, hname, fun layout => ?_⟩
  rw [hclear "pulse" hname layout, hscript]

end Animation

end HookStyle
