import HookStyle.Proofs.Chain.Soundness
import HookStyle.Proofs.Evaluation.References

/-!
# What helpers refer to

A helper of a compound condition refers to the toggles of its operands. The toggle of a hook
is driven by the style sheet; the two sides of a compound operand are helpers themselves, and
these come first, whatever conditions are nested in one another.

* `layered_compounds`: the compound conditions inside a condition come after those inside
  their operands.
* `reaches_toggle`: the two sides of a condition's toggle belong to a hook, or are helpers of
  the compound conditions inside.
* `known_of_mem_pair`: what the helpers of one of several conditions refer to is known where
  they stand.
* `known_of_mem_links`, `mem_references_chainExpression`: what the text of a property refers
  to.
-/

namespace HookStyle

open Css Evaluation

/-! ## Lists that are cut at an entry -/

theorem exists_of_flatMap_eq_append {α β : Type} {f : α → List β} {as : List α} {b : β}
    {front back : List β} (h : as.flatMap f = front ++ b :: back) :
    ∃ before a after inner outer, as = before ++ a :: after ∧ f a = inner ++ b :: outer ∧
      front = before.flatMap f ++ inner := by
  induction as generalizing front with
  | nil => cases front <;> cases h
  | cons a as ih =>
    rw [List.flatMap_cons] at h
    rcases List.append_eq_append_iff.mp h with ⟨rest, rfl, hrest⟩ | ⟨rest, ha, hrest⟩
    · obtain ⟨before, c, after, inner, outer, rfl, hc, rfl⟩ := ih hrest
      exact ⟨a :: before, c, after, inner, outer, rfl, hc, by simp⟩
    · cases rest with
      | nil =>
        have hnil : as.flatMap f = [] ++ b :: back := hrest.symm
        obtain ⟨before, c, after, inner, outer, rfl, hc, hfront⟩ := ih hnil
        refine ⟨a :: before, c, after, inner, outer, rfl, hc, ?_⟩
        rw [List.append_nil] at ha
        rw [List.flatMap_cons, List.append_assoc, ← hfront, List.append_nil, ha]
      | cons d rest =>
        obtain ⟨rfl, -⟩ := List.cons.inj hrest
        exact ⟨[], a, as, front, rest, rfl, ha, rfl⟩

theorem eq_or_exists_of_concat_eq {α : Type} {as front back : List α} {a b : α}
    (h : as ++ [a] = front ++ b :: back) :
    (b = a ∧ front = as) ∨ ∃ rest, as = front ++ b :: rest := by
  cases back using List.reverseRecOn with
  | nil =>
    obtain ⟨rfl, hlast⟩ := List.append_inj' h rfl
    exact Or.inl ⟨(List.cons.inj hlast).1.symm, rfl⟩
  | append_singleton rest c =>
    rw [← List.cons_append, ← List.append_assoc] at h
    exact Or.inr ⟨rest, (List.append_inj' h rfl).1⟩

/-! ## The order of compound conditions -/

def Condition.operands : Condition → List Condition
  | hook _ => []
  | all cs => cs
  | any cs => cs
  | not c => [c]

/-- Every condition comes after the compound conditions inside its operands. -/
def Layered (cs : List Condition) : Prop :=
  ∀ before c after, cs = before ++ c :: after →
    ∀ d ∈ Condition.compoundsOf c.operands, d ∈ before

theorem layered_flatMap {α : Type} {f : α → List Condition} {as : List α}
    (h : ∀ a ∈ as, Layered (f a)) : Layered (as.flatMap f) := by
  intro front c back hsplit d hd
  obtain ⟨before, a, after, inner, outer, rfl, ha, rfl⟩ := exists_of_flatMap_eq_append hsplit
  exact List.mem_append_right _ (h a (by simp) inner c outer ha d hd)

theorem layered_concat {cs : List Condition} {c : Condition} (h : Layered cs)
    (hc : ∀ d ∈ Condition.compoundsOf c.operands, d ∈ cs) : Layered (cs ++ [c]) := by
  intro before d after hsplit
  rcases eq_or_exists_of_concat_eq hsplit with ⟨rfl, rfl⟩ | ⟨rest, hrest⟩
  · exact hc
  · exact h before d rest hrest

namespace Condition

/-- A conjunction or a disjunction of two or more operands. -/
def IsCompound (c : Condition) : Prop :=
  ∃ d e ds, c = all (d :: e :: ds) ∨ c = any (d :: e :: ds)

theorem compounds_cases (c : Condition) : c.compounds = compoundsOf c.operands ∨
    c.compounds = compoundsOf c.operands ++ [c] ∧ c.IsCompound := by
  cases c with
  | hook name => exact Or.inl rfl
  | not c => exact Or.inl (List.append_nil _).symm
  | all cs =>
    rcases cs with _ | ⟨d, _ | ⟨e, ds⟩⟩
    · exact Or.inl rfl
    · exact Or.inl (List.append_nil _)
    · exact Or.inr ⟨compounds_all_of_two_le (by simp), d, e, ds, Or.inl rfl⟩
  | any cs =>
    rcases cs with _ | ⟨d, _ | ⟨e, ds⟩⟩
    · exact Or.inl rfl
    · exact Or.inl (List.append_nil _)
    · exact Or.inr ⟨compounds_any_of_two_le (by simp), d, e, ds, Or.inr rfl⟩

/-- Induction in one case, for what does not depend on the kind of a condition. -/
@[elab_as_elim]
theorem inductionOnOperands {motive : Condition → Prop}
    (step : ∀ c, (∀ d ∈ c.operands, motive d) → motive c) (c : Condition) : motive c := by
  induction c using operandInduction with
  | hook name => exact step _ fun d hd => absurd hd List.not_mem_nil
  | all cs ih => exact step _ ih
  | any cs ih => exact step _ ih
  | not c ih => exact step _ fun d hd => List.mem_singleton.mp hd ▸ ih

/-- The compound conditions inside a condition are listed from the inside out. -/
theorem layered_compounds (c : Condition) : Layered c.compounds := by
  induction c using inductionOnOperands with
  | step c ih =>
    have hoperands : Layered (compoundsOf c.operands) :=
      compoundsOf_eq_flatMap c.operands ▸ layered_flatMap ih
    rcases compounds_cases c with h | ⟨h, -⟩
    · rwa [h]
    · exact h ▸ layered_concat hoperands fun d hd => hd

theorem isCompound_of_mem_compounds {c d : Condition} (h : d ∈ c.compounds) : d.IsCompound := by
  induction c using inductionOnOperands with
  | step c ih =>
    have hoperands : d ∈ compoundsOf c.operands → d.IsCompound := by
      intro hd
      obtain ⟨e, he, hd⟩ := mem_compoundsOf.mp hd
      exact ih e he hd
    rcases compounds_cases c with heq | ⟨heq, hcompound⟩
    · exact hoperands (heq ▸ h)
    · rw [heq, List.mem_append, List.mem_singleton] at h
      rcases h with h | rfl
      · exact hoperands h
      · exact hcompound

end Condition

theorem Chain.layered_compounds (chain : Chain) : Layered chain.compounds :=
  layered_flatMap fun l _ => l.1.layered_compounds

namespace ToggleSystem

variable {system : ToggleSystem} {earlier : List String} {name : String}

/-! ## Known names -/

/-- One side of the toggle of a hook of the system. -/
def IsHookSide (system : ToggleSystem) (name : String) : Prop :=
  ∃ hook id, system.id? hook = some id ∧
    (name = (Toggle.ofId id).whenTrue ∨ name = (Toggle.ofId id).whenFalse)

/-- A name that may be referred to behind the given ones. -/
def Known (system : ToggleSystem) (earlier : List String) (name : String) : Prop :=
  system.IsHookSide name ∨ name ∈ earlier

theorem Known.mono {later : List String} (hsub : ∀ n ∈ earlier, n ∈ later)
    (h : system.Known earlier name) : system.Known later name := h.imp_right (hsub name)

/-- The two sides of a toggle are known. -/
def Reaches (system : ToggleSystem) (earlier : List String) (toggle : Toggle) : Prop :=
  system.Known earlier toggle.whenTrue ∧ system.Known earlier toggle.whenFalse

theorem reaches_of_mem_helperNames {cs : List Condition} {c : Condition} (hc : c ∈ cs) :
    system.Reaches (helperNames cs) (Toggle.ofId c.identifier) :=
  ⟨Or.inr (List.mem_flatMap.mpr ⟨c, hc, by simp⟩), Or.inr (List.mem_flatMap.mpr ⟨c, hc, by simp⟩)⟩

theorem Reaches.mono {later : List String} {toggle : Toggle} (hsub : ∀ n ∈ earlier, n ∈ later)
    (h : system.Reaches earlier toggle) : system.Reaches later toggle :=
  ⟨h.1.mono hsub, h.2.mono hsub⟩

theorem helperNames_subset {cs ds : List Condition} (hsub : ∀ c ∈ cs, c ∈ ds) :
    ∀ name ∈ helperNames cs, name ∈ helperNames ds :=
  fun _ => mem_helperNames_of_subset hsub

/-- The toggle of a condition is a hook's, or its helpers are among those of the condition. -/
theorem reaches_toggle {c : Condition} (h : system.Resolves c) :
    system.Reaches (helperNames c.compounds) (system.toggle c) := by
  induction c using Condition.operandInduction with
  | hook name =>
    obtain ⟨id, hid⟩ := Option.isSome_iff_exists.mp (resolves_hook.mp h)
    rw [toggle, hid]
    exact ⟨Or.inl ⟨name, id, hid, Or.inl rfl⟩, Or.inl ⟨name, id, hid, Or.inr rfl⟩⟩
  | not c ih => exact (ih (resolves_not.mp h)).symm
  | all ds ih =>
    obtain ⟨hne, hall⟩ := resolves_all.mp h
    rcases ds with _ | ⟨d, _ | ⟨e, ds⟩⟩
    · exact absurd rfl hne
    · exact (ih d List.mem_cons_self (hall d List.mem_cons_self)).mono
        (helperNames_subset fun c hc => by simpa [Condition.compounds, Condition.compoundsOf])
    · rw [(toggle_compound d e ds).1, Condition.compounds_all_of_two_le (by simp)]
      exact reaches_of_mem_helperNames (by simp)
  | any ds ih =>
    obtain ⟨hne, hall⟩ := resolves_any.mp h
    rcases ds with _ | ⟨d, _ | ⟨e, ds⟩⟩
    · exact absurd rfl hne
    · exact (ih d List.mem_cons_self (hall d List.mem_cons_self)).mono
        (helperNames_subset fun c hc => by simpa [Condition.compounds, Condition.compoundsOf])
    · rw [(toggle_compound d e ds).2, Condition.compounds_any_of_two_le (by simp)]
      exact reaches_of_mem_helperNames (by simp)

/-! ## Helpers -/

theorem resolves_of_mem_operands {c d : Condition} (h : system.Resolves c)
    (hd : d ∈ c.operands) : system.Resolves d := by
  cases c with
  | hook name => cases hd
  | all cs => exact (resolves_all.mp h).2 d hd
  | any cs => exact (resolves_any.mp h).2 d hd
  | not c => exact List.mem_singleton.mp hd ▸ resolves_not.mp h

/-- A helper refers to one side of every operand, and has no raw text. -/
theorem links_of_mem_pair {c : Condition} {h : Helper} (hm : h ∈ system.pair c) :
    ∃ side : Toggle → String, (side = Toggle.whenTrue ∨ side = Toggle.whenFalse) ∧
      h.value.links = c.operands.map (fun d => side (system.toggle d)) ∧ h.value.raws = [] := by
  unfold pair at hm
  split at hm
  · simp only [List.mem_cons, List.not_mem_nil, or_false] at hm
    rcases hm with rfl | rfl
    · exact ⟨_, Or.inr rfl, Expression.links_joined _ _, Expression.raws_joined _ _⟩
    · exact ⟨_, Or.inl rfl, Expression.links_nested _ _, Expression.raws_nested _ _⟩
  · simp only [List.mem_cons, List.not_mem_nil, or_false] at hm
    rcases hm with rfl | rfl
    · exact ⟨_, Or.inr rfl, Expression.links_nested _ _, Expression.raws_nested _ _⟩
    · exact ⟨_, Or.inl rfl, Expression.links_joined _ _, Expression.raws_joined _ _⟩
  · cases hm

/-- The text of a helper refers to toggles of hooks, and to helpers of the compound
conditions before its own. -/
theorem known_of_mem_pair {before after : List Condition} {c : Condition}
    (hlayered : Layered (before ++ c :: after)) (hres : system.Resolves c) {h : Helper}
    (hm : h ∈ system.pair c)
    (hn : name ∈ references (h.value.render system.layout).toList) :
    system.Known (helperNames before) name := by
  obtain ⟨side, hside, hlinks, hraws⟩ := links_of_mem_pair hm
  rw [Expression.mem_references_render _ (Expression.isName_links (readable_of_mem_pair hres hm)),
    hlinks, hraws] at hn
  obtain ⟨d, hd, rfl⟩ := List.mem_map.mp (hn.resolve_right (by simp))
  have hreaches : system.Reaches (helperNames before) (system.toggle d) :=
    (reaches_toggle (resolves_of_mem_operands hres hd)).mono <| helperNames_subset fun e he =>
      hlayered before c after rfl e (Condition.mem_compoundsOf.mpr ⟨d, hd, he⟩)
  rcases hside with rfl | rfl
  · exact hreaches.1
  · exact hreaches.2

/-! ## Chains -/

/-- The references of a chain are the sides of its conditions' toggles. -/
theorem mem_links_chainExpression {property : String} {chain : Chain} :
    name ∈ (system.chainExpression property chain).links ↔ ∃ l ∈ chain.links,
      name = (system.toggle l.1).whenTrue ∨ name = (system.toggle l.1).whenFalse := by
  obtain ⟨base, links⟩ := chain
  induction links using List.reverseRecOn with
  | nil => simp [chainExpression, Expression.links]
  | append_singleton links l ih =>
    rw [chainExpression_concat, choose]
    simp only [Expression.links, List.cons_append, List.nil_append, List.mem_cons, ih,
      List.mem_append, List.not_mem_nil, or_false, or_and_right, exists_or, exists_eq_left]
    rw [← or_assoc, or_comm]

theorem mem_raws_chainExpression {property text : String} {chain : Chain} :
    text ∈ (system.chainExpression property chain).raws ↔
      ∃ s ∈ chain.settings, text = system.renderSetting property s := by
  obtain ⟨base, links⟩ := chain
  induction links using List.reverseRecOn with
  | nil => simp [chainExpression, Expression.raws, Chain.settings]
  | append_singleton links l ih =>
    rw [chainExpression_concat, choose]
    simp only [Expression.raws, List.cons_append, List.nil_append, List.mem_cons, ih,
      Chain.mem_settings_concat, or_and_right, exists_or, exists_eq_left]
    exact or_comm

/-- The generated links of a property ask for toggles of hooks, and for helpers of the
property's own conditions. -/
theorem known_of_mem_links {property : String} {chain : Chain}
    (hres : ∀ l ∈ chain.links, system.Resolves l.1)
    (hn : name ∈ (system.chainExpression property chain).links) :
    system.Known (helperNames chain.compounds) name := by
  obtain ⟨l, hl, hside⟩ := mem_links_chainExpression.mp hn
  have hreaches : system.Reaches (helperNames chain.compounds) (system.toggle l.1) :=
    (reaches_toggle (hres l hl)).mono <| helperNames_subset fun c hc =>
      List.mem_flatMap.mpr ⟨l, hl, hc⟩
  rcases hside with rfl | rfl
  · exact hreaches.1
  · exact hreaches.2

/-- Besides its generated links, the text of a property refers only to what the texts of its
settings refer to. -/
theorem mem_references_chainExpression {property : String} {chain : Chain}
    (hres : ∀ l ∈ chain.links, system.Resolves l.1) :
    name ∈ references ((system.chainExpression property chain).render system.layout).toList ↔
      name ∈ (system.chainExpression property chain).links ∨
        ∃ s ∈ chain.settings, name ∈ references (system.renderSetting property s).toList := by
  rw [Expression.mem_references_render]
  · simp only [mem_raws_chainExpression]
    constructor
    · rintro (h | ⟨text, ⟨s, hs, rfl⟩, h⟩)
      · exact Or.inl h
      · exact Or.inr ⟨s, hs, h⟩
    · rintro (h | ⟨s, hs, h⟩)
      · exact Or.inl h
      · exact Or.inr ⟨_, ⟨s, hs, rfl⟩, h⟩
  · intro asked hasked
    obtain ⟨l, hl, hside⟩ := mem_links_chainExpression.mp hasked
    rcases hside with rfl | rfl
    · exact (isName_toggle (hres l hl)).1
    · exact (isName_toggle (hres l hl)).2

end ToggleSystem

end HookStyle
