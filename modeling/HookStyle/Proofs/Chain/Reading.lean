import HookStyle.Proofs.Chain.Helpers
import HookStyle.Proofs.Evaluation.Computed
import Mathlib.Data.List.Nodup

/-!
# What toggles read

In every state of the hooks, the toggle of a condition says whether the condition holds:
its true side is invalid while it does, and its false side while it does not.

* `Separate`: no two generated identifiers agree.
* `reads_toggle`: the toggle of any condition, by induction on the condition. The helpers of
  a compound condition are evaluated in the style without themselves, which still serves
  the operands.
-/

namespace HookStyle

open Css Evaluation
open Css.Expression (blankUnless)

namespace ToggleSystem

/-- The two sides of a toggle show a truth value: the true side is invalid for `true`, the
false side for `false`, and the other one is blank. -/
def Reads (lookup : String → Computed) (toggle : Toggle) (b : Bool) : Prop :=
  lookup toggle.whenTrue = blankUnless b ∧ lookup toggle.whenFalse = blankUnless (!b)

/-- No two generated identifiers agree: those of hooks, those of the given compound
conditions, nor one of each. -/
structure Separate (system : ToggleSystem) (cs : List Condition) : Prop where
  hooks : system.DistinctHooks
  conditions : DistinctConditions cs
  apart : ∀ c ∈ cs, ∀ name, system.id? name ≠ some c.identifier

variable {system : ToggleSystem} {active : String → Bool} {cs : List Condition}

theorem id?_mem_hooks {name id : String} (h : system.id? name = some id) :
    id ∈ system.hooks.map Prod.fst := by
  obtain ⟨definition, hm, rfl⟩ := exists_mem_of_id? h
  rw [hooks, List.map_map]
  exact List.mem_map.mpr ⟨_, hm, rfl⟩

/-- What has to be checked of a list of conditions without repetitions. -/
theorem Separate.of_nodup
    (h : (system.hooks.map Prod.fst ++ cs.map Condition.identifier).Nodup) :
    system.Separate cs := by
  obtain ⟨hhooks, hconditions, hdisjoint⟩ := List.nodup_append.mp h
  refine ⟨?_, ?_, ?_⟩
  · intro name name' id hn hn'
    obtain ⟨definition, hm, rfl⟩ := exists_mem_of_id? hn
    obtain ⟨definition', hm', hid⟩ := exists_mem_of_id? hn'
    rw [ToggleSystem.hooks, List.map_map] at hhooks
    have he := List.inj_on_of_nodup_map hhooks hm hm' hid
    exact congrArg Prod.fst he
  · intro c hc d hd hid
    exact List.inj_on_of_nodup_map hconditions hc hd hid
  · intro c hc name hn
    exact hdisjoint _ (id?_mem_hooks hn) _ (List.mem_map_of_mem hc) rfl

/-! ## The names of toggles -/

/-- The toggle of a proper conjunction or disjunction is named by its identifier. -/
theorem toggle_compound (c d : Condition) (ds : List Condition) :
    system.toggle (.all (c :: d :: ds))
        = Toggle.ofId (Condition.identifier (.all (c :: d :: ds))) ∧
      system.toggle (.any (c :: d :: ds))
        = Toggle.ofId (Condition.identifier (.any (c :: d :: ds))) := by
  rw [toggle, toggle]
  · exact ⟨rfl, rfl⟩
  all_goals
    intro e he
    cases he

/-- The name of one side of a toggle. -/
def IsSide (name : String) : Prop :=
  ∃ id, name = (Toggle.ofId id).whenTrue ∨ name = (Toggle.ofId id).whenFalse

theorem isSide_ofId (id : String) :
    IsSide (Toggle.ofId id).whenTrue ∧ IsSide (Toggle.ofId id).whenFalse :=
  ⟨⟨id, Or.inl rfl⟩, id, Or.inr rfl⟩

theorem isSide_toggle (c : Condition) :
    IsSide (system.toggle c).whenTrue ∧ IsSide (system.toggle c).whenFalse := by
  induction c using Condition.operandInduction with
  | hook name => exact isSide_ofId _
  | not c ih => exact ih.symm
  | all ds ih =>
    rcases ds with _ | ⟨d, _ | ⟨e, ds⟩⟩
    · exact isSide_ofId _
    · exact ih d List.mem_cons_self
    · rw [(toggle_compound d e ds).1]
      exact isSide_ofId _
  | any ds ih =>
    rcases ds with _ | ⟨d, _ | ⟨e, ds⟩⟩
    · exact isSide_ofId _
    · exact ih d List.mem_cons_self
    · rw [(toggle_compound d e ds).2]
      exact isSide_ofId _

theorem isSide_of_mem_pair {c : Condition} {h : Helper} (hm : h ∈ system.pair c) :
    IsSide h.name := by
  rcases name_of_mem_pair hm with hn | hn
  · exact ⟨_, Or.inr hn⟩
  · exact ⟨_, Or.inl hn⟩

theorem isSide_of_mem_helperNames {name : String} (h : name ∈ helperNames cs) : IsSide name := by
  obtain ⟨c, -, hside⟩ := exists_of_mem_helperNames h
  exact ⟨c.identifier, hside.symm⟩

/-- The state of the hooks says nothing about other names. -/
theorem toggleState?_of_not_isSide {name : String} (h : ¬ IsSide name) :
    system.toggleState? active name = none := by
  refine List.findSome?_eq_none_iff.mpr fun e _ => ?_
  dsimp only
  rw [if_neg fun hn => h ⟨_, Or.inl hn⟩, if_neg fun hn => h ⟨_, Or.inr hn⟩]

theorem isName_ofId {id : String} (h : isName id = true) :
    isName (Toggle.ofId id).whenTrue = true ∧ isName (Toggle.ofId id).whenFalse = true :=
  ⟨Toggle.isName_whenTrue h, Toggle.isName_whenFalse h⟩

/-- Both sides of a toggle may stand behind `var(`. -/
theorem isName_toggle {c : Condition} (h : system.Resolves c) :
    isName (system.toggle c).whenTrue = true ∧ isName (system.toggle c).whenFalse = true := by
  induction c using Condition.operandInduction with
  | hook name =>
    obtain ⟨id, hi⟩ := Option.isSome_iff_exists.mp (resolves_hook.mp h)
    rw [toggle, hi]
    exact isName_ofId (isName_of_id? hi)
  | not c ih => exact (ih (resolves_not.mp h)).symm
  | all ds ih =>
    obtain ⟨hne, hall⟩ := resolves_all.mp h
    rcases ds with _ | ⟨d, _ | ⟨e, ds⟩⟩
    · exact absurd rfl hne
    · exact ih d List.mem_cons_self (hall d List.mem_cons_self)
    · rw [(toggle_compound d e ds).1]
      exact isName_ofId (Identifier.isName_ofCondition _)
  | any ds ih =>
    obtain ⟨hne, hall⟩ := resolves_any.mp h
    rcases ds with _ | ⟨d, _ | ⟨e, ds⟩⟩
    · exact absurd rfl hne
    · exact ih d List.mem_cons_self (hall d List.mem_cons_self)
    · rw [(toggle_compound d e ds).2]
      exact isName_ofId (Identifier.isName_ofCondition _)

/-! ## What the toggles read -/

variable {style : Style}

/-- A negation exchanges the sides of a toggle, and the truth value with them. -/
theorem Reads.swap {lookup : String → Computed} {toggle : Toggle} {b : Bool}
    (h : Reads lookup toggle b) : Reads lookup toggle.swap (!b) := by
  refine ⟨h.2, ?_⟩
  rw [Bool.not_not]
  exact h.1

/-- The text of a helper is read back as the expression it was written from. -/
theorem readable_of_mem_pair {c : Condition} (hres : system.Resolves c) {h : Helper}
    (hm : h ∈ system.pair c) : h.value.Readable := by
  have hnames : ∀ (side : Toggle → String) (ds : List Condition),
      (∀ d ∈ ds, isName (side (system.toggle d)) = true) →
        ∀ n ∈ ds.map (fun d => side (system.toggle d)), isName n = true := by
    intro side ds hds n hn
    obtain ⟨d, hd, rfl⟩ := List.mem_map.mp hn
    exact hds d hd
  match c with
  | .hook name => cases hm
  | .not c => cases hm
  | .all [] => cases hm
  | .any [] => cases hm
  | .all (d :: ds) =>
    obtain ⟨-, hall⟩ := resolves_all.mp hres
    simp only [pair, List.mem_cons, List.not_mem_nil, or_false] at hm
    rcases hm with rfl | rfl
    · exact Expression.readable_joined
        (hnames Toggle.whenFalse (d :: ds) fun e he => (isName_toggle (hall e he)).2)
    · exact Expression.readable_nested
        (hnames Toggle.whenTrue (d :: ds) fun e he => (isName_toggle (hall e he)).1)
  | .any (d :: ds) =>
    obtain ⟨-, hall⟩ := resolves_any.mp hres
    simp only [pair, List.mem_cons, List.not_mem_nil, or_false] at hm
    rcases hm with rfl | rfl
    · exact Expression.readable_nested
        (hnames Toggle.whenFalse (d :: ds) fun e he => (isName_toggle (hall e he)).2)
    · exact Expression.readable_joined
        (hnames Toggle.whenTrue (d :: ds) fun e he => (isName_toggle (hall e he)).1)

/-- The condition has a toggle, and the style has the helpers of its compound conditions,
all of which are among `cs`. -/
structure Served (system : ToggleSystem) (cs : List Condition) (style : Style) (c : Condition) :
    Prop where
  resolves : system.Resolves c
  within : ∀ e ∈ c.compounds, e ∈ cs
  provides : ∀ h ∈ c.compounds.flatMap system.pair, system.Provides style h

namespace Served

theorem mono {c : Condition} {cs' : List Condition} (h : system.Served cs style c)
    (hsub : ∀ e ∈ cs, e ∈ cs') : system.Served cs' style c :=
  ⟨h.resolves, fun e he => hsub e (h.within e he), h.provides⟩

/-- A style that serves a condition serves every condition that has a toggle and no further
compound parts. -/
theorem of_subset {c d : Condition} (h : system.Served cs style c) (hres : system.Resolves d)
    (hsub : ∀ e ∈ d.compounds, e ∈ c.compounds) : system.Served cs style d := by
  refine ⟨hres, fun e he => h.within e (hsub e he), ?_⟩
  intro k hk
  obtain ⟨e, he, hke⟩ := List.mem_flatMap.mp hk
  exact h.provides k (List.mem_flatMap.mpr ⟨e, hsub e he, hke⟩)

theorem of_all {ds : List Condition} (h : system.Served cs style (.all ds)) {d : Condition}
    (hd : d ∈ ds) : system.Served cs style d := by
  refine h.of_subset ((resolves_all.mp h.resolves).2 d hd) ?_
  intro e he
  rw [Condition.compounds]
  exact List.mem_append_left _ (Condition.mem_compoundsOf.mpr ⟨d, hd, he⟩)

theorem of_any {ds : List Condition} (h : system.Served cs style (.any ds)) {d : Condition}
    (hd : d ∈ ds) : system.Served cs style d := by
  refine h.of_subset ((resolves_any.mp h.resolves).2 d hd) ?_
  intro e he
  rw [Condition.compounds]
  exact List.mem_append_left _ (Condition.mem_compoundsOf.mpr ⟨d, hd, he⟩)

/-- The style without a helper of a condition still serves smaller conditions. -/
theorem erase (hs : system.Separate cs) {c d : Condition} (hc : c ∈ cs) {k : Helper}
    (hk : k ∈ system.pair c) (hlt : sizeOf d < sizeOf c) (h : system.Served cs style d) :
    system.Served cs (style.erase k.name) d := by
  refine ⟨h.resolves, h.within, ?_⟩
  intro j hj
  obtain ⟨e, he, hje⟩ := List.mem_flatMap.mp hj
  have hne : j.name ≠ k.name := by
    intro hn
    obtain rfl := hs.conditions e (h.within e he) c hc (identifier_eq_of_name hje hk hn)
    have := Condition.sizeOf_le_of_mem_compounds he
    omega
  unfold Provides
  rw [OrderedMap.get?_erase, if_neg hne]
  exact h.provides j hj

end Served

/-- A helper is no hook's toggle, so its name is asked in the style. -/
theorem lookup_helper (active : String → Bool) (hs : system.Separate cs) {c : Condition}
    (hc : c ∈ c.compounds) (hserved : system.Served cs style c) {h : Helper}
    (hm : h ∈ system.pair c) :
    system.lookup active style h.name =
      (h.value.value (system.lookup active (style.erase h.name))).map trim := by
  have hstate : system.toggleState? active h.name = none := by
    obtain ⟨htrue, hfalse⟩ := toggleState?_ofId_eq_none active (hs.apart c (hserved.within c hc))
    rcases name_of_mem_pair hm with hn | hn
    · rw [hn, hfalse]
    · rw [hn, htrue]
  have hv : style.value? h.name = some (.text (h.value.render system.layout)) :=
    Style.value?_eq_some_iff.mpr (hserved.provides h (List.mem_flatMap.mpr ⟨c, hc, hm⟩))
  rw [lookup, hstate]
  change system.computed active style h.name = _
  rw [computed_of_value? hv, Value.render_text]
  exact Expression.evaluate_render _ _ (readable_of_mem_pair hserved.resolves hm)

theorem lookup_toggle {name id : String} (hd : system.DistinctHooks)
    (h : system.id? name = some id) :
    Reads (system.lookup active style) (Toggle.ofId id) (active name) := by
  refine ⟨?_, ?_⟩
  · rw [lookup, toggleState?_whenTrue hd h]
  · rw [lookup, toggleState?_whenFalse hd h]

/-- The operands of a condition read right in the style without one of its helpers, when
they do in every style that serves them. -/
theorem reads_operands (hs : system.Separate cs) {c : Condition} {ds : List Condition}
    (hc : c ∈ cs) (hlt : ∀ x ∈ ds, sizeOf x < sizeOf c)
    (hserved : ∀ x ∈ ds, system.Served cs style x)
    (ih : ∀ x ∈ ds, ∀ style, system.Served cs style x →
      Reads (system.lookup active style) (system.toggle x) (x.holds active)) :
    ∀ h ∈ system.pair c, ∀ x ∈ ds,
      Reads (system.lookup active (style.erase h.name)) (system.toggle x) (x.holds active) :=
  fun _ hm x hx => ih x hx _ ((hserved x hx).erase hs hc hm (hlt x hx))

/-- The true side of a conjunction falls back from one operand's true side to the next; its
false side joins theirs, and one invalid side makes it invalid. -/
theorem reads_all (hs : system.Separate cs) {d e : Condition} {ds : List Condition}
    (hserved : system.Served cs style (.all (d :: e :: ds)))
    (ih : ∀ x ∈ d :: e :: ds, ∀ style, system.Served cs style x →
      Reads (system.lookup active style) (system.toggle x) (x.holds active)) :
    Reads (system.lookup active style) (system.toggle (.all (d :: e :: ds)))
      (Condition.holds active (.all (d :: e :: ds))) := by
  have hc : Condition.all (d :: e :: ds) ∈ (Condition.all (d :: e :: ds)).compounds := by
    rw [Condition.compounds_all_of_two_le (by simp)]
    simp
  have hlt : ∀ x ∈ d :: e :: ds, sizeOf x < sizeOf (Condition.all (d :: e :: ds)) := by
    intro x hx
    have := List.sizeOf_lt_of_mem hx
    rw [Condition.all.sizeOf_spec]
    omega
  have hread := reads_operands hs (hserved.within _ hc) hlt (fun x hx => hserved.of_all hx) ih
  have hfalse := lookup_helper active hs hc hserved List.mem_cons_self
  have htrue := lookup_helper active hs hc hserved (List.mem_cons_of_mem _ List.mem_cons_self)
  rw [Expression.value_joined fun x hx => (hread _ List.mem_cons_self x hx).2] at hfalse
  rw [Expression.value_nested fun x hx =>
    (hread _ (List.mem_cons_of_mem _ List.mem_cons_self) x hx).1] at htrue
  rw [(toggle_compound d e ds).1, Condition.holds, Condition.allHold_eq_all]
  refine ⟨htrue, ?_⟩
  rw [List.not_all_eq_any_not]
  exact hfalse

/-- As `reads_all`, with the sides of the toggles exchanged. -/
theorem reads_any (hs : system.Separate cs) {d e : Condition} {ds : List Condition}
    (hserved : system.Served cs style (.any (d :: e :: ds)))
    (ih : ∀ x ∈ d :: e :: ds, ∀ style, system.Served cs style x →
      Reads (system.lookup active style) (system.toggle x) (x.holds active)) :
    Reads (system.lookup active style) (system.toggle (.any (d :: e :: ds)))
      (Condition.holds active (.any (d :: e :: ds))) := by
  have hc : Condition.any (d :: e :: ds) ∈ (Condition.any (d :: e :: ds)).compounds := by
    rw [Condition.compounds_any_of_two_le (by simp)]
    simp
  have hlt : ∀ x ∈ d :: e :: ds, sizeOf x < sizeOf (Condition.any (d :: e :: ds)) := by
    intro x hx
    have := List.sizeOf_lt_of_mem hx
    rw [Condition.any.sizeOf_spec]
    omega
  have hread := reads_operands hs (hserved.within _ hc) hlt (fun x hx => hserved.of_any hx) ih
  have hfalse := lookup_helper active hs hc hserved List.mem_cons_self
  have htrue := lookup_helper active hs hc hserved (List.mem_cons_of_mem _ List.mem_cons_self)
  rw [Expression.value_nested fun x hx => (hread _ List.mem_cons_self x hx).2] at hfalse
  rw [Expression.value_joined fun x hx =>
    (hread _ (List.mem_cons_of_mem _ List.mem_cons_self) x hx).1] at htrue
  rw [(toggle_compound d e ds).2, Condition.holds, Condition.anyHolds_eq_any]
  refine ⟨htrue, ?_⟩
  rw [List.not_any_eq_all_not]
  exact hfalse

/-- In a style that serves a condition, the condition's toggle reads its truth value. -/
theorem reads_toggle (active : String → Bool) (hs : system.Separate cs) {c : Condition}
    (hserved : system.Served cs style c) :
    Reads (system.lookup active style) (system.toggle c) (c.holds active) := by
  induction c using Condition.operandInduction generalizing style with
  | hook name =>
    obtain ⟨id, hi⟩ := Option.isSome_iff_exists.mp (resolves_hook.mp hserved.resolves)
    rw [toggle, hi]
    exact lookup_toggle hs.hooks hi
  | not c ih =>
    have h := ih ⟨resolves_not.mp hserved.resolves, hserved.within, hserved.provides⟩
    rw [toggle, Condition.holds]
    exact h.swap
  | all ds ih =>
    rcases ds with _ | ⟨d, _ | ⟨e, ds⟩⟩
    · exact absurd rfl (resolves_all.mp hserved.resolves).1
    · have h := ih d List.mem_cons_self (hserved.of_all List.mem_cons_self)
      rw [toggle, Condition.holds, Condition.allHold, Condition.allHold, Bool.and_true]
      exact h
    · exact reads_all hs hserved fun x hx style hx' => ih x hx hx'
  | any ds ih =>
    rcases ds with _ | ⟨d, _ | ⟨e, ds⟩⟩
    · exact absurd rfl (resolves_any.mp hserved.resolves).1
    · have h := ih d List.mem_cons_self (hserved.of_any List.mem_cons_self)
      rw [toggle, Condition.holds, Condition.anyHolds, Condition.anyHolds, Bool.or_false]
      exact h
    · exact reads_any hs hserved fun x hx style hx' => ih x hx hx'

end ToggleSystem

end HookStyle
