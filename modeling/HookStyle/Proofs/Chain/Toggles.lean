import HookStyle.Chain.Resolution
import HookStyle.Proofs.Outcome

/-!
# The toggle of a condition

Whether a condition can be resolved depends on its hooks and on the number of its operands
alone. When it can, its toggle and its helpers are given by the condition itself, whatever
has been compiled before.

* `resolves_hook`, `resolves_not`, `resolves_all`, `resolves_any`: which conditions have a
  toggle.
* `resolve_of_resolves`: the toggle is `toggle`, and the helpers are the pairs of the
  compound conditions inside, the operands' before their own.
-/

namespace HookStyle

open Css

namespace Condition

/-- Induction with a hypothesis for every operand. -/
@[elab_as_elim]
theorem operandInduction {motive : Condition → Prop} (hook : ∀ name, motive (.hook name))
    (all : ∀ cs, (∀ c ∈ cs, motive c) → motive (.all cs))
    (any : ∀ cs, (∀ c ∈ cs, motive c) → motive (.any cs))
    (not : ∀ c, motive c → motive (.not c)) : ∀ c, motive c
  | .hook name => hook name
  | .all cs => all cs fun c _ => operandInduction hook all any not c
  | .any cs => any cs fun c _ => operandInduction hook all any not c
  | .not c => not c (operandInduction hook all any not c)

mutual

/-- The conditions with two or more operands inside a condition, the operands' before their
own. -/
def compounds : Condition → List Condition
  | hook _ => []
  | all cs => compoundsOf cs ++ if 2 ≤ cs.length then [all cs] else []
  | any cs => compoundsOf cs ++ if 2 ≤ cs.length then [any cs] else []
  | not c => c.compounds

def compoundsOf : List Condition → List Condition
  | [] => []
  | c :: cs => c.compounds ++ compoundsOf cs

end

theorem compoundsOf_eq_flatMap (cs : List Condition) : compoundsOf cs = cs.flatMap compounds := by
  induction cs with
  | nil => rfl
  | cons c cs ih => simp [compoundsOf, ih]

theorem mem_compoundsOf {cs : List Condition} {d : Condition} :
    d ∈ compoundsOf cs ↔ ∃ c ∈ cs, d ∈ c.compounds := by
  rw [compoundsOf_eq_flatMap, List.mem_flatMap]

theorem compounds_all_of_two_le {cs : List Condition} (h : 2 ≤ cs.length) :
    (all cs).compounds = compoundsOf cs ++ [all cs] := by
  rw [compounds, if_pos h]

theorem compounds_any_of_two_le {cs : List Condition} (h : 2 ≤ cs.length) :
    (any cs).compounds = compoundsOf cs ++ [any cs] := by
  rw [compounds, if_pos h]

theorem sizeOf_lt_of_mem_compoundsOf {cs : List Condition} {d : Condition}
    (ih : ∀ c ∈ cs, d ∈ c.compounds → sizeOf d ≤ sizeOf c) (h : d ∈ compoundsOf cs) :
    sizeOf d < sizeOf cs := by
  obtain ⟨c, hc, hd⟩ := mem_compoundsOf.mp h
  exact Nat.lt_of_le_of_lt (ih c hc hd) (List.sizeOf_lt_of_mem hc)

/-- A compound condition inside a condition is no larger than the whole. -/
theorem sizeOf_le_of_mem_compounds {c d : Condition} (h : d ∈ c.compounds) :
    sizeOf d ≤ sizeOf c := by
  induction c using operandInduction with
  | hook name => cases h
  | all cs ih =>
    rw [compounds, List.mem_append] at h
    rcases h with h | h
    · have := sizeOf_lt_of_mem_compoundsOf ih h
      rw [all.sizeOf_spec]
      omega
    · split at h
      · exact Nat.le_of_eq (congrArg sizeOf (List.mem_singleton.mp h))
      · cases h
  | any cs ih =>
    rw [compounds, List.mem_append] at h
    rcases h with h | h
    · have := sizeOf_lt_of_mem_compoundsOf ih h
      rw [any.sizeOf_spec]
      omega
    · split at h
      · exact Nat.le_of_eq (congrArg sizeOf (List.mem_singleton.mp h))
      · cases h
  | not c ih =>
    have := ih h
    rw [not.sizeOf_spec]
    omega

end Condition

namespace ToggleSystem

/-- The toggle of a condition that has one. -/
def toggle (system : ToggleSystem) : Condition → Toggle
  | .hook name => Toggle.ofId ((system.id? name).getD "")
  | .all [c] => system.toggle c
  | .all cs => Toggle.ofId (Identifier.ofCondition (Condition.all cs).text)
  | .any [c] => system.toggle c
  | .any cs => Toggle.ofId (Identifier.ofCondition (Condition.any cs).text)
  | .not c => (system.toggle c).swap

/-- The two helpers of a condition with two or more operands. -/
def pair (system : ToggleSystem) : Condition → List Helper
  | .all (c :: cs) =>
    let toggle := Toggle.ofId (Identifier.ofCondition (Condition.all (c :: cs)).text)
    [⟨toggle.whenFalse,
        .joined (system.toggle c).whenFalse (cs.map fun d => (system.toggle d).whenFalse)⟩,
      ⟨toggle.whenTrue,
        .nested (system.toggle c).whenTrue (cs.map fun d => (system.toggle d).whenTrue)⟩]
  | .any (c :: cs) =>
    let toggle := Toggle.ofId (Identifier.ofCondition (Condition.any (c :: cs)).text)
    [⟨toggle.whenFalse,
        .nested (system.toggle c).whenFalse (cs.map fun d => (system.toggle d).whenFalse)⟩,
      ⟨toggle.whenTrue,
        .joined (system.toggle c).whenTrue (cs.map fun d => (system.toggle d).whenTrue)⟩]
  | _ => []

def Resolves (system : ToggleSystem) (c : Condition) : Prop := ∃ r, system.resolve c = .ok r

variable {system : ToggleSystem}

/-! ## Which conditions have a toggle -/

/-- A list of conditions is resolved one by one, and only if each of them is. -/
theorem resolves_of_resolveAll {cs : List Condition} {rs : List Resolution}
    (h : system.resolveAll cs = .ok rs) : rs.length = cs.length ∧ ∀ c ∈ cs, system.Resolves c := by
  induction cs generalizing rs with
  | nil =>
    cases h
    exact ⟨rfl, fun c hc => absurd hc List.not_mem_nil⟩
  | cons c cs ih =>
    rw [resolveAll] at h
    obtain ⟨r, hr, h⟩ := Outcome.bind_eq_ok.mp h
    obtain ⟨us, hus, rfl⟩ := Outcome.map_eq_ok.mp h
    obtain ⟨hlen, hcs⟩ := ih hus
    refine ⟨congrArg Nat.succ hlen, ?_⟩
    intro d hd
    rcases List.mem_cons.mp hd with rfl | hd
    · exact ⟨r, hr⟩
    · exact hcs d hd

theorem exists_resolveAll {cs : List Condition} (h : ∀ c ∈ cs, system.Resolves c) :
    ∃ rs, system.resolveAll cs = .ok rs ∧ rs.length = cs.length := by
  induction cs with
  | nil => exact ⟨[], rfl, rfl⟩
  | cons c cs ih =>
    obtain ⟨r, hr⟩ := h c List.mem_cons_self
    obtain ⟨rs, hrs, hlen⟩ := ih fun d hd => h d (List.mem_cons_of_mem _ hd)
    exact ⟨r :: rs, by rw [resolveAll, hr, hrs]; rfl, congrArg Nat.succ hlen⟩

/-- When no condition fails, the resolutions are those of the conditions in order. -/
theorem resolveAll_of_forall {f : Condition → Resolution} {cs : List Condition}
    (h : ∀ c ∈ cs, system.resolve c = .ok (f c)) : system.resolveAll cs = .ok (cs.map f) := by
  induction cs with
  | nil => rfl
  | cons c cs ih =>
    rw [resolveAll, h c List.mem_cons_self, ih fun d hd => h d (List.mem_cons_of_mem _ hd)]
    rfl

theorem resolves_hook {name : String} :
    system.Resolves (.hook name) ↔ (system.id? name).isSome := by
  cases h : system.id? name with
  | none => simp [Resolves, resolve_unknown h]
  | some id => simp [Resolves, resolve_hook h]

theorem resolves_not {c : Condition} : system.Resolves (.not c) ↔ system.Resolves c := by
  unfold Resolves
  rw [resolve]
  cases system.resolve c with
  | error e => simp [Except.map]
  | ok r => simp [Except.map]

/-- A condition that is resolved through its operands, by a rule that refuses only the
empty list of them. -/
theorem resolves_of_operands {cs : List Condition} {c : Condition}
    {combine : List Resolution → Except ConditionError Resolution}
    (hc : system.resolve c = (system.resolveAll cs).bind combine)
    (hcombine : ∀ rs, (∃ r, combine rs = .ok r) ↔ rs ≠ []) :
    system.Resolves c ↔ cs ≠ [] ∧ ∀ d ∈ cs, system.Resolves d := by
  unfold Resolves
  rw [hc]
  constructor
  · rintro ⟨r, h⟩
    obtain ⟨rs, hrs, hr⟩ := Outcome.bind_eq_ok.mp h
    obtain ⟨hlen, hall⟩ := resolves_of_resolveAll hrs
    refine ⟨?_, hall⟩
    rintro rfl
    exact (hcombine rs).mp ⟨r, hr⟩ (List.length_eq_zero_iff.mp hlen)
  · rintro ⟨hne, hall⟩
    obtain ⟨rs, hrs, hlen⟩ := exists_resolveAll hall
    have hne' : rs ≠ [] := fun h => hne (List.length_eq_zero_iff.mp (h ▸ hlen).symm)
    obtain ⟨r, hr⟩ := (hcombine rs).mpr hne'
    exact ⟨r, Outcome.bind_eq_ok.mpr ⟨_, hrs, hr⟩⟩

theorem conjunction_succeeds (id : String) (rs : List Resolution) :
    (∃ r, Resolution.conjunction id rs = .ok r) ↔ rs ≠ [] := by
  match rs with
  | [] => simp [Resolution.conjunction]
  | [r] => simp [Resolution.conjunction]
  | r :: s :: rs => simp [Resolution.conjunction]

theorem disjunction_succeeds (id : String) (rs : List Resolution) :
    (∃ r, Resolution.disjunction id rs = .ok r) ↔ rs ≠ [] := by
  match rs with
  | [] => simp [Resolution.disjunction]
  | [r] => simp [Resolution.disjunction]
  | r :: s :: rs => simp [Resolution.disjunction]

theorem resolves_all {cs : List Condition} :
    system.Resolves (.all cs) ↔ cs ≠ [] ∧ ∀ c ∈ cs, system.Resolves c :=
  resolves_of_operands (by rw [resolve]) (conjunction_succeeds _)

theorem resolves_any {cs : List Condition} :
    system.Resolves (.any cs) ↔ cs ≠ [] ∧ ∀ c ∈ cs, system.Resolves c :=
  resolves_of_operands (by rw [resolve]) (disjunction_succeeds _)

/-- The compound conditions inside a condition that has a toggle have one. -/
theorem resolves_of_mem_compounds {c d : Condition} (h : system.Resolves c)
    (hd : d ∈ c.compounds) : system.Resolves d := by
  induction c using Condition.operandInduction with
  | hook name => cases hd
  | not c ih => exact ih (resolves_not.mp h) hd
  | all cs ih =>
    rw [Condition.compounds, List.mem_append] at hd
    rcases hd with hd | hd
    · obtain ⟨c, hc, hd⟩ := Condition.mem_compoundsOf.mp hd
      exact ih c hc ((resolves_all.mp h).2 c hc) hd
    · split at hd
      · exact List.mem_singleton.mp hd ▸ h
      · cases hd
  | any cs ih =>
    rw [Condition.compounds, List.mem_append] at hd
    rcases hd with hd | hd
    · obtain ⟨c, hc, hd⟩ := Condition.mem_compoundsOf.mp hd
      exact ih c hc ((resolves_any.mp h).2 c hc) hd
    · split at hd
      · exact List.mem_singleton.mp hd ▸ h
      · cases hd

/-! ## The toggle and the helpers -/

/-- The toggle of a condition with the helpers of the compound conditions inside. -/
def resolution (system : ToggleSystem) (c : Condition) : Resolution :=
  ⟨system.toggle c, c.compounds.flatMap system.pair⟩

theorem helpers_map_resolution (cs : List Condition) :
    (cs.map system.resolution).flatMap Resolution.helpers
      = (Condition.compoundsOf cs).flatMap system.pair := by
  rw [Condition.compoundsOf_eq_flatMap, List.flatMap_map, List.flatMap_assoc]
  rfl

/-- One operand passes its own toggle on, two or more get one of their own. -/
theorem conjunction_resolution {cs : List Condition} (h : cs ≠ []) :
    Resolution.conjunction (Identifier.ofCondition (Condition.all cs).text)
      (cs.map system.resolution) = .ok (system.resolution (.all cs)) := by
  match cs with
  | [c] =>
    simp [Resolution.conjunction, resolution, toggle, Condition.compounds, Condition.compoundsOf]
  | c :: d :: cs =>
    rw [resolution, Condition.compounds_all_of_two_le (by simp), List.flatMap_append,
      ← helpers_map_resolution]
    simp [Resolution.conjunction, Resolution.compound, resolution, toggle, pair,
      Function.comp_def]

theorem disjunction_resolution {cs : List Condition} (h : cs ≠ []) :
    Resolution.disjunction (Identifier.ofCondition (Condition.any cs).text)
      (cs.map system.resolution) = .ok (system.resolution (.any cs)) := by
  match cs with
  | [c] =>
    simp [Resolution.disjunction, resolution, toggle, Condition.compounds, Condition.compoundsOf]
  | c :: d :: cs =>
    rw [resolution, Condition.compounds_any_of_two_le (by simp), List.flatMap_append,
      ← helpers_map_resolution]
    simp [Resolution.disjunction, Resolution.compound, resolution, toggle, pair,
      Function.comp_def]

/-- The resolution of a condition in closed form, wherever there is one. -/
theorem resolve_of_resolves {c : Condition} (h : system.Resolves c) :
    system.resolve c = .ok (system.resolution c) := by
  induction c using Condition.operandInduction with
  | hook name =>
    obtain ⟨id, hid⟩ := Option.isSome_iff_exists.mp (resolves_hook.mp h)
    rw [resolve_hook hid]
    simp [resolution, toggle, hid, Condition.compounds]
  | not c ih =>
    rw [resolve, ih (resolves_not.mp h)]
    simp [resolution, toggle, Condition.compounds, Except.map]
  | all cs ih =>
    obtain ⟨hne, hall⟩ := resolves_all.mp h
    rw [resolve, resolveAll_of_forall fun c hc => ih c hc (hall c hc)]
    exact conjunction_resolution hne
  | any cs ih =>
    obtain ⟨hne, hall⟩ := resolves_any.mp h
    rw [resolve, resolveAll_of_forall fun c hc => ih c hc (hall c hc)]
    exact disjunction_resolution hne

end ToggleSystem

end HookStyle
