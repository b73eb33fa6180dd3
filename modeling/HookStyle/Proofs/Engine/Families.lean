import HookStyle.Proofs.Chain.References
import HookStyle.Proofs.Engine.Ledger
import HookStyle.Proofs.Tree.Meaning

/-!
# Families of generated names

Three kinds of custom properties are named independently of one another: the toggles of
hooks, the helpers of compound conditions, and the numbered properties of variables and
parameters. The first two end in a digit behind a dash, the third in a number behind an
underscore. A toggle's identifier is a hash without a dash, or starts with the underscore
that stands for the colon or the at-sign of a hook, so it is no helper's.

* `not_mem_helperNames_of_isHookSide`: no toggle of a registered hook is a helper.
* `numbered_of_handsOut`: what an engine hands out is numbered.
* `family_unique`: no name belongs to two families, in any run of any engine.
-/

namespace HookStyle

theorem ToggleSystem.isSide_of_isHookSide {system : ToggleSystem} {name : String}
    (h : system.IsHookSide name) : IsSide name := by
  obtain ⟨-, id, -, hside⟩ := h
  exact ⟨id, hside⟩

theorem Registry.not_mem_helperNames_of_isHookSide {r : Registry} {name : String}
    (h : r.toggles.IsHookSide name) (cs : List Condition) :
    name ∉ ToggleSystem.helperNames cs := by
  intro hn
  obtain ⟨hook, id, hid, hside⟩ := h
  obtain ⟨c, -, hside'⟩ := ToggleSystem.exists_of_mem_helperNames hn
  obtain rfl := Toggle.eq_of_side hside.symm hside'
  exact id?_ne_identifier c hook hid

/-- The kinds of custom properties that an engine names. -/
inductive Family where
  | toggle
  | helper
  | numbered

namespace Engine

variable {start : Engine} {calls : List Call} {name : String}

/-- The names of a family in a run. Every condition has helper names, whether or not it is
compiled; a call that fails may have allocated numbers. -/
def Names (start : Engine) (calls : List Call) : Family → String → Prop
  | .toggle, name => start.registry.toggles.IsHookSide name
  | .helper, name => ∃ c : Condition, name ∈ ToggleSystem.helperNames [c]
  | .numbered, name => ∃ e ∈ start.events calls, name ∈ e.allocated

/-- What a run hands out is in the family of numbered names. -/
theorem numbered_of_handsOut (htable : start.table = .empty) (h : start.HandsOut calls name) :
    start.Names calls .numbered name := h.exists_event htable

/-! ## The families -/

theorem isSide_of_helper (h : start.Names calls .helper name) : ToggleSystem.IsSide name := by
  obtain ⟨c, hn⟩ := h
  exact ToggleSystem.isSide_of_mem_helperNames hn

/-- A numbered name is no side of a toggle. -/
theorem not_isSide_of_numbered (h : start.Names calls .numbered name) :
    ¬ ToggleSystem.IsSide name := by
  obtain ⟨e, -, hn⟩ := h
  obtain ⟨n, rfl⟩ := Event.exists_number_of_mem_allocated hn
  exact VariableTable.not_isSide_nameOf _ n

/-- The start of a name tells its family. -/
theorem family_eq {f g : Family} (hf : start.Names calls f name)
    (hg : start.Names calls g name) : f = g := by
  have hhelper : start.Names calls .toggle name → ¬ start.Names calls .helper name := by
    rintro h ⟨c, hn⟩
    exact Registry.not_mem_helperNames_of_isHookSide h [c] hn
  have hnumbered : ToggleSystem.IsSide name → ¬ start.Names calls .numbered name :=
    fun hside h => not_isSide_of_numbered h hside
  cases f with
  | toggle =>
    cases g with
    | toggle => rfl
    | helper => exact absurd hg (hhelper hf)
    | numbered => exact absurd hg (hnumbered (ToggleSystem.isSide_of_isHookSide hf))
  | helper =>
    cases g with
    | toggle => exact absurd hf (hhelper hg)
    | helper => rfl
    | numbered => exact absurd hg (hnumbered (isSide_of_helper hf))
  | numbered =>
    cases g with
    | toggle => exact absurd hf (hnumbered (ToggleSystem.isSide_of_isHookSide hg))
    | helper => exact absurd hf (hnumbered (isSide_of_helper hg))
    | numbered => rfl

/-- No name belongs to two families, whatever the hooks, the common part of the names and the
run are. The numbered ones have every property that a run of a configured engine hands out, and
it hands out one for every key of its groups. -/
theorem family_unique (start : Engine) (calls : List Call) :
    (∀ name f g, start.Names calls f name → start.Names calls g name → f = g) ∧
      ∀ config, ofConfig config = .ok start →
        (∀ name, start.HandsOut calls name → start.Names calls .numbered name) ∧
        ∀ e ∈ start.events calls, ∀ g, e.outcome = .ok (.group g) →
          ∀ key ∈ g.expressions.keys, ∃ expression name,
            g.expressions.get? key = some expression ∧
              (start.after calls).table.lookup expression = some name ∧
                start.HandsOut calls name := by
  refine ⟨fun name f g => family_eq, fun config hstart => ?_⟩
  obtain ⟨hname, rfl, htable⟩ := ofConfig_eq_ok hstart
  exact ⟨fun name => numbered_of_handsOut htable,
    fun e he g hg key => exists_handsOut_of_group hname he hg⟩

theorem family_hoverFocus :
    let calls : List Call := [.createParametric 1 fun _ => .ok .empty]
    hoverFocus.HandsOut calls "--_horizon_var_0" ∧
      (hoverFocus.Names calls .numbered "--_horizon_var_0" ∧
        ∀ f, hoverFocus.Names calls f "--_horizon_var_0" → f = .numbered) ∧
      ∃ name, hoverFocus.Names calls .toggle name ∧
        ∀ f, hoverFocus.Names calls f name → f = .toggle := by
  intro calls
  obtain ⟨hunique, hrun⟩ := family_unique hoverFocus calls
  obtain ⟨hnumbered, -⟩ := hrun _ ofConfig_hoverFocus
  have hparameter : hoverFocus.HandsOut calls "--_horizon_var_0" :=
    .ofParametric ⟨hoverFocus, _⟩ _ List.mem_cons_self rfl (List.mem_singleton.mpr rfl)
  have htoggle : hoverFocus.Names calls .toggle
      (Toggle.ofId (Identifier.ofHook .compact ":hover" "&:hover")).whenTrue :=
    ⟨":hover", _, rfl, Or.inl rfl⟩
  exact ⟨hparameter,
    ⟨hnumbered _ hparameter, fun f hf => hunique _ f _ hf (hnumbered _ hparameter)⟩, _, htoggle,
    fun f hf => hunique _ f _ hf htoggle⟩

end Engine

end HookStyle
