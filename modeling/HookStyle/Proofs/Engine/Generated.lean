import HookStyle.Engine.Config
import HookStyle.Engine.Variables
import HookStyle.Proofs.Chain.Shape
import HookStyle.Proofs.Decimal.Characters
import HookStyle.Proofs.Text.Numbered

/-!
# The names of generated properties

The custom properties of variables and parameters end in a number behind an underscore, and
the two sides of a toggle in a digit behind a dash. So the two families are apart, whatever
the common part of the names, the identifiers and the numbers are.

* `nameOf_inj`: a name determines its common part and its number.
* `isName_nameOf`: the names can stand in a reference.
* `not_isSide_nameOf`, `not_isHelperName_nameOf`: no generated name is the side of a toggle, or
  looks like that of a helper.
-/

namespace HookStyle

open Css Evaluation

/-- The character in front of the number at the end of a name. -/
def stemEnd (name : String) : Option Char := (name.toList.reverse.dropWhile Char.isDigit).head?

theorem Toggle.stemEnd_whenTrue (id : String) : stemEnd (ofId id).whenTrue = some '-' := by
  simp [stemEnd, ofId]

theorem Toggle.stemEnd_whenFalse (id : String) : stemEnd (ofId id).whenFalse = some '-' := by
  simp [stemEnd, ofId]

namespace VariableTable

theorem toList_nameOf (namePart : String) (n : Nat) :
    (nameOf namePart n).toList
      = ("--_" ++ namePart ++ "_var").toList ++ '_' :: (toString n).toList := by
  simp [nameOf]

theorem stemEnd_nameOf (namePart : String) (n : Nat) : stemEnd (nameOf namePart n) = some '_' := by
  rw [stemEnd, toList_nameOf, Text.dropWhile_number (by decide), List.head?_cons]

/-- The word `var` sets the names of variables apart from toggles. -/
theorem not_isSide_nameOf (namePart : String) (n : Nat) :
    ¬ ToggleSystem.IsSide (nameOf namePart n) := by
  rintro ⟨id, h | h⟩
  · have := congrArg stemEnd h
    rw [stemEnd_nameOf, Toggle.stemEnd_whenTrue] at this
    exact absurd this (by decide)
  · have := congrArg stemEnd h
    rw [stemEnd_nameOf, Toggle.stemEnd_whenFalse] at this
    exact absurd this (by decide)

theorem not_isHelperName_nameOf (namePart : String) (n : Nat) :
    ¬ ToggleSystem.IsHelperName (nameOf namePart n) := by
  rintro ⟨rest, h⟩
  have hthird := congrArg (fun cs => cs[2]?) h
  simp [nameOf] at hthird

/-- The common part may itself hold marks and numbers. -/
theorem nameOf_inj {namePart namePart' : String} {m n : Nat} :
    nameOf namePart m = nameOf namePart' n ↔ namePart = namePart' ∧ m = n := by
  constructor
  · intro h
    have hlist := congrArg String.toList h
    rw [toList_nameOf, toList_nameOf] at hlist
    obtain ⟨hfront, hnumber⟩ := Text.eq_of_append_number (by decide) hlist
    exact ⟨String.toList_injective (by simpa using hfront), hnumber⟩
  · rintro ⟨rfl, rfl⟩
    rfl

theorem isName_namePart {namePart : String} (h : Config.isNamePart namePart = true) :
    isName namePart = true := by
  rw [Config.isNamePart, Bool.and_eq_true] at h
  refine List.all_eq_true.mpr fun c hc => ?_
  have hchar := List.all_eq_true.mp h.2 c hc
  simp only [Config.isNameChar, Bool.or_eq_true, beq_iff_eq] at hchar
  rcases hchar with (halpha | rfl) | rfl
  · exact isNameChar_of_isAlphanum halpha
  · decide
  · decide

/-- A variable's name can stand behind `var(`, since its part for the configuration can. -/
theorem isName_nameOf {namePart : String} (h : Config.isNamePart namePart = true) (n : Nat) :
    isName (nameOf namePart n) = true := by
  have hnumber : isName (toString n) = true := List.all_eq_true.mpr fun c hc =>
    isNameChar_of_isAlphanum (by simp [Char.isAlphanum, Text.isDigit_of_mem_toString hc])
  have hstart : isName ("--_" ++ namePart) = true :=
    Identifier.isName_append (by decide +kernel) (isName_namePart h)
  exact Identifier.isName_append (Identifier.isName_append hstart (by decide +kernel)) hnumber

theorem isUnitless_nameOf (namePart : String) (n : Nat) :
    Property.isUnitless (nameOf namePart n) = true := by
  have h : nameOf namePart n = "--" ++ ("_" ++ namePart ++ "_var_" ++ toString n) :=
    String.toList_injective (by simp [nameOf])
  rw [h]
  exact Property.isUnitless_custom _

/-! ## The next names -/

variable {table : VariableTable} {namePart : String} {count : Nat}

theorem exists_number_of_mem_fresh {name : String} (h : name ∈ table.fresh namePart count) :
    ∃ n, name = nameOf namePart n := by
  obtain ⟨i, -, rfl⟩ := List.mem_map.mp h
  exact ⟨_, rfl⟩

/-- The names of one allocation differ, since their numbers do. -/
theorem nodup_fresh : (table.fresh namePart count).Nodup := by
  refine List.Nodup.map ?_ List.nodup_range
  intro i j h
  exact Nat.add_left_cancel (nameOf_inj.mp h).2

end VariableTable

theorem ToggleSystem.nameOf_not_mem_helperNames (namePart : String) (n : Nat)
    (cs : List Condition) : VariableTable.nameOf namePart n ∉ helperNames cs :=
  fun h => VariableTable.not_isSide_nameOf _ _ (isSide_of_mem_helperNames h)

end HookStyle
