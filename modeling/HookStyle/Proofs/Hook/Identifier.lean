import HookStyle.Hook.Identifier
import HookStyle.Hook.Name
import HookStyle.Proofs.Evaluation.Text
import HookStyle.Toggle.Basic

/-!
# The characters of generated names

Identifiers consist of letters, digits, dashes and underscores, whatever texts they are
made from, so every toggle's two properties can be named in a reference.

* `isPlain_ofHook`: the characters of a hook's identifier.
* `isName_whenTrue`, `isName_whenFalse`: the two properties of a toggle are names.
* `ofHook_ne_ofCondition`: a hook and a compound condition never have the same identifier,
  since the hook's name starts with a colon or an at-sign.
-/

namespace HookStyle

open Evaluation

/-! ## Characters -/

theorem toNat_of_isAlphanum {c : Char} (h : c.isAlphanum = true) :
    (48 ≤ c.toNat ∧ c.toNat ≤ 57) ∨ (65 ≤ c.toNat ∧ c.toNat ≤ 90) ∨
      (97 ≤ c.toNat ∧ c.toNat ≤ 122) := by
  change (decide (65 ≤ c.val ∧ c.val ≤ 90) || (decide (97 ≤ c.val) && decide (c.val ≤ 122)) ||
    (decide (48 ≤ c.val) && decide (c.val ≤ 57))) = true at h
  simp only [Bool.or_eq_true, Bool.and_eq_true, decide_eq_true_eq, UInt32.le_iff_toNat_le] at h
  change (48 ≤ c.val.toNat ∧ c.val.toNat ≤ 57) ∨ (65 ≤ c.val.toNat ∧ c.val.toNat ≤ 90) ∨
    (97 ≤ c.val.toNat ∧ c.val.toNat ≤ 122)
  rcases h with (h | h) | h
  · exact Or.inr (Or.inl h)
  · exact Or.inr (Or.inr h)
  · exact Or.inl h

theorem isNameChar_of_isAlphanum {c : Char} (h : c.isAlphanum = true) : isNameChar c = true := by
  have hc := toNat_of_isAlphanum h
  rw [isNameChar_iff]
  refine ⟨?_, ?_, ?_, ?_⟩
  · rintro rfl
    revert h
    decide
  · rintro rfl
    revert h
    decide
  · rintro rfl
    revert h
    decide
  · simp only [Text.isBlank, Text.blankRanges, List.any_cons, List.any_nil, Bool.or_eq_false_iff,
      Bool.and_eq_false_iff, decide_eq_false_iff_not, and_true]
    omega

theorem all_toList_append {p : Char → Bool} {s t : String} (hs : s.toList.all p = true)
    (ht : t.toList.all p = true) : (s ++ t).toList.all p = true := by
  rw [String.toList_append, List.all_append]
  exact Bool.and_eq_true _ _ ▸ ⟨hs, ht⟩

namespace Identifier

theorem mem_digits {fuel n : Nat} {c : Char} (h : c ∈ Text.Numeral.digits fuel n) :
    c ∈ Text.Numeral.alphabet := by
  induction fuel generalizing n with
  | zero =>
    rw [Text.Numeral.digits, List.mem_singleton] at h
    exact h ▸ Text.Numeral.digit_mem _
  | succ fuel ih =>
    rw [Text.Numeral.digits] at h
    split at h
    · exact List.mem_singleton.mp h ▸ Text.Numeral.digit_mem _
    · rcases List.mem_append.mp h with h | h
      · exact ih h
      · exact List.mem_singleton.mp h ▸ Text.Numeral.digit_mem _

theorem mem_hash {s : String} {c : Char} (h : c ∈ (hash s).toList) :
    c ∈ Text.Numeral.alphabet := by
  rw [hash, String.toList_ofList] at h
  exact mem_digits h

theorem isAlphanum_of_mem_alphabet : ∀ c ∈ Text.Numeral.alphabet, c.isAlphanum = true :=
  List.all_eq_true.mp (by decide +kernel)

def isPlainChar (c : Char) : Bool := c.isAlphanum || c == '-' || c == '_'

/-- A text of letters, digits, dashes and underscores. -/
def isPlain (s : String) : Bool := s.toList.all isPlainChar

theorem isPlain_append {s t : String} (hs : isPlain s = true) (ht : isPlain t = true) :
    isPlain (s ++ t) = true := all_toList_append hs ht

theorem isPlain_hash (s : String) : isPlain (hash s) = true := by
  refine List.all_eq_true.mpr fun c hc => ?_
  rw [isPlainChar, isAlphanum_of_mem_alphabet c (mem_hash hc), Bool.true_or, Bool.true_or]

theorem isPlainChar_readable (c : Char) : isPlainChar (readable c) = true := by
  unfold readable
  split
  next hc => rw [isPlainChar, hc, Bool.true_or]
  next => decide

/-- An identifier has only letters, digits, dashes and underscores. -/
theorem isPlain_ofHook (layout : Css.Layout) (name definition : String) :
    isPlain (ofHook layout name definition) = true := by
  cases layout with
  | compact => exact isPlain_hash definition
  | pretty =>
    refine isPlain_append (isPlain_append ?_ (by decide)) (isPlain_hash definition)
    rw [isPlain, String.toList_map, List.all_map, List.all_eq_true]
    exact fun c _ => isPlainChar_readable c

theorem isPlain_ofCondition (text : String) : isPlain (ofCondition text) = true :=
  isPlain_append (by decide +kernel) (isPlain_hash text)

theorem ne_of_isPlain {s : String} (h : isPlain s = true) {c d : Char} (hc : c ∈ s.toList)
    (hd : isPlainChar d = false) : c ≠ d := by
  rintro rfl
  rw [List.all_eq_true.mp h c hc] at hd
  cases hd

theorem isNameChar_of_isPlainChar {c : Char} (h : isPlainChar c = true) : isNameChar c = true := by
  rw [isPlainChar, Bool.or_eq_true, Bool.or_eq_true, beq_iff_eq, beq_iff_eq] at h
  rcases h with (h | rfl) | rfl
  · exact isNameChar_of_isAlphanum h
  · decide
  · decide

theorem isName_of_isPlain {s : String} (h : isPlain s = true) : isName s = true :=
  List.all_eq_true.mpr fun c hc => isNameChar_of_isPlainChar (List.all_eq_true.mp h c hc)

theorem isName_append {s t : String} (hs : isName s = true) (ht : isName t = true) :
    isName (s ++ t) = true := all_toList_append hs ht

theorem isName_ofHook (layout : Css.Layout) (name definition : String) :
    isName (ofHook layout name definition) = true :=
  isName_of_isPlain (isPlain_ofHook layout name definition)

theorem isName_ofCondition (text : String) : isName (ofCondition text) = true :=
  isName_of_isPlain (isPlain_ofCondition text)

end Identifier

namespace Toggle

theorem isName_whenTrue {id : String} (h : isName id = true) :
    isName (ofId id).whenTrue = true :=
  Identifier.isName_append (Identifier.isName_append (by decide +kernel) h) (by decide +kernel)

theorem isName_whenFalse {id : String} (h : isName id = true) :
    isName (ofId id).whenFalse = true :=
  Identifier.isName_append (Identifier.isName_append (by decide +kernel) h) (by decide +kernel)

/-- The two sides of two toggles never have the same name. -/
theorem whenTrue_ne_whenFalse (i j : String) : (ofId i).whenTrue ≠ (ofId j).whenFalse := by
  intro h
  have e := congrArg (fun s => s.toList.reverse.head?) h
  simp [ofId] at e

theorem whenTrue_injective {i j : String} (h : (ofId i).whenTrue = (ofId j).whenTrue) : i = j := by
  have e := congrArg String.toList h
  simp only [ofId, String.toList_append] at e
  exact String.toList_injective (List.append_cancel_left (List.append_cancel_right e))

theorem whenFalse_injective {i j : String} (h : (ofId i).whenFalse = (ofId j).whenFalse) :
    i = j := by
  have e := congrArg String.toList h
  simp only [ofId, String.toList_append] at e
  exact String.toList_injective (List.append_cancel_left (List.append_cancel_right e))

/-- A name is a side of one toggle at most: its last character tells the side. -/
theorem eq_of_side {name i j : String}
    (hi : name = (ofId i).whenFalse ∨ name = (ofId i).whenTrue)
    (hj : name = (ofId j).whenFalse ∨ name = (ofId j).whenTrue) : i = j := by
  rcases hi with rfl | rfl <;> rcases hj with hj | hj
  · exact whenFalse_injective hj
  · exact absurd hj.symm (whenTrue_ne_whenFalse _ _)
  · exact absurd hj (whenTrue_ne_whenFalse _ _)
  · exact whenTrue_injective hj

end Toggle

/-! ## Hooks and conditions -/

/-- A hook starts like a selector or like an at-rule. -/
theorem Hook.head_name (hook : Hook) :
    hook.name.toList.head? = some ':' ∨ hook.name.toList.head? = some '@' := by
  have h := hook.kind_eq
  unfold HookKind.ofName? at h
  have hprelude : ∀ word : List Char, word.head? = some '@' →
      HookKind.isPrelude word hook.name.toList = true → hook.name.toList.head? = some '@' := by
    intro word hw hp
    rw [HookKind.isPrelude, Option.any_eq_true] at hp
    obtain ⟨rest, hr, -⟩ := hp
    rw [Text.stripStart?_eq_some_iff.mp hr, List.head?_append, hw]
    rfl
  split at h
  next hs =>
    left
    unfold HookKind.isSelector at hs
    split at hs
    next he => rw [he]; rfl
    next he => rw [he]; rfl
    next => cases hs
  split at h
  next hm => exact Or.inr (hprelude _ (by decide +kernel) hm)
  split at h
  next hm => exact Or.inr (hprelude _ (by decide +kernel) hm)
  next => cases h

theorem Identifier.ofHook_ne_ofCondition (layout : Css.Layout) (hook : Hook)
    (definition text : String) : ofHook layout hook.name definition ≠ ofCondition text := by
  intro h
  cases layout with
  | compact =>
    have hmem : '-' ∈ (ofCondition text).toList := by simp [ofCondition]
    rw [← h] at hmem
    have := isAlphanum_of_mem_alphabet _ (mem_hash hmem)
    revert this
    decide
  | pretty =>
    have e := congrArg (fun s => s.toList.head?) h
    simp only [ofHook, ofCondition, String.toList_append, String.toList_map] at e
    cases hn : hook.name.toList with
    | nil =>
      have := hook.head_name
      simp [hn] at this
    | cons c cs =>
      have hc := hook.head_name
      rw [hn] at e hc
      rcases hc with hc | hc
      · obtain rfl : c = ':' := Option.some.inj hc
        have hr : readable ':' = '_' := by decide
        simp [hr] at e
      · obtain rfl : c = '@' := Option.some.inj hc
        have hr : readable '@' = '_' := by decide
        simp [hr] at e

end HookStyle
