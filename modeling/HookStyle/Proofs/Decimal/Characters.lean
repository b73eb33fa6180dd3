import HookStyle.Css.Value
import HookStyle.Proofs.Hook.Identifier

/-!
# The characters of numbers

The text of a number consists of digits, a sign, a point and the letters of `inf` and
`NaN`, so it never meets a parenthesis or a reference.

* `isName_ofFloat`: the text of a number is a name.
* `isPlain_render`: a value is written as plain text, when it is a number or plain text.
-/

namespace HookStyle

open Evaluation

namespace Decimal

theorem isNameChar_of_mem_toDigits {n : Nat} {c : Char} (h : c ∈ Nat.toDigits 10 n) :
    isNameChar c = true := by
  have hd := Nat.isDigit_of_mem_toDigits (by decide) (by decide) h
  exact isNameChar_of_isAlphanum (by simp [Char.isAlphanum, hd])

theorem isNameChar_of_mem_zeros {n : Nat} {c : Char} (h : c ∈ List.replicate n '0') :
    isNameChar c = true := by
  rw [List.eq_of_mem_replicate h]
  decide

theorem mem_of_mem_trimZeros {cs : List Char} {c : Char} (h : c ∈ trimZeros cs) : c ∈ cs := by
  rw [trimZeros, List.mem_reverse] at h
  exact List.mem_reverse.mp ((List.dropWhile_suffix _).mem h)

/-- Digits and the point may all stand in a name. -/
theorem isNameChar_of_mem_plain {d : Decimal} {c : Char} (h : c ∈ d.plain) :
    isNameChar c = true := by
  unfold plain at h
  dsimp only at h
  split at h
  · rcases List.mem_append.mp h with h | h
    · exact isNameChar_of_mem_toDigits h
    · exact isNameChar_of_mem_zeros h
  · have hpadded : ∀ c ∈ List.replicate (d.places.toNat + 1 - (Nat.toDigits 10 d.digits).length) '0'
        ++ Nat.toDigits 10 d.digits, isNameChar c = true := by
      intro c hc
      rcases List.mem_append.mp hc with hc | hc
      · exact isNameChar_of_mem_zeros hc
      · exact isNameChar_of_mem_toDigits hc
    split at h
    next => exact hpadded c (List.mem_of_mem_take h)
    next fraction hf =>
      rcases List.mem_append.mp h with h | h
      · exact hpadded c (List.mem_of_mem_take h)
      · rcases List.mem_cons.mp h with rfl | h
        · decide
        · exact hpadded c (List.mem_of_mem_drop (mem_of_mem_trimZeros h))

theorem isNameChar_of_mem_ofParts {negative : Bool} {exponent fraction : Nat} {c : Char}
    (h : c ∈ ofParts negative exponent fraction) : isNameChar c = true := by
  have hsign : ∀ c ∈ (if negative then ['-'] else []), isNameChar c = true :=
    List.all_eq_true.mp (by cases negative <;> decide)
  have happend : ∀ cs : List Char, (∀ c ∈ cs, isNameChar c = true) →
      ∀ c ∈ (if negative then ['-'] else []) ++ cs, isNameChar c = true := by
    intro cs hcs c hc
    rcases List.mem_append.mp hc with hc | hc
    · exact hsign c hc
    · exact hcs c hc
  unfold ofParts at h
  dsimp only at h
  split at h
  · split at h
    · exact happend _ (List.all_eq_true.mp (by decide +kernel)) c h
    · exact List.all_eq_true.mp (by decide +kernel) c h
  split at h
  · split at h
    · exact happend _ (List.all_eq_true.mp (by decide)) c h
    · exact happend _ (fun _ => isNameChar_of_mem_plain) c h
  · exact happend _ (fun _ => isNameChar_of_mem_plain) c h

/-- The text of a number has no parenthesis, comma or white space. -/
theorem isName_ofFloat (x : Float) : isName (ofFloat x) = true := by
  rw [isName, List.all_eq_true]
  intro c hc
  rw [ofFloat, String.toList_ofList] at hc
  exact isNameChar_of_mem_ofParts hc

end Decimal

theorem Evaluation.isPlain_of_isName {s : String} (h : isName s = true) : isPlain s = true := by
  have hn : nextReference? s.toList = none := by
    rw [Option.eq_none_iff_forall_ne_some]
    rintro ⟨before, rest⟩ hs
    have hmem : '(' ∈ s.toList := by
      rw [nextReference?_eq_some hs]
      simp [opening]
    exact absurd (isNameChar_of_mem h hmem) (by decide)
  have hc := closes_of_isName (fun c => isNameChar_of_mem h) [] 0
  rw [List.append_nil] at hc
  rw [isPlain, hn, hc]
  rfl

namespace Css.Value

/-- A number, or text without references whose parentheses match. -/
def isPlain : Value → Bool
  | number _ => true
  | text s => Evaluation.isPlain s

/-- A plain value is written without a reference, whatever the unit. -/
theorem isPlain_render {v : Value} (property : String) (h : v.isPlain = true) :
    Evaluation.isPlain (v.render property) = true := by
  cases v with
  | text s => exact h
  | number x =>
    have hx := Decimal.isName_ofFloat x
    have hunit : isName "px" = true := by decide +kernel
    apply isPlain_of_isName
    rw [render]
    split
    · exact hx
    · exact Identifier.isName_append hx hunit

end Css.Value

end HookStyle
