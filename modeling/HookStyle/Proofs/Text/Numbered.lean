/-!
# Texts that end in a number

Generated names end in a decimal number behind a mark that is no digit. Such a text can be
read in one way only: the number is the run of digits at its end, whatever the front is,
even one that itself holds marks and numbers.

* `eq_of_append_number`: the text determines its front and its number.
-/

namespace HookStyle.Text

theorem isDigit_of_mem_toString {n : Nat} {c : Char} (h : c ∈ (toString n).toList) :
    c.isDigit = true := by
  rw [Nat.toString_eq_ofList_toDigits, String.toList_ofList] at h
  exact Nat.isDigit_of_mem_toDigits (by decide) (by decide) h

theorem toString_injective {m n : Nat} (h : (toString m).toList = (toString n).toList) :
    m = n := by
  have hnumber := congrArg (Nat.ofDigitChars 10 · 0) h
  simpa [Nat.toString_eq_ofList_toDigits] using hnumber

section

variable {mark : Char} (hmark : mark.isDigit = false)
include hmark

/-- The digits at the end of a text, from the last one on. -/
theorem takeWhile_number (front : List Char) (n : Nat) :
    (front ++ mark :: (toString n).toList).reverse.takeWhile Char.isDigit
      = (toString n).toList.reverse := by
  have hdigits : ∀ c ∈ (toString n).toList.reverse, c.isDigit = true := fun c hc =>
    isDigit_of_mem_toString (List.mem_reverse.mp hc)
  rw [List.reverse_append, List.reverse_cons, List.append_assoc,
    List.takeWhile_append_of_pos hdigits, List.singleton_append,
    List.takeWhile_cons_of_neg (by simp [hmark]), List.append_nil]

theorem dropWhile_number (front : List Char) (n : Nat) :
    (front ++ mark :: (toString n).toList).reverse.dropWhile Char.isDigit
      = mark :: front.reverse := by
  have hdigits : ∀ c ∈ (toString n).toList.reverse, c.isDigit = true := fun c hc =>
    isDigit_of_mem_toString (List.mem_reverse.mp hc)
  rw [List.reverse_append, List.reverse_cons, List.append_assoc,
    List.dropWhile_append_of_pos hdigits, List.singleton_append,
    List.dropWhile_cons_of_neg (by simp [hmark])]

theorem eq_of_append_number {front front' : List Char} {m n : Nat}
    (h : front ++ mark :: (toString m).toList = front' ++ mark :: (toString n).toList) :
    front = front' ∧ m = n := by
  have hnumber := takeWhile_number hmark front m
  have hfront := dropWhile_number hmark front m
  rw [h, takeWhile_number hmark] at hnumber
  rw [h, dropWhile_number hmark] at hfront
  refine ⟨?_, toString_injective (List.reverse_inj.mp hnumber.symm)⟩
  exact List.reverse_inj.mp (List.cons.inj hfront).2.symm

end

end HookStyle.Text
