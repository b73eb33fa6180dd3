import HookStyle.Text.Numeral
import Mathlib.Data.Nat.Digits.Lemmas

/-!
# The one numeral of a number

A number is written as the remainders of its divisions by 36, the last one first. No other
list of digits without a leading zero stands for the same number, so that equal numbers and
equal numerals are the same thing.

* `encode_of_pos`: the digits of a numeral are those of repeated division.
* `canonical_encode`: a numeral has no leading zero, unless it is the zero itself.
* `eq_encode_iff`: it is the only one of its number.
* `length_encode_le`: how long it is at most.
-/

namespace HookStyle.Text.Numeral

/-! ## Digits -/

variable {c : Char} {cs : List Char} {n : Nat}

theorem digitValue_lt (h : c ∈ alphabet) : digitValue c < 36 := List.idxOf_lt_length_of_mem h

theorem digit_digitValue (h : c ∈ alphabet) : digit (digitValue c) = c := by
  have hget : alphabet[digitValue c]? = some c := List.getElem?_idxOf h
  rw [digit, List.getD_eq_getElem?_getD, hget]
  rfl

theorem digit_eq_zero_iff (h : n < 36) : digit n = '0' ↔ n = 0 := by
  constructor
  · intro hdigit
    have hvalue := digitValue_digit h
    rw [hdigit] at hvalue
    exact hvalue.symm
  · rintro rfl
    rfl

/-! ## Repeated division -/

/-- The numeral of a positive number is its list of base-36 digits, highest first. -/
theorem digits_of_pos {fuel : Nat} (hpos : 0 < n) (hfuel : n ≤ fuel) :
    digits fuel n = ((Nat.digits 36 n).map digit).reverse := by
  induction fuel generalizing n with
  | zero => omega
  | succ fuel ih =>
    rw [digits, Nat.digits_eq_cons_digits_div (by omega) (by omega), List.map_cons,
      List.reverse_cons]
    by_cases hn : n < 36
    · have hdiv : n / 36 = 0 := by omega
      have hmod : n % 36 = n := by omega
      rw [if_pos hn, hdiv, hmod, Nat.digits_zero]
      rfl
    · rw [if_neg hn, ih (by omega) (by omega)]

theorem encode_zero : encode 0 = ['0'] := rfl

theorem encode_of_pos (hpos : 0 < n) : encode n = ((Nat.digits 36 n).map digit).reverse :=
  digits_of_pos hpos (Nat.le_refl n)

/-- A number below `36 ^ k` has at most `k` digits. -/
theorem length_encode_le {k : Nat} (hk : 0 < k) (h : n < 36 ^ k) : (encode n).length ≤ k := by
  by_cases hn : n = 0
  · rw [hn, encode_zero]
    exact hk
  · rw [encode_of_pos (by omega), List.length_reverse, List.length_map]
    exact (Nat.digits_length_le_iff (by omega) n).mpr h

/-! ## Without leading zeros -/

/-- A numeral of which the first digit is zero only when it is the zero itself. -/
structure Canonical (cs : List Char) : Prop where
  mem_alphabet : ∀ c ∈ cs, c ∈ alphabet
  ne_nil : cs ≠ []
  eq_zero_of_head : cs.head? = some '0' → cs = ['0']

theorem canonical_encode (n : Nat) : Canonical (encode n) := by
  by_cases hn : n = 0
  · rw [hn, encode_zero]
    refine ⟨fun c hc => ?_, List.cons_ne_nil _ _, fun _ => rfl⟩
    rw [List.mem_singleton.mp hc]
    exact digit_mem 0
  have hnil : Nat.digits 36 n ≠ [] := Nat.digits_ne_nil_iff_ne_zero.mpr hn
  rw [encode_of_pos (by omega)]
  refine ⟨fun c hc => ?_, by simpa using hnil, fun hhead => ?_⟩
  · rw [List.mem_reverse] at hc
    obtain ⟨d, -, rfl⟩ := List.mem_map.mp hc
    exact digit_mem d
  · -- the first digit is the last remainder, which division does not leave zero
    rw [List.head?_reverse, List.getLast?_map, List.getLast?_eq_some_getLast hnil] at hhead
    have hlt := Nat.digits_lt_base (by omega) (List.getLast_mem hnil)
    exact absurd ((digit_eq_zero_iff hlt).mp (Option.some.inj hhead))
      (Nat.getLast_digit_ne_zero 36 hn)

theorem value_eq_ofDigits (cs : List Char) :
    value cs = Nat.ofDigits 36 (cs.reverse.map digitValue) := by
  induction cs using List.reverseRecOn with
  | nil => rfl
  | append_singleton cs c ih =>
    have hstep : value (cs ++ [c]) = 36 * value cs + digitValue c := by
      rw [value, List.foldl_append]
      rfl
    rw [hstep, ih, List.reverse_append, List.reverse_singleton, List.singleton_append,
      List.map_cons, Nat.ofDigits_cons, Nat.add_comm]

theorem Canonical.digits_value (h : Canonical cs) (hzero : cs ≠ ['0']) :
    Nat.digits 36 (value cs) = cs.reverse.map digitValue := by
  rw [value_eq_ofDigits]
  refine Nat.digits_ofDigits 36 (by omega) _ (fun d hd => ?_) fun hnil => ?_
  · obtain ⟨c, hc, rfl⟩ := List.mem_map.mp hd
    exact digitValue_lt (h.mem_alphabet c (List.mem_reverse.mp hc))
  · cases cs with
    | nil => exact absurd rfl h.ne_nil
    | cons c cs =>
      have hc := h.mem_alphabet c List.mem_cons_self
      have hlast : ((c :: cs).reverse.map digitValue).getLast hnil = digitValue c := by simp
      rw [hlast]
      intro hvalue
      have hdigit := digit_digitValue hc
      rw [hvalue] at hdigit
      exact hzero (h.eq_zero_of_head (congrArg some hdigit.symm))

theorem Canonical.encode_value (h : Canonical cs) : encode (value cs) = cs := by
  by_cases hzero : cs = ['0']
  · rw [hzero]
    rfl
  have hdigits := h.digits_value hzero
  have hpos : 0 < value cs := by
    rw [Nat.pos_iff_ne_zero, ← Nat.digits_ne_nil_iff_ne_zero (b := 36), hdigits]
    simpa using h.ne_nil
  rw [encode_of_pos hpos, hdigits, List.map_map, ← List.map_reverse, List.reverse_reverse]
  calc cs.map (digit ∘ digitValue) = cs.map id :=
        List.map_congr_left fun c hc => digit_digitValue (h.mem_alphabet c hc)
    _ = cs := List.map_id cs

theorem eq_encode_iff : cs = encode n ↔ Canonical cs ∧ value cs = n := by
  constructor
  · rintro rfl
    exact ⟨canonical_encode n, value_encode n⟩
  · rintro ⟨h, rfl⟩
    exact h.encode_value.symm

end HookStyle.Text.Numeral
