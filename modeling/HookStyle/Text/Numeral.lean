/-!
# Numerals in base 36

A number is written with the digits `0` to `9` and `a` to `z`, most significant first and
without leading zeros. `value` reads such a numeral back.

* `value_encode`: reading undoes writing.
* `digit_mem`: only the thirty-six digits occur.
-/

namespace HookStyle.Text.Numeral

/-- The thirty-six digits in increasing order. -/
def alphabet : List Char := "0123456789abcdefghijklmnopqrstuvwxyz".toList

/-- The digit of a number below 36. -/
def digit (n : Nat) : Char := alphabet.getD n '0'

/-- The numeral of `n`, at most `fuel + 1` digits of it. -/
def digits : Nat → Nat → List Char
  | 0, n => [digit (n % 36)]
  | fuel + 1, n => if n < 36 then [digit n] else digits fuel (n / 36) ++ [digit (n % 36)]

/-- The numeral of `n`: it has fewer digits than `n` has predecessors. -/
def encode (n : Nat) : List Char := digits n n

/-- The number that a digit stands for. -/
def digitValue (c : Char) : Nat := alphabet.idxOf c

/-- The number that a numeral stands for. -/
def value (cs : List Char) : Nat := cs.foldl (fun n c => 36 * n + digitValue c) 0

theorem digitValue_digit {n : Nat} (h : n < 36) : digitValue (digit n) = n := by
  have key : ∀ m : Fin 36, digitValue (digit m) = m := by decide +kernel
  exact key ⟨n, h⟩

theorem digit_mem (n : Nat) : digit n ∈ alphabet := by
  unfold digit
  rw [List.getD_eq_getElem?_getD]
  cases h : alphabet[n]? with
  | none => decide +kernel
  | some c => exact List.mem_of_getElem? h

theorem value_append_digit (cs : List Char) {n : Nat} (h : n < 36) :
    value (cs ++ [digit n]) = 36 * value cs + n := by
  simp [value, List.foldl_append, digitValue_digit h]

/-- The digits of a number have its value, given fuel enough. -/
theorem value_digits {fuel n : Nat} (h : n ≤ fuel) : value (digits fuel n) = n := by
  induction fuel generalizing n with
  | zero =>
    obtain rfl : n = 0 := by omega
    decide +kernel
  | succ fuel ih =>
    rw [digits]
    split
    next hn => simp [value, digitValue_digit hn]
    next hn => rw [value_append_digit _ (Nat.mod_lt _ (by decide)), ih (by omega)]; omega

theorem value_encode (n : Nat) : value (encode n) = n := value_digits (Nat.le_refl n)

end HookStyle.Text.Numeral
