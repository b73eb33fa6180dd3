import HookStyle.Proofs.Hook.Collision
import HookStyle.Proofs.Text.Canonical
import Mathlib.Algebra.BigOperators.Fin

/-!
# The hash of an identifier

A text is hashed in words of 32 bits. The shift and the sum may leave the word and the
difference may wrap, but all this happens modulo a multiple of `2 ^ 31`, and the mask keeps
just this remainder. So after every unit the word is the polynomial of the units read so far,
and the hash is the one numeral of what remains of the whole polynomial.

* `polynomial_eq_sum`: the polynomial, term by term.
* `toList_hash`: the hash as the numeral of a number.
* `hash_exact`: which text a hash is, and which texts share it.
-/

namespace HookStyle.Identifier

open Text.Numeral

theorem ofDigits_reverse_eq_sum (b : Nat) (units : List Nat) :
    Nat.ofDigits b units.reverse =
      ∑ i : Fin units.length, units[i] * b ^ (units.length - 1 - i) := by
  induction units with
  | nil => rfl
  | cons unit units ih =>
    have hterm : ∀ i : Fin units.length,
        (unit :: units).length - 1 - i.succ = units.length - 1 - i := by
      intro i
      have hlength : (unit :: units).length = units.length + 1 := rfl
      have hsucc : (i.succ : Nat) = i + 1 := rfl
      omega
    calc Nat.ofDigits b (unit :: units).reverse
        = unit * b ^ units.length + Nat.ofDigits b units.reverse := by
          rw [List.reverse_cons, Nat.ofDigits_append, Nat.ofDigits_singleton,
            List.length_reverse, Nat.add_comm, Nat.mul_comm]
      _ = unit * b ^ units.length +
            ∑ i : Fin units.length, units[i] * b ^ (units.length - 1 - i) := by rw [ih]
      _ = ∑ i : Fin (unit :: units).length,
            (unit :: units)[i] * b ^ ((unit :: units).length - 1 - i) := by
          symm
          refine (Fin.sum_univ_succ (n := units.length) _).trans ?_
          congr 1
          refine Finset.sum_congr rfl fun i _ => ?_
          rw [hterm i]
          rfl

theorem polynomial_eq_sum (s : String) :
    polynomial s = ∑ i : Fin (Text.units16 s).length,
      (Text.units16 s)[i] * 31 ^ ((Text.units16 s).length - 1 - i) :=
  ofDigits_reverse_eq_sum 31 (Text.units16 s)

theorem toList_hash (s : String) : (hash s).toList = encode (polynomial s % 2 ^ 31) := by
  rw [hash, String.toList_ofList, toNat_hashWord]

/-- Six digits suffice for 31 bits. -/
theorem length_hash_le (s : String) : (hash s).length ≤ 6 := by
  rw [← String.length_toList, toList_hash]
  -- six digits are enough, since `2 ^ 31` is below `36 ^ 6`
  apply length_encode_le (by omega)
  omega

/-- A hash is the numeral, without leading zeros and of six digits at most, of the text's
polynomial below `2 ^ 31`: a step on 32 bits is a step of the polynomial whatever the word
is, and so is every run of steps. Texts have one hash exactly when their polynomials agree
modulo `2 ^ 31`. -/
theorem hash_exact (s : String) :
    polynomial s = ∑ i : Fin (Text.units16 s).length,
        (Text.units16 s)[i] * 31 ^ ((Text.units16 s).length - 1 - i) ∧
    (∀ (word : UInt32) (unit : Nat),
        (hashStep word unit).toNat = (unit + 31 * word.toNat) % 2 ^ 31) ∧
    (∀ k, (((Text.units16 s).take k).foldl hashStep 0).toNat =
        Nat.ofDigits 31 ((Text.units16 s).take k).reverse % 2 ^ 31) ∧
    (∀ cs, (hash s).toList = cs ↔ Canonical cs ∧ value cs = polynomial s % 2 ^ 31) ∧
    (hash s).length ≤ 6 ∧
    ∀ t, hash s = hash t ↔ polynomial s ≡ polynomial t [MOD 2 ^ 31] := by
  refine ⟨polynomial_eq_sum s, toNat_hashStep, fun k => toNat_foldl_hashStep _, fun cs => ?_,
    length_hash_le s, fun t => hash_eq_iff⟩
  rw [toList_hash, eq_comm, eq_encode_iff]

/-- A character outside the basic plane counts as its two surrogates. -/
example : Text.units16 "😀" = [0xD83D, 0xDE00] ∧ hash "😀" = "11zz7" := by decide +kernel

end HookStyle.Identifier
