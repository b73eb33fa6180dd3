/-!
# UTF-16 code units

Identifiers are hashed over the code units of a text, so that a character outside the
basic plane counts as two.

* `units_lt`: a unit has sixteen bits.
* `ofPair?_units`: a pair of surrogates is read back as its character.
-/

namespace HookStyle.Text

/-- The one or two code units of a character. -/
def units (c : Char) : List Nat :=
  if c.toNat < 0x10000 then [c.toNat]
  else [0xD800 + (c.toNat - 0x10000) / 0x400, 0xDC00 + (c.toNat - 0x10000) % 0x400]

/-- The code units of a text, in order. -/
def units16 (s : String) : List Nat := s.toList.flatMap units

def isHighSurrogate (u : Nat) : Bool := 0xD800 ≤ u && u < 0xDC00

def isLowSurrogate (u : Nat) : Bool := 0xDC00 ≤ u && u < 0xE000

/-- The character that two surrogates stand for. -/
def ofPair? (high low : Nat) : Option Char :=
  if isHighSurrogate high && isLowSurrogate low then
    some (Char.ofNat (0x10000 + (high - 0xD800) * 0x400 + (low - 0xDC00)))
  else none

theorem toNat_lt (c : Char) : c.toNat < 0x110000 := by
  have h := c.valid
  simp only [UInt32.isValidChar, Nat.isValidChar] at h
  have : c.toNat = c.val.toNat := rfl
  omega

theorem units_lt {c : Char} {u : Nat} (h : u ∈ units c) : u < 0x10000 := by
  have hc := toNat_lt c
  unfold units at h
  split at h
  · simp at h
    omega
  · simp at h
    omega

/-- A pair of code units stands for the character it came from. -/
theorem ofPair?_units {c : Char} {high low : Nat} (h : units c = [high, low]) :
    ofPair? high low = some c := by
  have hc := toNat_lt c
  unfold units at h
  split at h
  · simp at h
  · simp only [List.cons.injEq, and_true] at h
    obtain ⟨rfl, rfl⟩ := h
    have hh : isHighSurrogate (0xD800 + (c.toNat - 0x10000) / 0x400) = true := by
      simp only [isHighSurrogate, Bool.and_eq_true, decide_eq_true_eq]
      omega
    have hl : isLowSurrogate (0xDC00 + (c.toNat - 0x10000) % 0x400) = true := by
      simp only [isLowSurrogate, Bool.and_eq_true, decide_eq_true_eq]
      omega
    have e : 0x10000 + (0xD800 + (c.toNat - 0x10000) / 0x400 - 0xD800) * 0x400
        + (0xDC00 + (c.toNat - 0x10000) % 0x400 - 0xDC00) = c.toNat := by omega
    simp only [ofPair?, hh, hl, Bool.and_self, if_true, e, Char.ofNat_toNat]

end HookStyle.Text
