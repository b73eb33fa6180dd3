/-!
# White space

The characters of the Unicode property `White_Space`, as ranges of code points. Hook
names are cut at these characters, and a fallback keyword made of them alone is refused.

* `isBlank_of_isWhitespace`: the five ASCII spaces of `Char.isWhitespace` are among them.
-/

namespace HookStyle.Text

/-- First and last code point of each range, in increasing order. -/
def blankRanges : List (Nat × Nat) :=
  [(0x9, 0xD), (0x20, 0x20), (0x85, 0x85), (0xA0, 0xA0), (0x1680, 0x1680), (0x2000, 0x200A),
    (0x2028, 0x2029), (0x202F, 0x202F), (0x205F, 0x205F), (0x3000, 0x3000)]

/-- A character of the property `White_Space`. -/
def isBlank (c : Char) : Bool :=
  blankRanges.any fun range => range.1 ≤ c.toNat && c.toNat ≤ range.2

/-- A text without any visible character; the empty text is one. -/
def isBlankText (s : String) : Bool := s.toList.all isBlank

theorem isBlank_colon : isBlank ':' = false := by decide

theorem isBlank_of_isWhitespace {c : Char} (h : c.isWhitespace = true) : isBlank c = true := by
  simp only [Char.isWhitespace, Bool.or_eq_true, decide_eq_true_eq] at h
  rcases h with (((h | h) | h) | h) <;> subst h <;> decide

end HookStyle.Text
