import HookStyle.Decimal.Shortest

/-!
# Numbers as text

A number is written in positional notation, never with an exponent: the shortest decimal
that reads back, zeros in place of the digits that are not needed, and no point after a
whole number. Zero keeps its sign; the values that are no numbers are `NaN`, `inf` and
`-inf`.
-/

namespace HookStyle.Decimal

/-- A text without its trailing zeros. -/
def trimZeros (cs : List Char) : List Char := (cs.reverse.dropWhile (· == '0')).reverse

/-- Positional notation. -/
def plain (d : Decimal) : List Char :=
  let digits := Nat.toDigits 10 d.digits
  if d.places ≤ 0 then digits ++ List.replicate (-d.places).toNat '0'
  else
    let places := d.places.toNat
    let padded := List.replicate (places + 1 - digits.length) '0' ++ digits
    let whole := padded.take (padded.length - places)
    match trimZeros (padded.drop (padded.length - places)) with
    | [] => whole
    | fraction => whole ++ '.' :: fraction

/-- The text of a number given by its sign bit and its sixty-three lower bits. -/
def ofParts (negative : Bool) (exponent fraction : Nat) : List Char :=
  let sign := if negative then ['-'] else []
  if exponent = 2047 then
    if fraction = 0 then sign ++ "inf".toList else "NaN".toList
  else if exponent = 0 then
    if fraction = 0 then sign ++ ['0']
    else sign ++ (Interval.ofBinary fraction (-1074) false).shortest.plain
  else
    let edge := fraction == 0 && exponent != 1
    sign ++ (Interval.ofBinary (Nat.pow 2 52 + fraction) (exponent - 1075) edge).shortest.plain

/-- The text of a 64-bit number. -/
def ofFloat (x : Float) : String :=
  let bits := x.toBits.toNat
  String.ofList (ofParts (Nat.pow 2 63 ≤ bits) (bits / Nat.pow 2 52 % Nat.pow 2 11)
    (bits % Nat.pow 2 52))

end HookStyle.Decimal
