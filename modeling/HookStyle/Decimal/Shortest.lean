/-!
# The shortest decimal that reads back

A positive binary number `m · 2^q` is the nearest one to every real of an interval around
it. A decimal inside that interval reads back as the number. Among the decimals with the
fewest digits the nearest is taken, and of two at the same distance the greater.

The interval is kept over one denominator, so that all comparisons are exact.

* `nearest?_holds`: a decimal that is found lies in the interval.
* `nearest?_eq_none`: when none is found, neither neighbour on the grid lies in it.
-/

namespace HookStyle

/-- The number `digits · 10^(-places)`. -/
structure Decimal where
  digits : Nat
  places : Int
  deriving DecidableEq, Repr

namespace Decimal

/-- The reals that are read as one binary number. All of `lower`, `value` and `upper`
stand over `den`; the ends belong to the interval when it is `closed`. -/
structure Interval where
  den : Nat
  lower : Nat
  value : Nat
  upper : Nat
  closed : Bool
  deriving DecidableEq, Repr

namespace Interval

/-- The interval of `m · 2^q`. Below the least number of a binade (`edge`) the neighbours
are twice as close. -/
def ofBinary (m : Nat) (q : Int) (edge : Bool) : Interval where
  den := 4 * Nat.pow 2 (-q).toNat
  lower := (4 * m - if edge then 1 else 2) * Nat.pow 2 q.toNat
  value := 4 * m * Nat.pow 2 q.toNat
  upper := (4 * m + 2) * Nat.pow 2 q.toNat
  closed := m % 2 = 0

/-- The interval multiplied by `10^places`. -/
def scale (i : Interval) (places : Int) : Interval where
  den := i.den * Nat.pow 10 (-places).toNat
  lower := i.lower * Nat.pow 10 places.toNat
  value := i.value * Nat.pow 10 places.toNat
  upper := i.upper * Nat.pow 10 places.toNat
  closed := i.closed

/-- An integer that lies in the interval. -/
def Holds (i : Interval) (c : Nat) : Prop :=
  if i.closed then i.lower ≤ c * i.den ∧ c * i.den ≤ i.upper
  else i.lower < c * i.den ∧ c * i.den < i.upper

instance (i : Interval) (c : Nat) : Decidable (i.Holds c) := by
  unfold Holds
  infer_instance

/-- The integer in the interval next to its value, among the two that enclose it. -/
def nearest? (i : Interval) : Option Nat :=
  if i.Holds (i.value / i.den) then
    if i.Holds (i.value / i.den + 1) ∧ (2 * (i.value / i.den) + 1) * i.den ≤ 2 * i.value then
      some (i.value / i.den + 1)
    else some (i.value / i.den)
  else if i.Holds (i.value / i.den + 1) then some (i.value / i.den + 1) else none

/-- The number of decimal digits, none for zero. -/
def digitCount (n : Nat) : Nat := if n = 0 then 0 else (Nat.toDigits 10 n).length

/-- The least `p` such that the value is below `10^p`. -/
def magnitude (i : Interval) : Int :=
  if i.den ≤ i.value then digitCount (i.value / i.den)
  else 1 - (digitCount ((i.den - 1) / i.value) : Int)

/-- The decimal with the fewest digits in the interval; seventeen always suffice. -/
def shortest (i : Interval) : Decimal :=
  let search := (List.range 17).findSome? fun n : Nat =>
    let places := (n : Int) + 1 - i.magnitude
    ((i.scale places).nearest?).map fun c => Decimal.mk c places
  search.getD ⟨i.value / i.den, 0⟩

/-- A candidate that is found lies in the interval. -/
theorem nearest?_holds {i : Interval} {c : Nat} (h : i.nearest? = some c) : i.Holds c := by
  unfold nearest? at h
  split at h
  next hb =>
    split at h
    next ha => exact Option.some.inj h ▸ ha.1
    next => exact Option.some.inj h ▸ hb
  next =>
    split at h
    next ha => exact Option.some.inj h ▸ ha
    next => cases h

/-- None is found only if both neighbours of the value miss the interval. -/
theorem nearest?_eq_none {i : Interval} (h : i.nearest? = none) :
    ¬ i.Holds (i.value / i.den) ∧ ¬ i.Holds (i.value / i.den + 1) := by
  unfold nearest? at h
  split at h
  next =>
    split at h <;> cases h
  next hb =>
    split at h
    next => cases h
    next ha => exact ⟨hb, ha⟩

end Interval

end Decimal

end HookStyle
