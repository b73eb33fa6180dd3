/-!
# Toggles

A toggle is a pair of custom properties of which exactly one holds the invalid value at any
time, so that the fallback of a `var()` reference selects a value.

* `swap_swap`: negation twice changes nothing.
-/

namespace HookStyle

/-- A condition as two custom properties. While the condition holds, `whenTrue` is invalid
and `whenFalse` is blank; otherwise it is the other way round. -/
structure Toggle where
  whenTrue : String
  whenFalse : String
  deriving DecidableEq, Repr

namespace Toggle

def ofId (id : String) : Toggle := ⟨"--" ++ id ++ "-1", "--" ++ id ++ "-0"⟩

/-- The toggle of the negation. -/
def swap (t : Toggle) : Toggle := ⟨t.whenFalse, t.whenTrue⟩

@[simp] theorem swap_swap (t : Toggle) : t.swap.swap = t := rfl

@[simp] theorem swap_whenTrue (t : Toggle) : t.swap.whenTrue = t.whenFalse := rfl

@[simp] theorem swap_whenFalse (t : Toggle) : t.swap.whenFalse = t.whenTrue := rfl

theorem ofId_injective {i j : String} (h : ofId i = ofId j) : i = j := by
  have e := congrArg (fun t => t.whenTrue.toList) h
  simp only [ofId, String.toList_append] at e
  exact String.toList_injective (List.append_cancel_left (List.append_cancel_right e))

end Toggle

end HookStyle
