import HookStyle.Proofs.Evaluation.Computed
import HookStyle.Proofs.Toggle.Sheet
import Mathlib.Data.Nat.Digits.Defs
import Mathlib.Data.Nat.ModEq

/-!
# Hooks that share a toggle

The identifier of a hook is made from the hook alone, but it is short: the hash of the
definition keeps the polynomial of its code units modulo `2 ^ 31`, and with pretty layout the
name is shown with its special characters replaced. Two registered hooks share the two
properties of their toggles exactly when both parts agree. Nothing else keeps them apart.

* `toNat_hashWord`: the hash is the polynomial, no step in words of 32 bits loses anything.
* `hash_eq_iff`, `ofHook_eq_iff`: which texts and which hooks have equal identifiers.
* `toggles_disjoint_iff`: which registered hooks have toggles of their own.
-/

namespace HookStyle

namespace Identifier

/-- The polynomial of a text's code units in 31. The last unit is its constant term. -/
def polynomial (s : String) : Nat := Nat.ofDigits 31 (Text.units16 s).reverse

/-- One step of the hash, as arithmetic below `2 ^ 31`. -/
theorem toNat_hashStep (word : UInt32) (unit : Nat) :
    (hashStep word unit).toNat = (unit + 31 * word.toNat) % 2 ^ 31 := by
  have hword := word.toNat_lt
  have hmask : (0x7fffffff : UInt32).toNat = 2 ^ 31 - 1 := rfl
  rw [hashStep, UInt32.toNat_and, hmask, Nat.and_two_pow_sub_one_eq_mod, UInt32.toNat_add,
    UInt32.toNat_sub, UInt32.toNat_shiftLeft, UInt32.toNat_ofNat']
  have hshift : word.toNat <<< ((5 : UInt32).toNat % 32) = word.toNat * 32 := Nat.shiftLeft_eq _ 5
  rw [hshift]
  omega

/-- The hash of a text is a polynomial in 31 with the code units as coefficients, cut to 31
bits. -/
theorem toNat_foldl_hashStep (units : List Nat) :
    (units.foldl hashStep 0).toNat = Nat.ofDigits 31 units.reverse % 2 ^ 31 := by
  induction units using List.reverseRecOn with
  | nil => rfl
  | append_singleton units unit ih =>
    rw [List.foldl_append, List.foldl_cons, List.foldl_nil, toNat_hashStep, ih,
      List.reverse_append, List.reverse_singleton, List.singleton_append, Nat.ofDigits_cons]
    omega

theorem toNat_hashWord (s : String) : (hashWord s).toNat = polynomial s % 2 ^ 31 :=
  toNat_foldl_hashStep _

theorem hash_eq_iff {s t : String} :
    hash s = hash t ↔ polynomial s ≡ polynomial t [MOD 2 ^ 31] := by
  rw [Nat.ModEq, ← toNat_hashWord, ← toNat_hashWord]
  constructor
  · intro h
    have hnumeral := congrArg (fun s => Text.Numeral.value s.toList) h
    simpa [hash, Text.Numeral.value_encode] using hnumeral
  · intro h
    rw [hash, hash, h]

/-- The hash has no dash, so it is what stands behind the last one. -/
theorem takeWhile_append_hash (name s : String) :
    (name ++ "-" ++ hash s).toList.reverse.takeWhile (· != '-') = (hash s).toList.reverse := by
  have hdash : ∀ c ∈ (hash s).toList.reverse, (c != '-') = true := by
    intro c hc
    have hc' := isAlphanum_of_mem_alphabet c (mem_hash (List.mem_reverse.mp hc))
    rw [bne_iff_ne]
    rintro rfl
    revert hc'
    decide
  rw [String.toList_append, String.toList_append, List.append_assoc, List.reverse_append,
    List.reverse_append, List.append_assoc, List.takeWhile_append_of_pos hdash]
  change _ ++ ('-' :: name.toList.reverse).takeWhile (· != '-') = _
  rw [List.takeWhile_cons_of_neg (by decide), List.append_nil]

theorem append_hash_injective {name name' s t : String}
    (h : name ++ "-" ++ hash s = name' ++ "-" ++ hash t) : name = name' ∧ hash s = hash t := by
  have hhash : hash s = hash t := by
    refine String.toList_injective (List.reverse_injective ?_)
    rw [← takeWhile_append_hash name, h, takeWhile_append_hash]
  rw [hhash] at h
  refine ⟨?_, hhash⟩
  have hlist := congrArg String.toList h
  simp only [String.toList_append] at hlist
  exact String.toList_injective (List.append_cancel_right (List.append_cancel_right hlist))

/-- Two hooks collide exactly when the polynomials of their definitions are congruent and,
in the pretty layout, their names look alike. -/
theorem ofHook_eq_iff {layout : Css.Layout} {name name' definition definition' : String} :
    ofHook layout name definition = ofHook layout name' definition' ↔
      polynomial definition ≡ polynomial definition' [MOD 2 ^ 31] ∧
        (layout = .pretty → name.map readable = name'.map readable) := by
  rw [← hash_eq_iff]
  cases layout with
  | compact => simp [ofHook]
  | pretty =>
    constructor
    · intro h
      obtain ⟨hname, hhash⟩ := append_hash_injective h
      exact ⟨hhash, fun _ => hname⟩
    · rintro ⟨hhash, hname⟩
      rw [ofHook, ofHook, hhash, hname rfl]

end Identifier

/-- The two properties of a toggle. -/
def Toggle.sides (t : Toggle) : List String := [t.whenTrue, t.whenFalse]

/-- Toggles share a name only if they share the identifier. -/
theorem Toggle.disjoint_sides_iff {i j : String} :
    List.Disjoint (ofId i).sides (ofId j).sides ↔ i ≠ j := by
  constructor
  · rintro h rfl
    exact h List.mem_cons_self List.mem_cons_self
  · intro hne name hi hj
    simp only [sides, List.mem_cons, List.not_mem_nil, or_false] at hi hj
    rcases hi with rfl | rfl <;> rcases hj with hj | hj
    · exact hne (whenTrue_injective hj)
    · exact whenTrue_ne_whenFalse i j hj
    · exact whenTrue_ne_whenFalse j i hj.symm
    · exact hne (whenFalse_injective hj)

namespace Registry

theorem id?_of_mem_hooks {r : Registry} {hook : Hook} (h : hook ∈ r.hooks) :
    r.toggles.id? hook.name = some (Identifier.ofHook r.layout hook.name hook.definition) := by
  have hmem : (hook.name, hook.definition) ∈ r.toggles.definitions.entries := by
    rw [entries_toggles]
    exact List.mem_map_of_mem h
  exact ToggleSystem.id?_of_mem hmem

/-- The toggle of a registered hook is made from the hook alone. Two registered hooks have
toggles without a common property unless their definitions have the same hash, and with
pretty layout also the same readable names. -/
theorem toggles_disjoint_iff {names : List String} {layout : Css.Layout} {fallback : String}
    {r : Registry} (hr : ofNames names layout fallback = .ok r) :
    (∀ hook ∈ r.hooks, r.toggles.id? hook.name =
        some (Identifier.ofHook layout hook.name hook.definition)) ∧
      ∀ hook ∈ r.hooks, ∀ hook' ∈ r.hooks,
        (List.Disjoint
            (Toggle.ofId (Identifier.ofHook layout hook.name hook.definition)).sides
            (Toggle.ofId (Identifier.ofHook layout hook'.name hook'.definition)).sides ↔
          ¬ (Identifier.polynomial hook.definition ≡
                Identifier.polynomial hook'.definition [MOD 2 ^ 31] ∧
              (layout = .pretty →
                hook.name.map Identifier.readable = hook'.name.map Identifier.readable))) := by
  obtain ⟨hooks, -, rfl⟩ := Outcome.map_eq_ok.mp hr
  refine ⟨fun hook h => id?_of_mem_hooks h, fun hook _ hook' _ => ?_⟩
  rw [Toggle.disjoint_sides_iff, Ne, Identifier.ofHook_eq_iff]

def isAa : Hook := ⟨":is(.Aa)", .selector, by decide⟩

def isBB : Hook := ⟨":is(.BB)", .selector, by decide⟩

/-- Two hooks with one toggle: what `A` and `a` add to the polynomial is what `B` and `B` add. -/
theorem toggles_not_disjoint_isAa : ∃ r,
    ofNames [":is(.Aa)", ":is(.BB)"] .compact ToggleSystem.defaultFallback = .ok r ∧
      isAa ∈ r.hooks ∧ isBB ∈ r.hooks ∧ r.toggles.id? isAa.name = some "159wpx" ∧
        r.toggles.id? isBB.name = some "159wpx" ∧
          ¬ List.Disjoint (Toggle.ofId "159wpx").sides (Toggle.ofId "159wpx").sides := by
  obtain ⟨r, hr, haa, hbb⟩ : ∃ r,
      ofNames [":is(.Aa)", ":is(.BB)"] .compact ToggleSystem.defaultFallback = .ok r ∧
        isAa ∈ r.hooks ∧ isBB ∈ r.hooks :=
    ⟨_, rfl, List.mem_cons_self, List.mem_cons_of_mem _ List.mem_cons_self⟩
  obtain ⟨hid, hdisjoint⟩ := toggles_disjoint_iff hr
  have haaId : Identifier.ofHook .compact isAa.name isAa.definition = "159wpx" := by
    decide +kernel
  have hbbId : Identifier.ofHook .compact isBB.name isBB.definition = "159wpx" := by
    decide +kernel
  have hpolynomial : Identifier.polynomial isAa.definition ≡
      Identifier.polynomial isBB.definition [MOD 2 ^ 31] := by decide +kernel
  have hshared := (hdisjoint isAa haa isBB hbb).not.mpr
    (not_not_intro ⟨hpolynomial, fun h => by cases h⟩)
  rw [haaId, hbbId] at hshared
  exact ⟨r, hr, haa, hbb, (hid isAa haa).trans (congrArg some haaId),
    (hid isBB hbb).trans (congrArg some hbbId), hshared⟩

end Registry

end HookStyle
