import HookStyle.Chain.Compile
import HookStyle.Style.Keyframes
import HookStyle.Style.Merge

/-!
# The two spellings of a property

A camel-case name and its CSS form name the same property, so a number should have a unit
under both or under neither. Going to the CSS form and back loses only the case of the first
letter. The vendors `Webkit` and `Moz` are known without it as well, and `ms` has none to
lose; but `O` is not known as `o`, so that the CSS form of such a name is taken for a name
without a vendor.

* `camelize_hyphens`: the way to the CSS form and back.
* `hyphenate_hyphenate`: the CSS form is its own CSS form.
* `isUnitless_hyphenate_eq`: the CSS form has a unit unless the name without its first
  capital is known to have none.
* `isUnitless_hyphenate_iff`: where the two spellings are written alike.
-/

namespace HookStyle.Css.Property

/-! ## Letters -/

section Letters

variable {c : Char}

theorem isUpper_iff : c.isUpper = true ↔ 65 ≤ c.toNat ∧ c.toNat ≤ 90 := by
  change decide (65 ≤ c.val ∧ c.val ≤ 90) = true ↔ 65 ≤ c.val.toNat ∧ c.val.toNat ≤ 90
  rw [decide_eq_true_eq, UInt32.le_iff_toNat_le, UInt32.le_iff_toNat_le]
  exact Iff.rfl

theorem isLower_iff : c.isLower = true ↔ 97 ≤ c.toNat ∧ c.toNat ≤ 122 := by
  change (decide (97 ≤ c.val) && decide (c.val ≤ 122)) = true ↔
    97 ≤ c.val.toNat ∧ c.val.toNat ≤ 122
  rw [Bool.and_eq_true, decide_eq_true_eq, decide_eq_true_eq, UInt32.le_iff_toNat_le,
    UInt32.le_iff_toNat_le]
  exact Iff.rfl

theorem toNat_toLower (h : c.isUpper = true) : c.toLower.toNat = c.toNat + 32 := by
  have hc := isUpper_iff.mp h
  have hval : c.val ≥ 'A'.val ∧ c.val ≤ 'Z'.val := of_decide_eq_true h
  have hlower : c.toLower = _ := dif_pos hval
  rw [hlower]
  change (c.val + 32).toNat = c.val.toNat + 32
  change 65 ≤ c.val.toNat ∧ c.val.toNat ≤ 90 at hc
  rw [UInt32.toNat_add]
  change (c.val.toNat + 32) % 4294967296 = _
  omega

theorem toLower_of_isUpper_eq_false (h : c.isUpper = false) : c.toLower = c := by
  have hval : ¬ (c.val ≥ 'A'.val ∧ c.val ≤ 'Z'.val) := of_decide_eq_false h
  exact dif_neg hval

theorem isUpper_toLower (c : Char) : c.toLower.isUpper = false := by
  cases h : c.isUpper with
  | false => rw [toLower_of_isUpper_eq_false h, h]
  | true =>
    have hc := isUpper_iff.mp h
    have hlower := toNat_toLower h
    rw [← Bool.not_eq_true, isUpper_iff]
    omega

/-- No letter turns into a dash. -/
theorem toLower_ne_dash (h : c.isUpper = true) : c.toLower ≠ '-' := by
  intro hdash
  have hc := isUpper_iff.mp h
  have hlower := toNat_toLower h
  rw [hdash] at hlower
  change 45 = _ at hlower
  omega

theorem toNat_toUpper (h : c.isLower = true) : c.toUpper.toNat = c.toNat - 32 := by
  have hc := isLower_iff.mp h
  have hval : 'a'.val ≤ c.val ∧ c.val ≤ 'z'.val := by
    have h' : (decide (97 ≤ c.val) && decide (c.val ≤ 122)) = true := h
    rwa [Bool.and_eq_true, decide_eq_true_eq, decide_eq_true_eq] at h'
  have hupper : c.toUpper = _ := dif_pos hval
  rw [hupper]
  change (c.val + 4294967264).toNat = c.toNat - 32
  rw [UInt32.toNat_add]
  change (c.toNat + 4294967264) % 4294967296 = c.toNat - 32
  omega

theorem toUpper_of_isLower_eq_false (h : c.isLower = false) : c.toUpper = c := by
  have hval : ¬ ('a'.val ≤ c.val ∧ c.val ≤ 'z'.val) := by
    have h' : (decide (97 ≤ c.val) && decide (c.val ≤ 122)) = false := h
    rwa [← Bool.not_eq_true, Bool.and_eq_true, decide_eq_true_eq, decide_eq_true_eq] at h'
  exact dif_neg hval

theorem toUpper_toLower (h : c.isUpper = true) : c.toLower.toUpper = c := by
  have hc := isUpper_iff.mp h
  have hlower := toNat_toLower h
  have hsmall : c.toLower.isLower = true := isLower_iff.mpr (by omega)
  have hupper := toNat_toUpper hsmall
  apply Char.toNat_inj.mp
  omega

theorem toUpper_ne_dash (h : c ≠ '-') : c.toUpper ≠ '-' := by
  cases hc : c.isLower with
  | false => rwa [toUpper_of_isLower_eq_false hc]
  | true =>
    intro hdash
    have hlower := isLower_iff.mp hc
    have hupper := toNat_toUpper hc
    rw [hdash] at hupper
    change 45 = _ at hupper
    omega

end Letters

/-! ## To the CSS form and back -/

variable {c : Char} {cs : List Char}

theorem splitCapitals_cons_of_isUpper (h : c.isUpper = true) (cs : List Char) :
    splitCapitals (c :: cs) = '-' :: c.toLower :: splitCapitals cs := by
  simp [splitCapitals, h]

theorem splitCapitals_cons_of_isUpper_eq_false (h : c.isUpper = false) (cs : List Char) :
    splitCapitals (c :: cs) = c :: splitCapitals cs := by
  simp [splitCapitals, h]

/-- What has been split has no capitals left to split at. -/
theorem splitCapitals_splitCapitals (cs : List Char) :
    splitCapitals (splitCapitals cs) = splitCapitals cs := by
  induction cs with
  | nil => rfl
  | cons c cs ih =>
    cases h : c.isUpper with
    | false =>
      rw [splitCapitals_cons_of_isUpper_eq_false h, splitCapitals_cons_of_isUpper_eq_false h, ih]
    | true =>
      rw [splitCapitals_cons_of_isUpper h, splitCapitals_cons_of_isUpper_eq_false (by decide),
        splitCapitals_cons_of_isUpper_eq_false (isUpper_toLower c), ih]

theorem isUpper_of_mem_splitCapitals (h : c ∈ splitCapitals cs) : c.isUpper = false := by
  obtain ⟨d, -, h⟩ := List.mem_flatMap.mp h
  cases hd : d.isUpper with
  | false =>
    rw [hd, if_neg Bool.false_ne_true, List.mem_singleton] at h
    rwa [h]
  | true =>
    rw [hd, if_pos rfl, List.mem_cons, List.mem_singleton] at h
    rcases h with rfl | rfl
    · decide
    · exact isUpper_toLower d

theorem joinWords_of_not_mem (h : '-' ∉ cs) : joinWords false cs = cs := by
  induction cs with
  | nil => rfl
  | cons c cs ih =>
    rw [List.mem_cons, not_or] at h
    rw [joinWords, if_neg (Ne.symm h.1), ih h.2]
    rfl

/-- Raising the letters behind the dashes undoes the splitting. -/
theorem joinWords_splitCapitals (h : '-' ∉ cs) : joinWords false (splitCapitals cs) = cs := by
  induction cs with
  | nil => rfl
  | cons c cs ih =>
    rw [List.mem_cons, not_or] at h
    cases hc : c.isUpper with
    | false =>
      rw [splitCapitals_cons_of_isUpper_eq_false hc, joinWords, if_neg (Ne.symm h.1), ih h.2]
      rfl
    | true =>
      rw [splitCapitals_cons_of_isUpper hc, joinWords, if_pos rfl, joinWords,
        if_neg (toLower_ne_dash hc), ih h.2, if_pos rfl, toUpper_toLower hc]

/-- Words are joined from the first character that is not a dash. -/
theorem camelize_eq (cs : List Char) :
    camelize cs = joinWords false (cs.dropWhile (· == '-')) := by
  unfold camelize
  split
  · rfl
  next h =>
    have hdrop : cs.dropWhile (· == '-') = cs := by
      cases cs with
      | nil => rfl
      | cons c cs =>
        rw [List.mem_cons, not_or] at h
        exact List.dropWhile_cons_of_neg (by simpa using Ne.symm h.1)
    rw [hdrop, joinWords_of_not_mem h]

theorem exists_of_startsWithMs (h : startsWithMs cs = true) :
    ∃ c rest, cs = 'm' :: 's' :: c :: rest ∧ c.isUpper = true := by
  unfold startsWithMs at h
  split at h
  next c rest => exact ⟨c, rest, rfl, h⟩
  next => cases h

/-- The three ways in which a name without dashes gets its CSS form. -/
theorem hyphens_cases (h : '-' ∉ cs) :
    (cs = [] ∧ hyphens cs = []) ∨
    (∃ c rest, cs = c :: rest ∧ c.isUpper = true ∧
      hyphens cs = '-' :: c.toLower :: splitCapitals rest) ∨
    ∃ c rest, cs = c :: rest ∧ c.isUpper = false ∧
      (hyphens cs = c :: splitCapitals rest ∨
        c = 'm' ∧ hyphens cs = '-' :: c :: splitCapitals rest) := by
  cases cs with
  | nil => exact Or.inl ⟨rfl, rfl⟩
  | cons c rest =>
    have hdash : ¬ (c :: rest).head? = some '-' := by
      rw [List.head?_cons, Option.some.injEq]
      exact fun hc => h (hc ▸ List.mem_cons_self)
    refine Or.inr ?_
    rw [hyphens, if_neg hdash]
    by_cases hms : startsWithMs (c :: rest) = true
    · obtain ⟨d, rest', heq, -⟩ := exists_of_startsWithMs hms
      obtain ⟨rfl, -⟩ := List.cons.inj heq
      rw [if_pos hms, splitCapitals_cons_of_isUpper_eq_false (by decide)]
      exact Or.inr ⟨'m', rest, rfl, by decide, Or.inr ⟨rfl, rfl⟩⟩
    · rw [if_neg hms]
      cases hc : c.isUpper with
      | false =>
        exact Or.inr ⟨c, rest, rfl, hc, Or.inl (splitCapitals_cons_of_isUpper_eq_false hc rest)⟩
      | true => exact Or.inl ⟨c, rest, rfl, hc, splitCapitals_cons_of_isUpper hc rest⟩

/-- A name with its first letter made small. -/
def withSmallStart : List Char → List Char
  | [] => []
  | c :: cs => c.toLower :: cs

/-- The CSS form keeps everything of a name but the case of its first letter. -/
theorem camelize_hyphens (h : '-' ∉ cs) : camelize (hyphens cs) = withSmallStart cs := by
  rw [camelize_eq]
  rcases hyphens_cases h with ⟨rfl, hform⟩ | ⟨c, rest, rfl, hc, hform⟩ |
    ⟨c, rest, rfl, hc, hform⟩
  · rw [hform]
    rfl
  · rw [List.mem_cons, not_or] at h
    rw [hform, List.dropWhile_cons_of_pos (by decide),
      List.dropWhile_cons_of_neg (by simpa using toLower_ne_dash hc), joinWords,
      if_neg (toLower_ne_dash hc), joinWords_splitCapitals h.2]
    rfl
  · have hjoin : joinWords false (c :: splitCapitals rest) = c :: rest := by
      rw [← splitCapitals_cons_of_isUpper_eq_false hc, joinWords_splitCapitals h]
    rw [List.mem_cons, not_or] at h
    have hdrop : (c :: splitCapitals rest).dropWhile (· == '-') = c :: splitCapitals rest :=
      List.dropWhile_cons_of_neg (by simpa using Ne.symm h.1)
    rw [withSmallStart, toLower_of_isUpper_eq_false hc]
    rcases hform with hform | ⟨-, hform⟩
    · rw [hform, hdrop, hjoin]
    · rw [hform, List.dropWhile_cons_of_pos (by decide), hdrop, hjoin]

theorem hyphens_of_dash (cs : List Char) : hyphens ('-' :: cs) = '-' :: cs := rfl

/-- A CSS form is unchanged by making it one again. -/
theorem hyphens_hyphens (cs : List Char) : hyphens (hyphens cs) = hyphens cs := by
  by_cases hdash : cs.head? = some '-'
  · have hsame : hyphens cs = cs := by rw [hyphens, if_pos hdash]
    rw [hsame, hsame]
  by_cases hms : startsWithMs cs = true
  · have hform : hyphens cs = '-' :: splitCapitals cs := by
      rw [hyphens, if_neg hdash, if_pos hms]
    rw [hform, hyphens_of_dash]
  · have hform : hyphens cs = splitCapitals cs := by rw [hyphens, if_neg hdash, if_neg hms]
    rw [hform]
    by_cases hagain : (splitCapitals cs).head? = some '-'
    · rw [hyphens, if_pos hagain]
    · have hsmall : ¬ startsWithMs (splitCapitals cs) = true := by
        intro h
        obtain ⟨c, rest, heq, hc⟩ := exists_of_startsWithMs h
        rw [isUpper_of_mem_splitCapitals (heq ▸ by simp : c ∈ splitCapitals cs)] at hc
        cases hc
      rw [hyphens, if_neg hagain, if_neg hsmall, splitCapitals_splitCapitals]

theorem hyphenate_hyphenate (p : String) : hyphenate (hyphenate p) = hyphenate p := by
  rw [hyphenate, hyphenate, String.toList_ofList, hyphens_hyphens]

/-! ## Units -/

theorem isCustom_of_not_mem (h : '-' ∉ cs) : isCustom cs = false := by
  cases cs with
  | nil => rfl
  | cons c cs =>
    rw [List.mem_cons, not_or] at h
    simp [isCustom, Text.stripStart?, h.1]

/-- The CSS form of a name without dashes has no two dashes in front. -/
theorem isCustom_hyphens (h : '-' ∉ cs) : isCustom (hyphens cs) = false := by
  rcases hyphens_cases h with ⟨rfl, hform⟩ | ⟨c, rest, rfl, hc, hform⟩ |
    ⟨c, rest, rfl, hc, hform⟩
  · rw [hform]
    rfl
  · rw [hform]
    simp [isCustom, Text.stripStart?, Ne.symm (toLower_ne_dash hc)]
  · rw [List.mem_cons, not_or] at h
    rcases hform with hform | ⟨-, hform⟩
    · rw [hform]
      simp [isCustom, Text.stripStart?, h.1]
    · rw [hform]
      simp [isCustom, Text.stripStart?, h.1]

variable {p : String}

/-- A name in the table of properties without a unit. -/
def IsListed (cs : List Char) : Prop := String.ofList cs ∈ unitlessNames

theorem isUnitless_iff (h : '-' ∉ p.toList) :
    isUnitless p = true ↔ IsListed (unprefixed p.toList) := by
  rw [isUnitless, isCustom_of_not_mem h, Bool.false_or, List.contains_iff_mem, camelize,
    if_neg h]
  exact Iff.rfl

/-- The CSS form is listed when the name is listed with a small first letter, which may hide
the vendor in front of it. -/
theorem isUnitless_hyphenate_iff_small (h : '-' ∉ p.toList) :
    isUnitless (hyphenate p) = true ↔ IsListed (unprefixed (withSmallStart p.toList)) := by
  rw [isUnitless, hyphenate, String.toList_ofList, isCustom_hyphens h, Bool.false_or,
    List.contains_iff_mem, camelize_hyphens h]
  exact Iff.rfl

/-- A vendor's name as it stands in front of a camel-case name. -/
def camelVendors : List (List Char) := ["Webkit", "Moz", "O", "ms"].map String.toList

/-- ASCII letters and digits behind a small letter, or behind a vendor's name and a capital. -/
def IsCamelCase (cs : List Char) : Prop :=
  (∀ c ∈ cs, c.isAlphanum = true) ∧
    ((∃ c rest, cs = c :: rest ∧ c.isLower = true) ∨
      ∃ vendor ∈ camelVendors, ∃ c rest, cs = vendor ++ c :: rest ∧ c.isUpper = true)

/-- The vendor `O` in front of a listed name. Made small, it is a vendor no more. -/
def LosesVendor (cs : List Char) : Prop :=
  ∃ c rest, cs = 'O' :: c :: rest ∧ c.isUpper = true ∧ IsListed (c.toLower :: rest)

theorem IsCamelCase.dash_not_mem (h : IsCamelCase cs) : '-' ∉ cs := by
  intro hmem
  have hdash := h.1 '-' hmem
  revert hdash
  decide

theorem unprefixed_webkit (h : c.isUpper = true) (rest : List Char) :
    unprefixed ("Webkit".toList ++ c :: rest) = c.toLower :: rest ∧
      unprefixed ("webkit".toList ++ c :: rest) = c.toLower :: rest := by
  simp [unprefixed, vendors, afterVendor?, Text.stripStart?, h]

theorem unprefixed_moz (h : c.isUpper = true) (rest : List Char) :
    unprefixed ("Moz".toList ++ c :: rest) = c.toLower :: rest ∧
      unprefixed ("moz".toList ++ c :: rest) = c.toLower :: rest := by
  simp [unprefixed, vendors, afterVendor?, Text.stripStart?, h]

theorem unprefixed_o (h : c.isUpper = true) (rest : List Char) :
    unprefixed ('O' :: c :: rest) = c.toLower :: rest ∧
      unprefixed ('o' :: c :: rest) = 'o' :: c :: rest := by
  simp [unprefixed, vendors, afterVendor?, Text.stripStart?, h]

/-- No listed name is a small `o` with a capital behind it. -/
theorem not_isListed_o (h : c.isUpper = true) (rest : List Char) :
    ¬ IsListed ('o' :: c :: rest) := by
  intro hlisted
  have hall : (unitlessNames.all fun name =>
      !(name.toList.head? == some 'o' && (name.toList.drop 1).head?.any Char.isUpper)) = true := by
    decide +kernel
  have hc := List.all_eq_true.mp hall _ hlisted
  rw [String.toList_ofList] at hc
  simp [h] at hc

theorem withSmallStart_of_isLower (h : c.isLower = true) (cs : List Char) :
    withSmallStart (c :: cs) = c :: cs := by
  have hlower := isLower_iff.mp h
  have hc : c.isUpper = false := by
    rw [← Bool.not_eq_true, isUpper_iff]
    omega
  rw [withSmallStart, toLower_of_isUpper_eq_false hc]

theorem not_losesVendor (h : cs.head? ≠ some 'O') : ¬ LosesVendor cs := by
  rintro ⟨c, rest, rfl, -⟩
  exact h rfl

/-- The CSS form of a camel-case name has no unit when the name has none, unless it loses its
vendor. -/
theorem isListed_withSmallStart_iff (h : IsCamelCase cs) :
    IsListed (unprefixed (withSmallStart cs)) ↔ IsListed (unprefixed cs) ∧ ¬ LosesVendor cs := by
  rcases h.2 with ⟨c, rest, rfl, hc⟩ | ⟨vendor, hvendor, c, rest, rfl, hc⟩
  · have hkeeps : ¬ LosesVendor (c :: rest) := not_losesVendor fun hhead => by
      obtain rfl := Option.some.inj hhead
      revert hc
      decide
    rw [withSmallStart_of_isLower hc, and_iff_left hkeeps]
  · simp only [camelVendors, List.map_cons, List.map_nil, List.mem_cons, List.not_mem_nil,
      or_false] at hvendor
    rcases hvendor with rfl | rfl | rfl | rfl
    · have hsmall : withSmallStart ("Webkit".toList ++ c :: rest) =
          "webkit".toList ++ c :: rest := rfl
      rw [hsmall, (unprefixed_webkit hc rest).1, (unprefixed_webkit hc rest).2,
        and_iff_left (not_losesVendor (by simp))]
    · have hsmall : withSmallStart ("Moz".toList ++ c :: rest) = "moz".toList ++ c :: rest := rfl
      rw [hsmall, (unprefixed_moz hc rest).1, (unprefixed_moz hc rest).2,
        and_iff_left (not_losesVendor (by simp))]
    · have hsmall : withSmallStart ("O".toList ++ c :: rest) = 'o' :: c :: rest := rfl
      have hloses : IsListed (c.toLower :: rest) → LosesVendor ("O".toList ++ c :: rest) :=
        fun hlisted => ⟨c, rest, rfl, hc, hlisted⟩
      have hname : unprefixed ("O".toList ++ c :: rest) = c.toLower :: rest :=
        (unprefixed_o hc rest).1
      rw [hsmall, (unprefixed_o hc rest).2, hname]
      exact iff_of_false (not_isListed_o hc rest) fun hboth => hboth.2 (hloses hboth.1)
    · have hsmall : withSmallStart ("ms".toList ++ c :: rest) = "ms".toList ++ c :: rest := rfl
      rw [hsmall, and_iff_left (not_losesVendor (by simp))]

theorem isUnitless_of_losesVendor (h : IsCamelCase p.toList) (hloses : LosesVendor p.toList) :
    isUnitless p = true ∧ isUnitless (hyphenate p) = false := by
  have hdash := h.dash_not_mem
  constructor
  · rw [isUnitless_iff hdash]
    obtain ⟨c, rest, heq, hc, hlisted⟩ := hloses
    rwa [heq, (unprefixed_o hc rest).1]
  · rw [← Bool.not_eq_true, isUnitless_hyphenate_iff_small hdash, isListed_withSmallStart_iff h]
    exact fun hboth => hboth.2 hloses

/-- Both spellings of a name agree on the unit, unless the CSS form loses the vendor. -/
theorem isUnitless_hyphenate_eq (h : IsCamelCase p.toList) (hkeeps : ¬ LosesVendor p.toList) :
    isUnitless (hyphenate p) = isUnitless p := by
  have hdash := h.dash_not_mem
  rw [Bool.eq_iff_iff, isUnitless_hyphenate_iff_small hdash, isListed_withSmallStart_iff h,
    and_iff_left hkeeps, isUnitless_iff hdash]

end HookStyle.Css.Property

namespace HookStyle

open Css Property

/-! ## What is written -/

theorem Css.Value.render_congr {p q : String} (h : isUnitless q = isUnitless p) (v : Value) :
    v.render q = v.render p := by
  cases v with
  | number x => rw [Value.render, Value.render, h]
  | text s => rfl

namespace ToggleSystem

variable {system : ToggleSystem} {p q : String}

/-- A property enters the compiled links only through the way it writes values. -/
theorem compileLinks_congr
    (h : ∀ s, system.renderSetting q s = system.renderSetting p s)
    (links : List (Condition × Setting)) (helpers : List Helper) (inner : Expression) :
    system.compileLinks q links helpers inner = system.compileLinks p links helpers inner := by
  induction links generalizing helpers inner with
  | nil => rfl
  | cons l links ih =>
    obtain ⟨condition, setting⟩ := l
    rw [compileLinks, compileLinks, h setting]
    exact congrArg _ (funext fun r => ih _ _)

/-- A chain is compiled alike for two properties that agree about units. -/
theorem compileChain_congr (h : isUnitless q = isUnitless p) (chain : Chain) :
    system.compileChain q chain = system.compileChain p chain := by
  have hsetting : ∀ s, system.renderSetting q s = system.renderSetting p s := by
    intro s
    cases s with
    | none => rfl
    | some v => exact v.render_congr h
  obtain ⟨base, links⟩ := chain
  cases links with
  | nil => rfl
  | cons l links => simp only [compileChain, hsetting base, compileLinks_congr hsetting]

end ToggleSystem

/-- A camel-case name and its CSS form agree about units exactly when the name does not lose
its vendor. Then chains, keyframes and inline styles are written alike under both; otherwise
every number has the unit `px` under the CSS form only. -/
theorem Css.Property.isUnitless_hyphenate_iff {p : String} (h : IsCamelCase p.toList) :
    (isUnitless (hyphenate p) = isUnitless p ↔ ¬ LosesVendor p.toList) ∧
    (¬ LosesVendor p.toList →
      (∀ (system : ToggleSystem) (chain : Chain),
        system.compileChain (hyphenate p) chain = system.compileChain p chain) ∧
      (∀ (name offset : String) (v : Value),
        Animation.rule name [⟨offset, .single (hyphenate p) v⟩] =
          Animation.rule name [⟨offset, .single p v⟩]) ∧
      ∀ s : Setting, InlineStyle.css (.single (hyphenate p) s) = InlineStyle.css (.single p s)) ∧
    (LosesVendor p.toList → ∀ x : Float,
      (Value.number x).render p = Decimal.ofFloat x ∧
        (Value.number x).render (hyphenate p) = Decimal.ofFloat x ++ "px") := by
  refine ⟨⟨fun heq hloses => ?_, isUnitless_hyphenate_eq h⟩, fun hkeeps => ?_, fun hloses x => ?_⟩
  · obtain ⟨htrue, hfalse⟩ := isUnitless_of_losesVendor h hloses
    rw [hfalse, htrue] at heq
    cases heq
  · have hsame := isUnitless_hyphenate_eq h hkeeps
    refine ⟨fun system chain => ToggleSystem.compileChain_congr hsame chain,
      fun name offset v => ?_, fun s => ?_⟩
    · simp only [Animation.rule, OrderedMap.single, List.map_cons, List.map_nil,
        hyphenate_hyphenate, v.render_congr hsame]
    · have hdeclarations : InlineStyle.declarations (.single (hyphenate p) s) =
          InlineStyle.declarations (.single p s) := by
        cases s with
        | none => rfl
        | some v =>
          simp only [InlineStyle.declarations, OrderedMap.single, List.filterMap_cons,
            Option.map_some, hyphenate_hyphenate, v.render_congr hsame]
      rw [InlineStyle.css, hdeclarations, InlineStyle.css]
  · obtain ⟨htrue, hfalse⟩ := isUnitless_of_losesVendor h hloses
    constructor
    · rw [Value.render, if_pos htrue]
    · rw [Value.render, hfalse, if_neg Bool.false_ne_true]

/-- The size of a tab under the vendor `O`. -/
theorem Css.Property.isUnitless_hyphenate_ne_oTabSize :
    IsCamelCase "OTabSize".toList ∧ LosesVendor "OTabSize".toList ∧
      isUnitless (hyphenate "OTabSize") ≠ isUnitless "OTabSize" := by
  have hcamel : IsCamelCase "OTabSize".toList :=
    ⟨List.all_eq_true.mp (by decide),
      Or.inr ⟨['O'], by decide, 'T', "abSize".toList, rfl, by decide⟩⟩
  have hloses : LosesVendor "OTabSize".toList :=
    ⟨'T', "abSize".toList, rfl, by decide, List.contains_iff_mem.mp (by decide +kernel)⟩
  obtain ⟨hiff, -⟩ := isUnitless_hyphenate_iff hcamel
  exact ⟨hcamel, hloses, fun heq => hiff.mp heq hloses⟩

end HookStyle
