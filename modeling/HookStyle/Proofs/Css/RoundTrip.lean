import HookStyle.Proofs.Style.Scripts

/-!
# Names that their CSS form keeps

The way to the CSS form and back gives a name again exactly when the name has no dash and
does not start with a capital: a capital at the start comes back small, and dashes do not
come back at all. So names of this kind never share a CSS form, and what is written under
different names of a style or a frame is declared under different names.

* `dash_not_mem_camelize`: a camel-case form has no dashes, whatever it is made from.
* `camelize_hyphens_eq_iff`: which names come back.
* `hyphens_eq_iff`: which names without dashes share their CSS form.
* `nodup_map_hyphenate`: the CSS names of the keys of a map.
* `hyphenate_lossless`: the names, and what is written under them.
-/

namespace HookStyle

namespace Css.Property

variable {cs : List Char}

/-! ## There and back -/

theorem dash_not_mem_joinWords (raised : Bool) (cs : List Char) : '-' ∉ joinWords raised cs := by
  induction cs generalizing raised with
  | nil => exact List.not_mem_nil
  | cons c cs ih =>
    rw [joinWords]
    by_cases hc : c = '-'
    · rw [if_pos hc]
      exact ih true
    · rw [if_neg hc, List.mem_cons, not_or]
      refine ⟨?_, ih false⟩
      cases raised with
      | false => exact Ne.symm hc
      | true => exact (toUpper_ne_dash hc).symm

theorem dash_not_mem_camelize (cs : List Char) : '-' ∉ camelize cs := by
  rw [camelize_eq]
  exact dash_not_mem_joinWords false _

/-- A name without dashes that does not start with a capital. -/
structure Uncapitalized (cs : List Char) : Prop where
  dash_not_mem : '-' ∉ cs
  head_small : ∀ c ∈ cs.head?, c.isUpper = false

instance (cs : List Char) : Decidable (Uncapitalized cs) :=
  decidable_of_iff ('-' ∉ cs ∧ (cs.head?.all fun c => !c.isUpper) = true) (by
    rw [Option.all_eq_true]
    simp only [Bool.not_eq_true']
    exact ⟨fun h => ⟨h.1, h.2⟩, fun h => ⟨h.1, h.2⟩⟩)

/-- A name with a small first letter is left alone. -/
theorem withSmallStart_eq_iff :
    withSmallStart cs = cs ↔ ∀ c ∈ cs.head?, c.isUpper = false := by
  cases cs with
  | nil => simp [withSmallStart]
  | cons c cs =>
    rw [withSmallStart]
    constructor
    · intro h d hd
      obtain rfl := Option.some.inj hd
      rw [← (List.cons.inj h).1]
      exact isUpper_toLower _
    · intro h
      rw [toLower_of_isUpper_eq_false (h c rfl)]

/-- A dash anywhere, or a capital at the start, is lost on the way to the CSS form and back. -/
theorem camelize_hyphens_eq_iff : camelize (hyphens cs) = cs ↔ Uncapitalized cs := by
  constructor
  · intro h
    have hdash : '-' ∉ cs := h ▸ dash_not_mem_camelize (hyphens cs)
    rw [camelize_hyphens hdash] at h
    exact ⟨hdash, withSmallStart_eq_iff.mp h⟩
  · rintro ⟨hdash, hhead⟩
    rw [camelize_hyphens hdash]
    exact withSmallStart_eq_iff.mpr hhead

variable {p q : String}

theorem camelize_hyphenate_eq_iff :
    camelize (hyphenate p).toList = p.toList ↔ Uncapitalized p.toList := by
  rw [hyphenate, String.toList_ofList]
  exact camelize_hyphens_eq_iff

/-- Names that can be read back have different CSS forms. -/
theorem hyphenate_inj (hp : Uncapitalized p.toList) (hq : Uncapitalized q.toList) :
    hyphenate p = hyphenate q ↔ p = q := by
  constructor
  · intro h
    apply String.toList_injective
    calc p.toList = camelize (hyphenate p).toList := (camelize_hyphenate_eq_iff.mpr hp).symm
      _ = camelize (hyphenate q).toList := by rw [h]
      _ = q.toList := camelize_hyphenate_eq_iff.mpr hq
  · exact congrArg hyphenate

/-! ## Names with one CSS form -/

/-- Two names that the case of their first letter tells apart. The vendor `ms` is written
small before a capital, and has the dash of a capital all the same. -/
def VendorTwins (cs ds : List Char) : Prop :=
  ∃ c rest, c.isUpper = true ∧ cs = 'm' :: 's' :: c :: rest ∧ ds = 'M' :: 's' :: c :: rest

/-- The two spellings of the vendor's name `ms` have one CSS form. -/
theorem VendorTwins.hyphens_eq {ds : List Char} (h : VendorTwins cs ds) :
    hyphens cs = hyphens ds := by
  obtain ⟨c, rest, hc, rfl, rfl⟩ := h
  have hvendor : startsWithMs ('m' :: 's' :: c :: rest) = true := hc
  have hsmall : splitCapitals ('m' :: 's' :: c :: rest) = 'm' :: splitCapitals ('s' :: c :: rest) :=
    splitCapitals_cons_of_isUpper_eq_false (by decide) _
  have hlarge : splitCapitals ('M' :: 's' :: c :: rest) =
      '-' :: 'm' :: splitCapitals ('s' :: c :: rest) :=
    splitCapitals_cons_of_isUpper (by decide) _
  rw [hyphens, if_neg (by simp), if_pos hvendor, hyphens, if_neg (by simp),
    if_neg (by simp [startsWithMs]), hsmall, hlarge]

/-- A CSS form gets a dash in front for a capital and for the small vendor. -/
theorem head?_hyphens_eq_dash_iff (h : '-' ∉ cs) :
    (hyphens cs).head? = some '-' ↔ startsWithMs cs = true ∨ ∃ c ∈ cs.head?, c.isUpper = true := by
  have hhead : cs.head? ≠ some '-' := fun hdash => h (List.mem_of_mem_head? hdash)
  rw [hyphens, if_neg hhead]
  by_cases hms : startsWithMs cs = true
  · rw [if_pos hms]
    exact iff_of_true rfl (Or.inl hms)
  · rw [if_neg hms, head?_splitCapitals, Option.map_eq_some_iff, or_iff_right hms]
    refine exists_congr fun c => and_congr_right fun hc => ?_
    cases hupper : c.isUpper with
    | true => simp
    | false => simpa using fun hdash : c = '-' => hhead (hdash ▸ hc)

/-- A capital and its small letter in front of one rest. -/
theorem vendorTwins_of_hyphens_eq {c : Char} {rest : List Char} (hc : c.isUpper = true)
    (hdash : '-' ∉ rest) (h : hyphens (c.toLower :: rest) = hyphens (c :: rest)) :
    VendorTwins (c.toLower :: rest) (c :: rest) := by
  have hlarge : '-' ∉ c :: rest := by
    rw [List.mem_cons, not_or]
    refine ⟨?_, hdash⟩
    rintro rfl
    revert hc
    decide
  have hsmall : '-' ∉ c.toLower :: rest := by
    rw [List.mem_cons, not_or]
    exact ⟨(toLower_ne_dash hc).symm, hdash⟩
  have hhead := (head?_hyphens_eq_dash_iff hlarge).mpr (Or.inr ⟨c, rfl, hc⟩)
  rw [← h, head?_hyphens_eq_dash_iff hsmall] at hhead
  rcases hhead with hms | ⟨d, hd, hupper⟩
  · obtain ⟨e, rest, heq, he⟩ := exists_of_startsWithMs hms
    obtain ⟨hm, rfl⟩ := List.cons.inj heq
    have hcapital : c = 'M' := by
      rw [← toUpper_toLower hc, hm]
      rfl
    exact ⟨e, rest, he, heq, by rw [hcapital]⟩
  · obtain rfl := Option.some.inj hd
    rw [isUpper_toLower] at hupper
    cases hupper

/-- Names without dashes share their CSS form only when they are such twins. -/
theorem hyphens_eq_iff {ds : List Char} (hcs : '-' ∉ cs) (hds : '-' ∉ ds) :
    hyphens cs = hyphens ds ↔ cs = ds ∨ VendorTwins cs ds ∨ VendorTwins ds cs := by
  constructor
  · intro h
    have hsmall : withSmallStart cs = withSmallStart ds := by
      rw [← camelize_hyphens hcs, h, camelize_hyphens hds]
    cases cs with
    | nil =>
      cases ds with
      | nil => exact Or.inl rfl
      | cons d ds => cases hsmall
    | cons c cs =>
      cases ds with
      | nil => cases hsmall
      | cons d ds =>
        obtain ⟨hletter, rfl⟩ := List.cons.inj hsmall
        have hrest : '-' ∉ cs := fun hmem => hcs (List.mem_cons_of_mem _ hmem)
        cases hc : c.isUpper with
        | true =>
          cases hd : d.isUpper with
          | true =>
            rw [← toUpper_toLower hc, hletter, toUpper_toLower hd]
            exact Or.inl rfl
          | false =>
            rw [toLower_of_isUpper_eq_false hd] at hletter
            subst hletter
            exact Or.inr (Or.inr (vendorTwins_of_hyphens_eq hc hrest h.symm))
        | false =>
          rw [toLower_of_isUpper_eq_false hc] at hletter
          subst hletter
          cases hd : d.isUpper with
          | true => exact Or.inr (Or.inl (vendorTwins_of_hyphens_eq hd hrest h))
          | false =>
            rw [toLower_of_isUpper_eq_false hd]
            exact Or.inl rfl
  · rintro (rfl | h | h)
    · rfl
    · exact h.hyphens_eq
    · exact h.hyphens_eq.symm

theorem hyphenate_eq_iff (hp : '-' ∉ p.toList) (hq : '-' ∉ q.toList) :
    hyphenate p = hyphenate q ↔
      p = q ∨ VendorTwins p.toList q.toList ∨ VendorTwins q.toList p.toList := by
  rw [hyphenate, hyphenate, String.ofList_inj, hyphens_eq_iff hp hq, String.toList_inj]

/-! ## Names of declarations -/

/-- All keys of a map are names that their CSS form keeps. -/
def UncapitalizedKeys {α : Type} (m : OrderedMap α) : Prop :=
  ∀ key ∈ m.keys, Uncapitalized key.toList

instance {α : Type} (m : OrderedMap α) : Decidable (UncapitalizedKeys m) :=
  inferInstanceAs (Decidable (∀ key ∈ m.keys, Uncapitalized key.toList))

theorem nodup_map_hyphenate {α : Type} {m : OrderedMap α} (h : UncapitalizedKeys m) :
    (m.keys.map hyphenate).Nodup :=
  m.keys_nodup.map_on fun p hp q hq => (hyphenate_inj (h p hp) (h q hq)).mp

end Css.Property

open Css.Property

/-- The properties that have a value are declared in their order. -/
theorem InlineStyle.names_declarations_sublist (inline : InlineStyle) :
    (inline.declarations.map Prod.fst).Sublist (inline.keys.map hyphenate) := by
  change ((inline.entries.filterMap _).map Prod.fst).Sublist
    ((Entries.keys inline.entries).map hyphenate)
  induction inline.entries with
  | nil => exact List.Sublist.refl _
  | cons e es ih =>
    rw [Entries.keys_cons, List.map_cons, List.filterMap_cons]
    cases he : e.2 with
    | none => exact ih.cons _
    | some v => exact ih.cons_cons _

/-- A frame declares its properties under their CSS forms, in their order. -/
theorem Animation.names_script {animation : Animation} {name : String}
    {frame : String × List (String × String)} (h : frame ∈ (animation.script name).frames) :
    ∃ f ∈ animation, frame.2.map Prod.fst = f.properties.keys.map hyphenate := by
  obtain ⟨f, hf, rfl⟩ := List.mem_map.mp h
  refine ⟨f, hf, ?_⟩
  rw [OrderedMap.keys, Entries.keys, List.map_map, List.map_map]
  rfl

/-- The CSS form of a name leads back to the name exactly when the name has no dash and does
not start with a capital. Different names of this kind have different CSS forms, so that an
inline style or a frame that has no other names declares no name twice; and of all names
without dashes, only the vendor `ms` and its capitalised twin share one. The CSS form of any
text is its own CSS form. -/
theorem Css.Property.hyphenate_lossless :
    (∀ p : String, camelize (hyphenate p).toList = p.toList ↔ Uncapitalized p.toList) ∧
    (∀ p q : String, Uncapitalized p.toList → Uncapitalized q.toList →
      (hyphenate p = hyphenate q ↔ p = q)) ∧
    (∀ p q : String, '-' ∉ p.toList → '-' ∉ q.toList →
      (hyphenate p = hyphenate q ↔
        p = q ∨ VendorTwins p.toList q.toList ∨ VendorTwins q.toList p.toList)) ∧
    (∀ inline : InlineStyle, UncapitalizedKeys inline →
      (inline.declarations.map Prod.fst).Nodup) ∧
    (∀ (animation : Animation) (name : String),
      (∀ frame ∈ animation, UncapitalizedKeys frame.properties) →
        ∀ frame ∈ (animation.script name).frames, (frame.2.map Prod.fst).Nodup) ∧
    ∀ q : String, hyphenate (hyphenate q) = hyphenate q := by
  refine ⟨fun p => camelize_hyphenate_eq_iff, fun p q => hyphenate_inj,
    fun p q => hyphenate_eq_iff, fun inline h => ?_, fun animation name h frame hframe => ?_,
    hyphenate_hyphenate⟩
  · exact (nodup_map_hyphenate h).sublist inline.names_declarations_sublist
  · obtain ⟨f, hf, hnames⟩ := Animation.names_script hframe
    rw [hnames]
    exact nodup_map_hyphenate (h f hf)

/-- A vendor's property beside the plain one, and a name with capitals in a row. -/
def transforms : OrderedMap Css.Value where
  entries := [("msTransform", .text "none"), ("transform", .text "none"), ("éXY", .text "0")]
  keys_nodup := by decide

/-- The vendor's property would be declared twice if it were also written with a capital. -/
theorem Css.Property.hyphenate_lossless_transforms :
    camelize (hyphenate "msTransform").toList = "msTransform".toList ∧
      hyphenate "msTransform" ≠ hyphenate "transform" ∧
      hyphenate "msTransform" = hyphenate "MsTransform" ∧
      camelize (hyphenate "MsTransform").toList ≠ "MsTransform".toList ∧
      ((InlineStyle.declarations (transforms.filterMap fun v => some (some v))).map
        Prod.fst).Nodup ∧
      ∀ frame ∈ (Animation.script [⟨"from", transforms⟩] "turn").frames,
        (frame.2.map Prod.fst).Nodup := by
  obtain ⟨hback, hinj, htwins, hinline, hframes, -⟩ := hyphenate_lossless
  have hvendor : Uncapitalized "msTransform".toList := by decide +kernel
  have hplain : Uncapitalized "transform".toList := by decide +kernel
  have hcapital : ¬ Uncapitalized "MsTransform".toList := by decide +kernel
  have hkeys : UncapitalizedKeys transforms := by decide +kernel
  have htwin : VendorTwins "msTransform".toList "MsTransform".toList :=
    ⟨'T', "ransform".toList, by decide, rfl, rfl⟩
  refine ⟨(hback _).mpr hvendor, (hinj _ _ hvendor hplain).not.mpr (by decide +kernel),
    (htwins _ _ hvendor.dash_not_mem (by decide +kernel)).mpr (Or.inr (Or.inl htwin)),
    (hback _).not.mpr hcapital, hinline _ hkeys, hframes _ _ fun frame hframe => ?_⟩
  rw [List.mem_singleton.mp hframe]
  exact hkeys

end HookStyle
