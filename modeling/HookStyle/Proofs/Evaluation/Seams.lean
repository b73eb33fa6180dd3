import HookStyle.OrderedMap.Basic
import HookStyle.Proofs.Evaluation.Substitution

/-!
# Where substituted texts meet

Substitution leaves a text without references when the text opens none but those that are
replaced, and when none arises where a bound text meets what stands before and behind it, as
one does where `r(x)` comes to stand behind `va`.

* `prefix_substitute`: what a substituted text starts with was there before, up to the first
  bound text in it.
* `substitute_append`: what stands before a reference is substituted by itself.
* `nextReference?_substitute_iff`: the two conditions are exactly what it takes.
-/

namespace HookStyle.Evaluation

/-- The text opens no reference but to the given names. -/
def OnlyRefersTo (names : List String) (cs : List Char) : Prop :=
  ∀ rest, opening ++ rest <:+ cs → ∃ name ∈ names, reference name <+: opening ++ rest

/-- No reference is opened half at the end of the one text and half at the start of the
other. -/
def Seamless (left right : List Char) : Prop :=
  ∀ front back, front ≠ [] → back ≠ [] → opening = front ++ back → front <:+ left →
    ¬ back <+: right

variable {bindings : List (String × List Char)}

/-! ## Texts without references -/

theorem stripStart?_eq_none_iff {start text : List Char} :
    Text.stripStart? start text = none ↔ ¬ start <+: text := by
  rw [Option.eq_none_iff_forall_ne_some]
  constructor
  · rintro h ⟨rest, hrest⟩
    exact h rest (Text.stripStart?_eq_some_iff.mpr hrest.symm)
  · intro h rest hrest
    exact h ⟨rest, (Text.stripStart?_eq_some_iff.mp hrest).symm⟩

/-- A text has no reference exactly when `var(` is nowhere in it. -/
theorem nextReference?_eq_none_iff {cs : List Char} :
    nextReference? cs = none ↔ ¬ opening <:+: cs := by
  induction cs with
  | nil => exact iff_of_true rfl (by decide)
  | cons c cs ih =>
    rw [nextReference?_cons_eq_none, ih, stripStart?_eq_none_iff, List.infix_cons_iff, not_or]

/-- Two texts side by side have a reference where one of them has, or where they meet. -/
theorem nextReference?_append_eq_none {left right : List Char} :
    nextReference? (left ++ right) = none ↔
      nextReference? left = none ∧ nextReference? right = none ∧ Seamless left right := by
  rw [nextReference?_eq_none_iff, nextReference?_eq_none_iff, nextReference?_eq_none_iff,
    List.infix_append_iff_ne_nil, not_or, not_or]
  refine and_congr_right fun _ => and_congr_right fun _ => ?_
  constructor
  · intro h front back hfront hback heq hleft hright
    exact h ⟨front, back, hfront, hback, heq, hleft, hright⟩
  · rintro h ⟨front, back, hfront, hback, heq, hleft, hright⟩
    exact h front back hfront hback heq hleft hright

theorem Seamless.of_suffix {left left' right : List Char} (h : Seamless left right)
    (hsuffix : left' <:+ left) : Seamless left' right :=
  fun front back hfront hback heq hleft => h front back hfront hback heq (hleft.trans hsuffix)

theorem OnlyRefersTo.of_suffix {names : List String} {cs cs' : List Char}
    (h : OnlyRefersTo names cs) (hsuffix : cs' <:+ cs) : OnlyRefersTo names cs' :=
  fun rest hrest => h rest (hrest.trans hsuffix)

/-! ## References in a text -/

section References

variable {name : String}

theorem reference_append (name : String) (rest : List Char) :
    reference name ++ rest = opening ++ (name.toList ++ ')' :: rest) := by
  rw [reference, List.append_assoc, List.append_assoc, List.singleton_append]

/-- Behind the opening of a reference no other one is opened. -/
theorem not_infix_rest_of_reference (hname : isName name = true) :
    ¬ opening <:+: name.toList ++ [')'] := by
  intro h
  have hparen : '(' ∈ name.toList ++ [')'] := h.subset (by decide)
  rcases List.mem_append.mp hparen with hmem | hmem
  · exact (isNameChar_iff.mp (isNameChar_of_mem hname hmem)).2.1 rfl
  · exact absurd hmem (by decide)

/-- A reference that starts before a seam has its closing parenthesis behind it. -/
theorem closing_mem_of_suffix_reference {part : List Char} (h : part <:+ reference name)
    (hne : part ≠ []) : ')' ∈ part := by
  obtain ⟨before, hbefore⟩ := h
  have hlast := congrArg List.getLast? hbefore
  rw [List.getLast?_append_of_ne_nil before hne, reference, ← List.append_assoc,
    List.getLast?_concat] at hlast
  exact List.mem_of_getLast? hlast

/-- In a reference an opening stands only at the start. -/
theorem eq_nil_of_reference_eq (hname : isName name = true) {before tail : List Char}
    (h : reference name = before ++ (opening ++ tail)) : before = [] := by
  rcases List.append_eq_append_iff.mp h with ⟨between, hbefore, hrest⟩ | ⟨back, hopening, htail⟩
  · -- the opening would stand behind the other one
    refine absurd ?_ (not_infix_rest_of_reference hname)
    rw [hrest]
    exact ⟨between, tail, List.append_assoc ..⟩
  · cases before with
    | nil => rfl
    | cons c before =>
      -- it would start with one of the later characters of an opening
      obtain ⟨-, hlater⟩ := List.cons.inj hopening
      cases back with
      | nil =>
        refine absurd ?_ (not_infix_rest_of_reference hname)
        exact ⟨[], tail, htail⟩
      | cons d back =>
        obtain ⟨hd, -⟩ := List.cons.inj htail
        have hmem : d ∈ ['a', 'r', '('] := by
          change d ∈ opening.tail
          rw [opening, List.tail_cons, hlater]
          simp
        rw [← hd] at hmem
        exact absurd hmem (by decide)

/-- A reference that is opened in or behind another one is that one, or is opened behind it. -/
theorem suffix_of_suffix_reference (hname : isName name = true) {tail rest : List Char}
    (h : opening ++ tail <:+ reference name ++ rest) :
    opening ++ tail = reference name ++ rest ∨ opening ++ tail <:+ rest := by
  obtain ⟨before, hbefore⟩ := h
  rcases List.append_eq_append_iff.mp hbefore with ⟨part, hpart, htail⟩ | ⟨between, -, hrest⟩
  · rcases List.append_eq_append_iff.mp htail with ⟨inside, rfl, -⟩ | ⟨back, hopening, hback⟩
    · left
      rw [eq_nil_of_reference_eq hname hpart, List.nil_append] at hbefore
      exact hbefore
    · -- the opening would have the end of the reference in it
      rcases eq_or_ne part [] with rfl | hne
      · exact Or.inr ⟨[], htail⟩
      · have hclosing := closing_mem_of_suffix_reference ⟨before, hpart.symm⟩ hne
        have hmem : ')' ∈ opening := hopening ▸ List.mem_append_left back hclosing
        exact absurd hmem (by decide)
  · exact Or.inr ⟨between, hrest.symm⟩

end References

/-! ## The binding at the start of a text -/

theorem startBinding?_eq_none_iff {cs : List Char} :
    startBinding? bindings cs = none ↔ ∀ b ∈ bindings, ¬ reference b.1 <+: cs := by
  rw [startBinding?, List.find?_eq_none]
  refine forall₂_congr fun b _ => ?_
  rw [Option.not_isSome_iff_eq_none, stripStart?_eq_none_iff]

theorem startBinding?_of_front {cs cs' : List Char} (h : startBinding? bindings cs = none)
    (hfront : cs' <+: cs) : startBinding? bindings cs' = none :=
  startBinding?_eq_none_iff.mpr fun b hb hstart =>
    startBinding?_eq_none_iff.mp h b hb (hstart.trans hfront)

/-- What a reference asks for can be read from its characters. -/
theorem eq_of_reference_append_eq {name name' : String} (hname : isName name = true)
    (hname' : isName name' = true) {rest rest' : List Char}
    (h : reference name ++ rest = reference name' ++ rest') : name = name' := by
  have htake : ∀ {n : String} (r : List Char), isName n = true →
      (n.toList ++ ')' :: r).takeWhile isNameChar = n.toList := by
    intro n r hn
    rw [List.takeWhile_append_of_pos fun c => isNameChar_of_mem hn]
    simp [isNameChar]
  rw [reference_append, reference_append] at h
  have hbehind := congrArg (List.takeWhile isNameChar) (List.append_cancel_left h)
  rw [htake rest hname, htake rest' hname'] at hbehind
  exact String.toList_injective hbehind

variable (hnames : ∀ b ∈ bindings, isName b.1 = true) (hnodup : (Entries.keys bindings).Nodup)

include hnames hnodup in
theorem startBinding?_of_mem {b : String × List Char} (hb : b ∈ bindings) (rest : List Char) :
    startBinding? bindings (reference b.1 ++ rest) = some b := by
  cases h : startBinding? bindings (reference b.1 ++ rest) with
  | none => exact absurd ⟨rest, rfl⟩ (startBinding?_eq_none_iff.mp h b hb)
  | some b' =>
    obtain ⟨hb', rest', hrest⟩ := startBinding?_eq_some h
    have hkey := eq_of_reference_append_eq (hnames b hb) (hnames b' hb') hrest
    have hlookup := Entries.lookup_of_mem hnodup hb
    rw [hkey, Entries.lookup_of_mem hnodup hb'] at hlookup
    exact congrArg some (Prod.ext hkey.symm (Option.some.inj hlookup))

/-! ## Substitution in parts -/

/-- What a substituted text starts with was there before, or goes over into the first of the
bound texts. -/
theorem prefix_substitute {word cs : List Char} (h : word <+: substitute bindings 0 cs) :
    word <+: cs ∨ ∃ kept back rest, ∃ b ∈ bindings,
      word = kept ++ back ∧ back ≠ [] ∧ cs = kept ++ (reference b.1 ++ rest) ∧
        substitute bindings 0 kept = kept ∧ back <+: b.2 ++ substitute bindings 0 rest := by
  induction word generalizing cs with
  | nil => exact Or.inl List.nil_prefix
  | cons x word ih =>
    cases cs with
    | nil => exact absurd (List.prefix_nil.mp h) (List.cons_ne_nil x word)
    | cons c cs =>
      cases hstart : startBinding? bindings (c :: cs) with
      | none =>
        rw [substitute_cons hstart, List.cons_prefix_cons] at h
        obtain ⟨rfl, hword⟩ := h
        rcases ih hword with hword | ⟨kept, back, rest, b, hb, rfl, hback, rfl, hkept, hright⟩
        · exact Or.inl (List.cons_prefix_cons.mpr ⟨rfl, hword⟩)
        · refine Or.inr ⟨x :: kept, back, rest, b, hb, rfl, hback, rfl, ?_, hright⟩
          rw [substitute_cons (startBinding?_of_front hstart ⟨reference b.1 ++ rest, rfl⟩), hkept]
      | some b =>
        obtain ⟨hb, rest, hrest⟩ := startBinding?_eq_some hstart
        rw [hrest] at hstart h ⊢
        rw [substitute_reference hstart] at h
        exact Or.inr ⟨[], x :: word, rest, b, hb, rfl, List.cons_ne_nil x word, rfl, rfl, h⟩

include hnames hnodup in
/-- What stands before a reference is substituted by itself. -/
theorem substitute_append {b : String × List Char} (hb : b ∈ bindings)
    (before rest : List Char) :
    substitute bindings 0 (before ++ (reference b.1 ++ rest)) =
      substitute bindings 0 before ++ (b.2 ++ substitute bindings 0 rest) := by
  induction before using substituteInduction bindings with
  | nil => exact substitute_reference (startBinding?_of_mem hnames hnodup hb rest)
  | reference b' hb' before hstart ih =>
    rw [List.append_assoc, substitute_reference (startBinding?_of_mem hnames hnodup hb' _),
      substitute_reference hstart, ih, List.append_assoc]
  | cons c before hstart ih =>
    have hnone : startBinding? bindings (c :: before ++ (reference b.1 ++ rest)) = none := by
      refine startBinding?_eq_none_iff.mpr fun b' hb' => ?_
      rintro ⟨rest', hrest'⟩
      -- a reference from before the other one ends before it
      rw [reference_append b.1] at hrest'
      rcases suffix_of_suffix_reference (hnames b' hb') ⟨c :: before, hrest'.symm⟩ with
        heq | ⟨between, rfl⟩
      · have hlength := congrArg List.length (heq.trans hrest')
        simp only [List.length_append, List.length_cons] at hlength
        omega
      · rw [← List.append_assoc] at hrest'
        exact startBinding?_eq_none_iff.mp hstart b' hb'
          ⟨between, List.append_cancel_right hrest'⟩
    rw [List.cons_append] at hnone ⊢
    rw [substitute_cons hnone, substitute_cons hstart, ih, List.cons_append]

/-! ## When no reference is left -/

/-- No reference arises where a bound text meets what comes to stand before it and behind it. -/
def FillsSeamlessly (bindings : List (String × List Char)) (cs : List Char) : Prop :=
  ∀ b ∈ bindings, ∀ before rest, cs = before ++ (reference b.1 ++ rest) →
    Seamless (substitute bindings 0 before) (b.2 ++ substitute bindings 0 rest) ∧
      Seamless b.2 (substitute bindings 0 rest)

theorem FillsSeamlessly.of_cons {c : Char} {cs : List Char}
    (hstart : startBinding? bindings (c :: cs) = none) (h : FillsSeamlessly bindings (c :: cs)) :
    FillsSeamlessly bindings cs := by
  intro b hb before rest hcs
  obtain ⟨hbefore, hrest⟩ := h b hb (c :: before) rest (by rw [hcs, List.cons_append])
  rw [substitute_cons (startBinding?_of_front hstart ⟨reference b.1 ++ rest, by
    rw [hcs, List.cons_append]⟩)] at hbefore
  exact ⟨hbefore.of_suffix (List.suffix_cons _ _), hrest⟩

include hnames hnodup in
theorem FillsSeamlessly.of_reference {b : String × List Char} (hb : b ∈ bindings)
    {rest : List Char} (h : FillsSeamlessly bindings (reference b.1 ++ rest)) :
    FillsSeamlessly bindings rest := by
  intro b' hb' before rest' hrest
  obtain ⟨hbefore, hrest'⟩ := h b' hb' (reference b.1 ++ before) rest'
    (by rw [hrest, List.append_assoc])
  rw [substitute_reference (startBinding?_of_mem hnames hnodup hb before)] at hbefore
  exact ⟨hbefore.of_suffix (List.suffix_append _ _), hrest'⟩

theorem onlyRefersTo_of_substitute (hnames : ∀ b ∈ bindings, isName b.1 = true) {cs : List Char}
    (h : nextReference? (substitute bindings 0 cs) = none) :
    OnlyRefersTo (Entries.keys bindings) cs := by
  intro tail htail
  induction cs using substituteInduction bindings with
  | nil => exact absurd (List.suffix_nil.mp htail) (List.cons_ne_nil _ _)
  | reference b hb rest hstart ih =>
    rw [substitute_reference hstart] at h
    rcases suffix_of_suffix_reference (hnames b hb) htail with heq | hrest
    · exact ⟨b.1, List.mem_map_of_mem hb, rest, heq.symm⟩
    · exact ih (nextReference?_of_append h) hrest
  | cons c cs hstart ih =>
    rw [substitute_cons hstart] at h
    obtain ⟨hopening, hrest⟩ := nextReference?_cons_eq_none.mp h
    rcases List.suffix_cons_iff.mp htail with heq | hsuffix
    · -- an opening that is kept is still there
      have hnone := stripStart?_opening_of_substitute hstart hopening
      exact absurd ⟨tail, heq⟩ (stripStart?_eq_none_iff.mp hnone)
    · exact ih hrest hsuffix

include hnames hnodup

theorem fillsSeamlessly_of_substitute {cs : List Char}
    (h : nextReference? (substitute bindings 0 cs) = none) : FillsSeamlessly bindings cs := by
  rintro b hb before rest rfl
  rw [substitute_append hnames hnodup hb, nextReference?_append_eq_none,
    nextReference?_append_eq_none] at h
  obtain ⟨-, ⟨-, -, hbehind⟩, hbefore⟩ := h
  exact ⟨hbefore, hbehind⟩

theorem nextReference?_substitute (hplain : ∀ b ∈ bindings, nextReference? b.2 = none)
    {cs : List Char} (honly : OnlyRefersTo (Entries.keys bindings) cs)
    (hfills : FillsSeamlessly bindings cs) : nextReference? (substitute bindings 0 cs) = none := by
  induction cs using substituteInduction bindings with
  | nil => rfl
  | reference b hb rest hstart ih =>
    rw [substitute_reference hstart, nextReference?_append_eq_none]
    refine ⟨hplain b hb, ih (honly.of_suffix (List.suffix_append _ _))
      (hfills.of_reference hnames hnodup hb), ?_⟩
    exact (hfills b hb [] rest rfl).2
  | cons c cs hstart ih =>
    rw [substitute_cons hstart, nextReference?_cons_eq_none]
    refine ⟨?_, ih (honly.of_suffix (List.suffix_cons _ _)) (hfills.of_cons hstart)⟩
    rw [stripStart?_eq_none_iff, opening, List.cons_prefix_cons]
    rintro ⟨rfl, hword⟩
    rcases prefix_substitute hword with ⟨rest, hrest⟩ |
      ⟨kept, back, rest, b, hb, hopening, hback, hcs, hkept, hright⟩
    · -- all of the opening was kept: a reference to a bound name starts here
      obtain ⟨name, hname, hreference⟩ := honly rest ⟨[], by rw [← hrest]; rfl⟩
      obtain ⟨b, hb, rfl⟩ := List.mem_map.mp hname
      refine startBinding?_eq_none_iff.mp hstart b hb ?_
      rw [← hrest]
      exact hreference
    · -- its first part was kept, and the rest has come with a bound text
      have hfront : substitute bindings 0 ('v' :: kept) = 'v' :: kept := by
        rw [substitute_cons (startBinding?_of_front hstart
          ⟨reference b.1 ++ rest, by rw [hcs, List.cons_append]⟩), hkept]
      have hseam := (hfills b hb ('v' :: kept) rest (by rw [hcs, List.cons_append])).1
      rw [hfront] at hseam
      refine hseam ('v' :: kept) back (List.cons_ne_nil _ _) hback ?_ List.suffix_rfl hright
      rw [opening, hopening, List.cons_append]

/-- Substitution of texts without references leaves no reference exactly when a text opens none
but to the bound names, and none arises where the texts meet. -/
theorem nextReference?_substitute_iff (hplain : ∀ b ∈ bindings, nextReference? b.2 = none)
    {cs : List Char} : nextReference? (substitute bindings 0 cs) = none ↔
      OnlyRefersTo (Entries.keys bindings) cs ∧ FillsSeamlessly bindings cs :=
  ⟨fun h => ⟨onlyRefersTo_of_substitute hnames h, fillsSeamlessly_of_substitute hnames hnodup h⟩,
    fun h => nextReference?_substitute hnames hnodup hplain h.1 h.2⟩

end HookStyle.Evaluation
