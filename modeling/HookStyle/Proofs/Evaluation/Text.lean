import HookStyle.Text.Blank
import HookStyle.Text.Start
import Mathlib.Data.List.DropRight

/-!
# Evaluation of text with references

A value may contain references `var(name)` and `var(name, fallback)`. Its evaluation puts
the value of the name in their place, or the evaluated fallback when the name has no value;
a reference with neither makes the whole text invalid. A reference ends at the parenthesis
that matches its own, so a fallback may contain parentheses and further references.

* `expand_of_plain`: text without references stands for itself.
* `expand_reference`, `expand_referenceOr`: a reference at the start of a text.
* `expand_append_cons`: two texts side by side are evaluated one by one, when the
  parentheses of the first one match.
-/

namespace HookStyle.Evaluation

/-- What a text evaluates to, or `none` for the invalid value. -/
abbrev Computed := Option (List Char)

/-- The text without the white space at its two ends. -/
def trim (cs : List Char) : List Char := (cs.dropWhile Text.isBlank).rdropWhile Text.isBlank

/-! ## The parts of a reference -/

/-- The characters that open a reference. -/
def opening : List Char := ['v', 'a', 'r', '(']

/-- What stands before the first reference, and what follows its opening. -/
def nextReference? : List Char → Option (List Char × List Char)
  | [] => none
  | c :: cs =>
    match Text.stripStart? opening (c :: cs) with
    | some rest => some ([], rest)
    | none => (nextReference? cs).map fun r => (c :: r.1, r.2)

/-- The number of open parentheses behind a character. -/
def level (depth : Nat) (c : Char) : Nat :=
  if c = '(' then depth + 1 else if c = ')' then depth - 1 else depth

/-- What stands before the parenthesis that closes the text, and what follows it, when
`depth` further ones are open. -/
def closing? : Nat → List Char → Option (List Char × List Char)
  | _, [] => none
  | depth, c :: cs =>
    if c = ')' ∧ depth = 0 then some ([], cs)
    else (closing? (level depth c) cs).map fun r => (c :: r.1, r.2)

def nameOf (inside : List Char) : String := String.ofList (trim (inside.takeWhile (· ≠ ',')))

def fallbackOf? (inside : List Char) : Option (List Char) :=
  match inside.dropWhile (· ≠ ',') with
  | [] => none
  | _ :: fallback => some fallback

/-- The next reference cuts a text at the opening. -/
theorem nextReference?_eq_some {cs before rest : List Char}
    (h : nextReference? cs = some (before, rest)) : cs = before ++ (opening ++ rest) := by
  induction cs generalizing before with
  | nil => cases h
  | cons c cs ih =>
    rw [nextReference?] at h
    split at h
    next r hr =>
      obtain ⟨rfl, rfl⟩ := Prod.mk.inj (Option.some.inj h)
      rw [List.nil_append]
      exact Text.stripStart?_eq_some_iff.mp hr
    next =>
      obtain ⟨⟨b, r⟩, hbr, he⟩ := Option.map_eq_some_iff.mp h
      cases he
      rw [ih hbr, List.cons_append]

/-- What is found inside stands in front of a closing parenthesis. -/
theorem closing?_eq_some {depth : Nat} {cs inside after : List Char}
    (h : closing? depth cs = some (inside, after)) : cs = inside ++ ')' :: after := by
  induction cs generalizing depth inside with
  | nil => cases h
  | cons c cs ih =>
    rw [closing?] at h
    split at h
    next hc =>
      cases h
      rw [hc.1, List.nil_append]
    next =>
      obtain ⟨⟨i, a⟩, hia, he⟩ := Option.map_eq_some_iff.mp h
      cases he
      rw [ih hia, List.cons_append]

theorem fallbackOf?_length {inside fallback : List Char} (h : fallbackOf? inside = some fallback) :
    fallback.length < inside.length := by
  unfold fallbackOf? at h
  split at h
  · cases h
  next c f hf =>
    cases h
    have := (List.dropWhile_suffix (l := inside) (· ≠ ',')).length_le
    rw [hf, List.length_cons] at this
    omega

/-! ## Evaluation -/

/-- The evaluation of a text, where `lookup` gives the values of the names. -/
def expand (lookup : String → Computed) (cs : List Char) : Computed :=
  match _ : nextReference? cs with
  | none => some cs
  | some (before, rest) =>
    match _ : closing? 0 rest with
    | none => none
    | some (inside, after) =>
      let value := match lookup (nameOf inside) with
        | some v => some v
        | none =>
          match _ : fallbackOf? inside with
          | none => none
          | some fallback => (expand lookup fallback).map trim
      value.bind fun v => (expand lookup after).map fun w => before ++ (v ++ w)
termination_by cs.length
decreasing_by
  · have h₁ := congrArg List.length (nextReference?_eq_some ‹nextReference? cs = _›)
    have h₂ := congrArg List.length (closing?_eq_some ‹closing? 0 rest = _›)
    have h₃ := fallbackOf?_length ‹fallbackOf? inside = _›
    simp only [List.length_append, List.length_cons] at h₁ h₂
    omega
  · have h₁ := congrArg List.length (nextReference?_eq_some ‹nextReference? cs = _›)
    have h₂ := congrArg List.length (closing?_eq_some ‹closing? 0 rest = _›)
    simp only [List.length_append, List.length_cons] at h₁ h₂
    omega

/-- The evaluation of a text as the value of a property. -/
def evaluate (lookup : String → Computed) (cs : List Char) : Computed :=
  (expand lookup cs).map trim

/-- A text without references expands to itself. -/
theorem expand_of_plain {cs : List Char} (lookup : String → Computed)
    (h : nextReference? cs = none) : expand lookup cs = some cs := by
  rw [expand]
  split
  · rfl
  next before rest hn =>
    rw [h] at hn
    cases hn

/-- A reference that is never closed makes the whole text invalid. -/
theorem expand_of_unclosed {cs before rest : List Char} (lookup : String → Computed)
    (hn : nextReference? cs = some (before, rest)) (hc : closing? 0 rest = none) :
    expand lookup cs = none := by
  rw [expand]
  split
  next h =>
    rw [hn] at h
    cases h
  next b r h =>
    obtain ⟨rfl, rfl⟩ := Prod.mk.inj (Option.some.inj (hn.symm.trans h))
    split
    · rfl
    next i a h' =>
      rw [hc] at h'
      cases h'

/-- The first reference of a text, and what stands around it. -/
theorem expand_of_reference {cs before rest inside after : List Char}
    (lookup : String → Computed) (hn : nextReference? cs = some (before, rest))
    (hc : closing? 0 rest = some (inside, after)) :
    expand lookup cs =
      ((lookup (nameOf inside)).or
        ((fallbackOf? inside).bind fun f => (expand lookup f).map trim)).bind
          fun v => (expand lookup after).map fun w => before ++ (v ++ w) := by
  rw [expand]
  split
  next h =>
    rw [hn] at h
    cases h
  next b r h =>
    obtain ⟨rfl, rfl⟩ := Prod.mk.inj (Option.some.inj (hn.symm.trans h))
    split
    next h' =>
      rw [hc] at h'
      cases h'
    next i a h' =>
      obtain ⟨rfl, rfl⟩ := Prod.mk.inj (Option.some.inj (hc.symm.trans h'))
      cases hl : lookup (nameOf inside) with
      | some v => rfl
      | none =>
        simp only [Option.none_or]
        split
        next hf =>
          rw [hf]
          rfl
        next f hf => rw [hf, Option.bind_some]

/-! ## Matching parentheses -/

/-- Whether the parentheses of a text match, when `depth` were open before it. -/
def closes : Nat → List Char → Bool
  | depth, [] => depth == 0
  | depth, c :: cs => (c != ')' || depth != 0) && closes (level depth c) cs

/-- A text without references whose parentheses match. -/
def isPlain (s : String) : Bool := (nextReference? s.toList).isNone && closes 0 s.toList

theorem level_add {depth : Nat} {c : Char} (k : Nat) (h : c ≠ ')' ∨ depth ≠ 0) :
    level (depth + k) c = level depth c + k := by
  unfold level
  split
  · omega
  split
  next hc =>
    have : depth ≠ 0 := h.resolve_left fun hn => hn hc
    omega
  · rfl

theorem closes_cons {depth : Nat} {c : Char} {cs : List Char} (h : closes depth (c :: cs) = true) :
    (c ≠ ')' ∨ depth ≠ 0) ∧ closes (level depth c) cs = true := by
  simpa [closes] using h

theorem closes_append {d : Nat} {cs : List Char} (k : Nat) (rest : List Char)
    (h : closes d cs = true) : closes (d + k) (cs ++ rest) = closes k rest := by
  induction cs generalizing d with
  | nil =>
    have hd : d = 0 := by simpa [closes] using h
    rw [hd, Nat.zero_add, List.nil_append]
  | cons c cs ih =>
    obtain ⟨hc, hcs⟩ := closes_cons h
    have hk : (c != ')' || d + k != 0) = true := by
      rcases hc with hc | hd
      · simp [hc]
      · simp [hd]
    rw [List.cons_append, closes, hk, Bool.true_and, level_add k hc, ih hcs]

/-- Behind a start of a text there are some open parentheses, which its end closes. -/
theorem exists_closes_of_append {d : Nat} {start rest : List Char}
    (h : closes d (start ++ rest) = true) : ∃ d', closes d' rest = true := by
  induction start generalizing d with
  | nil => exact ⟨d, h⟩
  | cons c start ih => exact ih (closes_cons h).2

/-- A text whose parentheses match is passed over in the search for a closing one. -/
theorem closing?_append_of_closes {d : Nat} {cs : List Char} (k : Nat) (rest : List Char)
    (h : closes d cs = true) :
    closing? (d + k) (cs ++ rest) = (closing? k rest).map fun r => (cs ++ r.1, r.2) := by
  induction cs generalizing d with
  | nil =>
    have hd : d = 0 := by simpa [closes] using h
    rw [hd, Nat.zero_add]
    simp
  | cons c cs ih =>
    obtain ⟨hc, hcs⟩ := closes_cons h
    have hk : ¬ (c = ')' ∧ d + k = 0) := by
      rintro ⟨rfl, h0⟩
      rcases hc with hc | hd
      · exact hc rfl
      · omega
    rw [List.cons_append, closing?, if_neg hk, level_add k hc, ih hcs, Option.map_map]
    rfl

/-- The parenthesis that closes a reference is the first one behind balanced text. -/
theorem closing?_of_closes {inside : List Char} (after : List Char)
    (h : closes 0 inside = true) : closing? 0 (inside ++ ')' :: after) = some (inside, after) := by
  rw [← Nat.zero_add 0, closing?_append_of_closes 0 _ h]
  simp [closing?]

/-- Behind an open parenthesis, the text that matches all has a matching one. -/
theorem exists_closing {d : Nat} (k : Nat) {cs : List Char} (h : closes (d + 1 + k) cs = true) :
    ∃ inside after, closing? k cs = some (inside, after) ∧ closes d after = true := by
  induction cs generalizing k with
  | nil => simp [closes] at h
  | cons c cs ih =>
    obtain ⟨hc, hcs⟩ := closes_cons h
    rw [closing?]
    split
    next hk =>
      obtain ⟨rfl, rfl⟩ := hk
      exact ⟨[], cs, rfl, hcs⟩
    next hk =>
      have hlevel : level (d + 1 + k) c = d + 1 + level k c := by
        rw [Nat.add_comm (d + 1) k, level_add (d + 1) (by tauto), Nat.add_comm]
      obtain ⟨inside, after, hi, ha⟩ := ih (level k c) (hlevel ▸ hcs)
      exact ⟨c :: inside, after, by rw [hi]; rfl, ha⟩

/-! ## Texts side by side -/

theorem stripStart?_append_cons {start : List Char} {s : Char} (hs : s ∉ start)
    (cs rest : List Char) :
    Text.stripStart? start (cs ++ s :: rest)
      = (Text.stripStart? start cs).map (· ++ s :: rest) := by
  induction start generalizing cs with
  | nil => cases cs <;> rfl
  | cons c start ih =>
    rw [List.mem_cons, not_or] at hs
    cases cs with
    | nil => simp [Text.stripStart?, Ne.symm hs.1]
    | cons d cs =>
      rw [List.cons_append, Text.stripStart?, Text.stripStart?]
      split
      · exact ih hs.2 cs
      · rfl

/-- A character that opens no reference keeps the references of two texts apart. -/
theorem nextReference?_append_cons {s : Char} (hs : s ∉ opening) (cs rest : List Char) :
    nextReference? (cs ++ s :: rest) =
      match nextReference? cs with
      | some (before, r) => some (before, r ++ s :: rest)
      | none => (nextReference? rest).map fun r => (cs ++ s :: r.1, r.2) := by
  induction cs with
  | nil =>
    have h := stripStart?_append_cons hs [] rest
    rw [List.nil_append] at h
    simp only [List.nil_append, nextReference?, h]
    rfl
  | cons c cs ih =>
    have h := stripStart?_append_cons hs (c :: cs) rest
    rw [List.cons_append] at h
    rw [List.cons_append, nextReference?, nextReference?, h, ih]
    cases Text.stripStart? opening (c :: cs) with
    | some r => rfl
    | none =>
      cases nextReference? cs with
      | some r => rfl
      | none =>
        simp only [Option.map_none, Option.map_map]
        rfl

theorem closing?_append {k : Nat} {cs inside after : List Char} (rest : List Char)
    (h : closing? k cs = some (inside, after)) :
    closing? k (cs ++ rest) = some (inside, after ++ rest) := by
  induction cs generalizing k inside with
  | nil => cases h
  | cons c cs ih =>
    rw [closing?] at h
    rw [List.cons_append, closing?]
    split at h
    next hc =>
      obtain ⟨rfl, rfl⟩ := Prod.mk.inj (Option.some.inj h)
      rw [if_pos hc]
    next hc =>
      obtain ⟨⟨i, a⟩, hia, he⟩ := Option.map_eq_some_iff.mp h
      obtain ⟨rfl, rfl⟩ := Prod.mk.inj he
      rw [if_neg hc, ih hia]
      rfl

/-- Behind a text without references the evaluation starts anew. -/
theorem expand_append_cons_of_plain {cs : List Char} {s : Char} (lookup : String → Computed)
    (hs : s ∉ opening) (h : nextReference? cs = none) (rest : List Char) :
    expand lookup (cs ++ s :: rest) = (expand lookup rest).map fun w => cs ++ s :: w := by
  have hnext := nextReference?_append_cons hs cs rest
  rw [h] at hnext
  cases hrest : nextReference? rest with
  | none =>
    rw [hrest] at hnext
    rw [expand_of_plain lookup hnext, expand_of_plain lookup hrest]
    rfl
  | some r =>
    obtain ⟨before, tail⟩ := r
    rw [hrest] at hnext
    cases hc : closing? 0 tail with
    | none =>
      rw [expand_of_unclosed lookup hnext hc, expand_of_unclosed lookup hrest hc]
      rfl
    | some p =>
      obtain ⟨inside, after⟩ := p
      rw [expand_of_reference lookup hnext hc, expand_of_reference lookup hrest hc,
        Option.map_bind]
      simp only [Function.comp_def, Option.map_map, List.append_assoc, List.cons_append]

theorem expand_append_cons {d : Nat} {cs : List Char} {s : Char} (lookup : String → Computed)
    (hs : s ∉ opening) (h : closes d cs = true) (rest : List Char) :
    expand lookup (cs ++ s :: rest) =
      (expand lookup cs).bind fun v => (expand lookup rest).map fun w => v ++ s :: w := by
  -- every reference of `cs` is closed within `cs`, so the evaluation goes on behind it
  induction hn : cs.length using Nat.strongRecOn generalizing d cs with
  | ind n ih =>
    cases hr : nextReference? cs with
    | none =>
      rw [expand_of_plain lookup hr, Option.bind_some]
      exact expand_append_cons_of_plain lookup hs hr rest
    | some r =>
      obtain ⟨before, tail⟩ := r
      have hnext := nextReference?_append_cons hs cs rest
      rw [hr] at hnext
      have hcs := nextReference?_eq_some hr
      obtain ⟨d', hd'⟩ := exists_closes_of_append (hcs ▸ h)
      have htail : closes (d' + 1) tail = true := by
        simpa [opening, closes, level] using hd'
      obtain ⟨inside, after, hi, ha⟩ := exists_closing 0 htail
      have hlen : after.length < n := by
        have h₁ := congrArg List.length hcs
        have h₂ := congrArg List.length (closing?_eq_some hi)
        simp only [List.length_append, List.length_cons] at h₁ h₂
        omega
      rw [expand_of_reference lookup hnext (closing?_append _ hi), expand_of_reference lookup hr hi,
        ih after.length hlen ha rfl, Option.bind_assoc]
      congr 1
      funext v
      cases expand lookup after with
      | none => rfl
      | some w =>
        simp only [Option.bind_some, Option.map_some, Option.map_map, Function.comp_def,
          List.append_assoc]

theorem closes_append_cons {cs : List Char} {s : Char} {rest : List Char}
    (hs : s ≠ '(' ∧ s ≠ ')') (h : closes 0 cs = true) :
    closes 0 (cs ++ s :: rest) = closes 0 rest := by
  have hb : (s != ')') = true := by simpa using hs.2
  have := closes_append 0 (s :: rest) h
  simpa [closes, level, hs.1, hs.2, hb] using this

/-! ## A single reference -/

/-- A character that may stand in the name of a generated property. -/
def isNameChar (c : Char) : Bool := c != ',' && c != '(' && c != ')' && !Text.isBlank c

/-- A name that a reference can ask for as it stands. -/
def isName (s : String) : Bool := s.toList.all isNameChar

theorem isNameChar_iff {c : Char} :
    isNameChar c = true ↔ c ≠ ',' ∧ c ≠ '(' ∧ c ≠ ')' ∧ Text.isBlank c = false := by
  simp [isNameChar, and_assoc]

theorem isNameChar_of_mem {name : String} (h : isName name = true) {c : Char}
    (hc : c ∈ name.toList) : isNameChar c = true := List.all_eq_true.mp h c hc

/-- A name changes no depth. -/
theorem closes_of_isName {cs : List Char} (h : ∀ c ∈ cs, isNameChar c = true) (rest : List Char)
    (d : Nat) : closes d (cs ++ rest) = closes d rest := by
  induction cs with
  | nil => rfl
  | cons c cs ih =>
    obtain ⟨-, ho, hc, -⟩ := isNameChar_iff.mp (h c List.mem_cons_self)
    have hcs : ∀ d ∈ cs, isNameChar d = true := fun d hd => h d (List.mem_cons_of_mem _ hd)
    rw [List.cons_append, closes, level, if_neg ho, if_neg hc, ih hcs]
    simp [hc]

theorem trim_of_isName {cs : List Char} (h : ∀ c ∈ cs, isNameChar c = true) : trim cs = cs := by
  have hb : ∀ c ∈ cs, Text.isBlank c = false := fun c hc => (isNameChar_iff.mp (h c hc)).2.2.2
  have hd : cs.dropWhile Text.isBlank = cs := by
    cases cs with
    | nil => rfl
    | cons c cs => simp [hb c List.mem_cons_self]
  rw [trim, hd, List.rdropWhile_eq_self_iff]
  intro hne
  simp [hb _ (List.getLast_mem hne)]

theorem takeWhile_of_isName {cs : List Char} (h : ∀ c ∈ cs, isNameChar c = true)
    (rest : List Char) : (cs ++ ',' :: rest).takeWhile (· ≠ ',') = cs ∧
      (cs ++ ',' :: rest).dropWhile (· ≠ ',') = ',' :: rest := by
  have hp : ∀ c ∈ cs, decide (c ≠ ',') = true := fun c hc =>
    decide_eq_true (isNameChar_iff.mp (h c hc)).1
  constructor
  · rw [List.takeWhile_append_of_pos hp]
    simp
  · rw [List.dropWhile_append_of_pos hp]
    simp

/-- A reference without a fallback expands to what its name has, and is invalid when it has
nothing. -/
theorem expand_reference {name : String} (lookup : String → Computed)
    (hn : isName name = true) (rest : List Char) :
    expand lookup (opening ++ (name.toList ++ ')' :: rest)) =
      (lookup name).bind fun v => (expand lookup rest).map (v ++ ·) := by
  have hname := fun c => isNameChar_of_mem (c := c) hn
  have hclose : closing? 0 (name.toList ++ ')' :: rest) = some (name.toList, rest) :=
    closing?_of_closes rest (by simpa [closes] using closes_of_isName hname [] 0)
  have hp : ∀ c ∈ name.toList, decide (c ≠ ',') = true := fun c hc =>
    decide_eq_true (isNameChar_iff.mp (hname c hc)).1
  have hno : nameOf name.toList = name := by
    rw [nameOf, List.takeWhile_eq_self_iff.mpr hp, trim_of_isName hname, String.ofList_toList]
  have hf : fallbackOf? name.toList = none := by
    rw [fallbackOf?, List.dropWhile_eq_nil_iff.mpr hp]
  have hnext : nextReference? (opening ++ (name.toList ++ ')' :: rest))
      = some ([], name.toList ++ ')' :: rest) := rfl
  rw [expand_of_reference lookup hnext hclose, hno, hf]
  simp

/-- A reference with a fallback at the start of a text. -/
theorem expand_referenceOr {name : String} {fallback : List Char} (lookup : String → Computed)
    (hn : isName name = true) (hf : closes 0 fallback = true) (rest : List Char) :
    expand lookup (opening ++ (name.toList ++ ',' :: (fallback ++ ')' :: rest))) =
      ((lookup name).or (evaluate lookup fallback)).bind
        fun v => (expand lookup rest).map (v ++ ·) := by
  have hname := fun c => isNameChar_of_mem (c := c) hn
  have hin : closes 0 (name.toList ++ ',' :: fallback) = true := by
    rw [closes_of_isName hname, closes]
    simpa [level] using hf
  have hclose := closing?_of_closes rest hin
  rw [List.append_assoc, List.cons_append] at hclose
  obtain ⟨ht, hd⟩ := takeWhile_of_isName hname fallback
  have hno : nameOf (name.toList ++ ',' :: fallback) = name := by
    rw [nameOf, ht, trim_of_isName hname, String.ofList_toList]
  have hfall : fallbackOf? (name.toList ++ ',' :: fallback) = some fallback := by
    rw [fallbackOf?, hd]
  have hnext : nextReference? (opening ++ (name.toList ++ ',' :: (fallback ++ ')' :: rest)))
      = some ([], name.toList ++ ',' :: (fallback ++ ')' :: rest)) := rfl
  rw [expand_of_reference lookup hnext hclose, hno, hfall]
  simp [evaluate]

/-! ## White space at the ends -/

theorem trim_cons_blank {c : Char} (h : Text.isBlank c = true) (cs : List Char) :
    trim (c :: cs) = trim cs := by
  rw [trim, List.dropWhile_cons_of_pos h, trim]

theorem trim_append_blank {c : Char} (h : Text.isBlank c = true) (cs : List Char) :
    trim (cs ++ [c]) = trim cs := by
  rw [trim, trim, List.dropWhile_append]
  split
  next he =>
    rw [List.isEmpty_iff.mp he]
    simp [h]
  next => exact List.rdropWhile_concat_pos _ _ _ h

theorem trim_trim (cs : List Char) : trim (trim cs) = trim cs := by
  have hfront : (trim cs).dropWhile Text.isBlank = trim cs := by
    obtain ⟨tail, ht⟩ := List.rdropWhile_prefix Text.isBlank (cs.dropWhile Text.isBlank)
    change trim cs ++ tail = _ at ht
    have hi := List.dropWhile_idempotent Text.isBlank cs
    cases hc : trim cs with
    | nil => rfl
    | cons c r =>
      rw [← ht, hc, List.cons_append] at hi
      have hb : ¬ Text.isBlank c = true := List.dropWhile_eq_self_iff.mp hi (Nat.succ_pos _)
      exact List.dropWhile_cons_of_neg hb
  rw [trim, hfront]
  exact List.rdropWhile_idempotent _ _

end HookStyle.Evaluation
