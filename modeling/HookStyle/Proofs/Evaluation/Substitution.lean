import HookStyle.Proofs.Evaluation.Expression

/-!
# Substitution in texts

A text may hold references to bound names, each of which stands for a text. Substitution puts
these texts in their place and evaluates nothing else. When no reference is left, this is
what the evaluation of the text gives where the names have these values.

* `expand_substitute`: substitution before evaluation, and evaluation with bound names.
* `closes_substitute`: texts whose parentheses match leave the parentheses around them alone.
* `expand_congr`: the evaluation of a text depends only on names that stand in the text.
-/

namespace HookStyle.Evaluation

/-- The reference to a name, without a fallback. -/
def reference (name : String) : List Char := opening ++ (name.toList ++ [')'])

/-- The first of the bindings whose reference stands at the start of a text. -/
def startBinding? (bindings : List (String × List Char)) (cs : List Char) :
    Option (String × List Char) :=
  bindings.find? fun b => (Text.stripStart? (reference b.1) cs).isSome

/-- Replaces each reference to a bound name by the text bound to it. The first `skip`
characters are the rest of a reference that has been replaced. -/
def substitute (bindings : List (String × List Char)) : Nat → List Char → List Char
  | _, [] => []
  | skip + 1, _ :: cs => substitute bindings skip cs
  | 0, c :: cs =>
    match startBinding? bindings (c :: cs) with
    | some b => b.2 ++ substitute bindings ((reference b.1).length - 1) cs
    | none => c :: substitute bindings 0 cs

variable {bindings : List (String × List Char)}

/-! ## The equations of substitution -/

theorem startBinding?_eq_some {cs : List Char} {b : String × List Char}
    (h : startBinding? bindings cs = some b) :
    b ∈ bindings ∧ ∃ rest, cs = reference b.1 ++ rest := by
  unfold startBinding? at h
  have hstart := List.find?_some h
  refine ⟨List.mem_of_find?_eq_some h, ?_⟩
  obtain ⟨rest, hrest⟩ := Option.isSome_iff_exists.mp hstart
  exact ⟨rest, Text.stripStart?_eq_some_iff.mp hrest⟩

theorem startBinding?_of_ne {c : Char} (h : c ≠ 'v') (cs : List Char) :
    startBinding? bindings (c :: cs) = none := by
  cases hb : startBinding? bindings (c :: cs) with
  | none => rfl
  | some b =>
    obtain ⟨-, rest, hrest⟩ := startBinding?_eq_some hb
    exact absurd (List.cons.inj hrest).1 h

theorem substitute_skip (start rest : List Char) :
    substitute bindings start.length (start ++ rest) = substitute bindings 0 rest := by
  induction start with
  | nil => rfl
  | cons c start ih => rw [List.cons_append, List.length_cons, substitute, ih]

/-- A reference to a bound name is replaced by what is bound to it. -/
theorem substitute_reference {b : String × List Char} {rest : List Char}
    (h : startBinding? bindings (reference b.1 ++ rest) = some b) :
    substitute bindings 0 (reference b.1 ++ rest) = b.2 ++ substitute bindings 0 rest := by
  obtain ⟨tail, htail⟩ : ∃ tail, reference b.1 = 'v' :: tail := ⟨_, rfl⟩
  rw [htail, List.cons_append] at h ⊢
  rw [substitute, h]
  dsimp only
  rw [htail, List.length_cons, Nat.add_sub_cancel, substitute_skip]

/-- A character that starts no such reference is kept. -/
theorem substitute_cons {c : Char} {cs : List Char}
    (h : startBinding? bindings (c :: cs) = none) :
    substitute bindings 0 (c :: cs) = c :: substitute bindings 0 cs := by
  rw [substitute, h]

/-- A text is empty, or it starts with the reference to a bound name or with a character that
is kept. -/
@[elab_as_elim]
theorem substituteInduction (bindings : List (String × List Char)) {motive : List Char → Prop}
    (nil : motive [])
    (reference : ∀ b ∈ bindings, ∀ rest,
      startBinding? bindings (reference b.1 ++ rest) = some b → motive rest →
        motive (reference b.1 ++ rest))
    (cons : ∀ c cs, startBinding? bindings (c :: cs) = none → motive cs → motive (c :: cs)) :
    ∀ cs, motive cs := by
  intro cs
  induction h : cs.length using Nat.strongRecOn generalizing cs with
  | ind n ih =>
    cases cs with
    | nil => exact nil
    | cons c cs =>
      cases hb : startBinding? bindings (c :: cs) with
      | none => exact cons c cs hb (ih cs.length (h ▸ Nat.lt_succ_self _) cs rfl)
      | some b =>
        obtain ⟨hmem, rest, hrest⟩ := startBinding?_eq_some hb
        have hlt : rest.length < n := by
          have hlength := congrArg List.length hrest
          simp only [Evaluation.reference, opening, List.length_append, List.length_cons]
            at hlength h
          omega
        rw [hrest] at hb ⊢
        exact reference b hmem rest hb (ih rest.length hlt rest rfl)

/-! ## Matching parentheses -/

theorem closes_reference {name : String} (h : isName name = true) :
    closes 0 (reference name) = true := by
  rw [reference, Css.Expression.closes_opening, closes_of_isName fun c => isNameChar_of_mem h]
  simp [closes, level]

/-- Replacing references by balanced texts changes no depth. -/
theorem closes_substitute (hbindings : ∀ b ∈ bindings, isName b.1 = true ∧ closes 0 b.2 = true)
    (d : Nat) (cs : List Char) :
    closes d (substitute bindings 0 cs) = closes d cs := by
  induction cs using substituteInduction bindings generalizing d with
  | nil => rfl
  | reference b hb rest hstart ih =>
    obtain ⟨hname, hcloses⟩ := hbindings b hb
    have htext := closes_append d (substitute bindings 0 rest) hcloses
    have hreference := closes_append d rest (closes_reference hname)
    rw [Nat.zero_add] at htext hreference
    rw [substitute_reference hstart, htext, hreference, ih]
  | cons c cs hstart ih => rw [substitute_cons hstart, closes, closes, ih]

/-! ## Evaluation -/

theorem nextReference?_cons_eq_none {c : Char} {cs : List Char} :
    nextReference? (c :: cs) = none ↔
      Text.stripStart? opening (c :: cs) = none ∧ nextReference? cs = none := by
  rw [nextReference?]
  cases Text.stripStart? opening (c :: cs) <;> simp

/-- The end of a text without references has none. -/
theorem nextReference?_of_append {start rest : List Char}
    (h : nextReference? (start ++ rest) = none) : nextReference? rest = none := by
  induction start with
  | nil => exact h
  | cons c start ih => exact ih (nextReference?_cons_eq_none.mp h).2

/-- A character that opens no reference stands for itself. -/
theorem expand_cons {c : Char} {cs : List Char} (lookup : String → Computed)
    (h : Text.stripStart? opening (c :: cs) = none) :
    expand lookup (c :: cs) = (expand lookup cs).map (c :: ·) := by
  have hnext : nextReference? (c :: cs) = (nextReference? cs).map fun r => (c :: r.1, r.2) := by
    rw [nextReference?, h]
  cases hrest : nextReference? cs with
  | none =>
    rw [hrest] at hnext
    rw [expand_of_plain lookup hnext, expand_of_plain lookup hrest]
    rfl
  | some r =>
    obtain ⟨before, tail⟩ := r
    rw [hrest] at hnext
    cases hc : closing? 0 tail with
    | none =>
      rw [expand_of_unclosed lookup hnext hc, expand_of_unclosed lookup hrest hc]
      rfl
    | some p =>
      rw [expand_of_reference lookup hnext hc, expand_of_reference lookup hrest hc,
        Option.map_bind]
      simp only [Function.comp_def, Option.map_map, List.cons_append]

/-- Substitution neither replaces the opening of a reference to another name nor splits it. -/
theorem stripStart?_opening_of_substitute {c : Char} {cs : List Char}
    (hstart : startBinding? bindings (c :: cs) = none)
    (h : Text.stripStart? opening (c :: substitute bindings 0 cs) = none) :
    Text.stripStart? opening (c :: cs) = none := by
  rw [Option.eq_none_iff_forall_ne_some]
  intro rest hrest
  obtain ⟨rfl, rfl⟩ := List.cons.inj (Text.stripStart?_eq_some_iff.mp hrest)
  change Text.stripStart? opening
    ('v' :: substitute bindings 0 ('a' :: 'r' :: '(' :: rest)) = none at h
  rw [substitute_cons (startBinding?_of_ne (by decide) _),
    substitute_cons (startBinding?_of_ne (by decide) _),
    substitute_cons (startBinding?_of_ne (by decide) _)] at h
  cases h

/-- When substitution leaves no reference, it gives the value of the text. -/
theorem expand_substitute {lookup : String → Computed}
    (hbindings : ∀ b ∈ bindings, isName b.1 = true ∧ lookup b.1 = some b.2) {cs : List Char}
    (h : nextReference? (substitute bindings 0 cs) = none) :
    expand lookup cs = some (substitute bindings 0 cs) := by
  induction cs using substituteInduction bindings with
  | nil => exact Css.Expression.expand_nil lookup
  | reference b hb rest hstart ih =>
    obtain ⟨hname, hvalue⟩ := hbindings b hb
    rw [substitute_reference hstart] at h ⊢
    have hexpand := expand_reference lookup hname rest
    rw [hvalue, ih (nextReference?_of_append h), Option.bind_some, Option.map_some] at hexpand
    rw [reference, List.append_assoc, List.append_assoc, List.singleton_append, hexpand]
  | cons c cs hstart ih =>
    rw [substitute_cons hstart] at h ⊢
    obtain ⟨hopening, hrest⟩ := nextReference?_cons_eq_none.mp h
    rw [expand_cons lookup (stripStart?_opening_of_substitute hstart hopening), ih hrest,
      Option.map_some]

/-! ## The names that a text asks for -/

theorem isInfix_trim (cs : List Char) : trim cs <:+: cs :=
  (List.rdropWhile_prefix _ _).isInfix.trans (List.dropWhile_suffix _).isInfix

theorem isInfix_nameOf (inside : List Char) : (nameOf inside).toList <:+: inside := by
  rw [nameOf, String.toList_ofList]
  exact (isInfix_trim _).trans (List.takeWhile_prefix _).isInfix

theorem isSuffix_fallbackOf? {inside fallback : List Char}
    (h : fallbackOf? inside = some fallback) : fallback <:+ inside := by
  unfold fallbackOf? at h
  split at h
  · cases h
  next c f hf =>
    obtain rfl := Option.some.inj h
    exact (List.suffix_cons c f).trans (hf ▸ List.dropWhile_suffix _)

/-- The evaluation of a text is the same where the names that stand in it have the same
values. -/
theorem expand_congr {lookup lookup' : String → Computed} {cs : List Char}
    (h : ∀ name : String, name.toList <:+: cs → lookup name = lookup' name) :
    expand lookup cs = expand lookup' cs := by
  induction hn : cs.length using Nat.strongRecOn generalizing cs with
  | ind n ih =>
    cases hr : nextReference? cs with
    | none => rw [expand_of_plain lookup hr, expand_of_plain lookup' hr]
    | some r =>
      obtain ⟨before, tail⟩ := r
      cases hc : closing? 0 tail with
      | none => rw [expand_of_unclosed lookup hr hc, expand_of_unclosed lookup' hr hc]
      | some p =>
        obtain ⟨inside, after⟩ := p
        have hcs : cs = (before ++ opening) ++ inside ++ ')' :: after := by
          rw [nextReference?_eq_some hr, closing?_eq_some hc]
          simp
        have hinside : inside <:+: cs := ⟨_, _, hcs.symm⟩
        have hafter : after <:+ cs := ⟨(before ++ opening) ++ inside ++ [')'], by simp [hcs]⟩
        have hlength := congrArg List.length hcs
        simp only [List.length_append, List.length_cons] at hlength
        have hvalue := h (nameOf inside) ((isInfix_nameOf inside).trans hinside)
        have hfallback : ∀ f, fallbackOf? inside = some f → expand lookup f = expand lookup' f := by
          intro f hf
          refine ih f.length ?_ (fun name hname => h name ?_) rfl
          · have := fallbackOf?_length hf
            omega
          · exact (hname.trans (isSuffix_fallbackOf? hf).isInfix).trans hinside
        rw [expand_of_reference lookup hr hc, expand_of_reference lookup' hr hc, hvalue,
          ih after.length (by omega) (fun name hname => h name (hname.trans hafter.isInfix)) rfl]
        cases hf : fallbackOf? inside with
        | none => rfl
        | some f => rw [Option.bind_some, Option.bind_some, hfallback f hf]

end HookStyle.Evaluation
