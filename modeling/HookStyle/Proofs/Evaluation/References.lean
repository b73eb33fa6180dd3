import HookStyle.Proofs.Evaluation.Expression

/-!
# What a text refers to

The names that a text refers to stand behind the openings of its references, those in
fallbacks included. Commas, blanks and closing parentheses keep the references of two texts
apart, so an expression refers to the names that it was built with, and to whatever its raw
texts refer to.

* `references_append_cons`: two texts side by side.
* `mem_references_render`: the text of an expression.
* `links_nested`, `links_joined`: the two shapes that helpers have.
-/

namespace HookStyle

namespace Evaluation

/-- The names that the references of a text ask for, in order. -/
def references (cs : List Char) : List String :=
  match _ : nextReference? cs with
  | none => []
  | some (_, rest) => String.ofList (rest.takeWhile isNameChar) :: references rest
termination_by cs.length
decreasing_by
  have h := congrArg List.length (nextReference?_eq_some ‹nextReference? cs = _›)
  simp only [opening, List.length_append, List.length_cons] at h
  omega

variable {cs before rest : List Char}

/-- A text without an opening has no references. -/
theorem references_of_plain (h : nextReference? cs = none) : references cs = [] := by
  rw [references]
  split
  · rfl
  next b r hn =>
    rw [h] at hn
    cases hn

theorem references_of_reference (h : nextReference? cs = some (before, rest)) :
    references cs = String.ofList (rest.takeWhile isNameChar) :: references rest := by
  rw [references]
  split
  next hn =>
    rw [h] at hn
    cases hn
  next b r hn =>
    obtain ⟨rfl, rfl⟩ := Prod.mk.inj (Option.some.inj (h.symm.trans hn))
    rfl

@[simp] theorem references_nil : references [] = [] := references_of_plain rfl

theorem takeWhile_append_cons {α : Type} {p : α → Bool} {a : α} (h : p a = false)
    (as bs : List α) : (as ++ a :: bs).takeWhile p = as.takeWhile p := by
  induction as with
  | nil => simp [h]
  | cons b as ih =>
    rw [List.cons_append, List.takeWhile_cons, List.takeWhile_cons, ih]

/-- A character that neither opens a reference nor belongs to a name keeps the references of
two texts apart. -/
theorem references_append_cons {s : Char} (hs : s ∉ opening) (hn : isNameChar s = false)
    (cs rest : List Char) : references (cs ++ s :: rest) = references cs ++ references rest := by
  -- the part behind an opening is shorter
  induction h : cs.length using Nat.strongRecOn generalizing cs with
  | ind n ih =>
    have hnext := nextReference?_append_cons hs cs rest
    cases hr : nextReference? cs with
    | none =>
      rw [hr] at hnext
      rw [references_of_plain hr, List.nil_append]
      cases hrest : nextReference? rest with
      | none =>
        rw [hrest] at hnext
        rw [references_of_plain hnext, references_of_plain hrest]
      | some r =>
        rw [hrest] at hnext
        rw [references_of_reference hnext, references_of_reference hrest]
    | some r =>
      obtain ⟨before, tail⟩ := r
      rw [hr] at hnext
      have hlen := congrArg List.length (nextReference?_eq_some hr)
      simp only [opening, List.length_append, List.length_cons] at hlen
      rw [references_of_reference hnext, references_of_reference hr, takeWhile_append_cons hn,
        ih tail.length (by omega) tail rfl, List.cons_append]

theorem nextReference?_of_isName {cs : List Char} (h : ∀ c ∈ cs, isNameChar c = true) :
    nextReference? cs = none := by
  cases hr : nextReference? cs with
  | none => rfl
  | some r =>
    have hmem : '(' ∈ cs := by
      rw [nextReference?_eq_some hr]
      simp [opening]
    exact absurd rfl (isNameChar_iff.mp (h _ hmem)).2.1

theorem references_name {name : String} (h : isName name = true) :
    references (opening ++ name.toList) = [name] := by
  have hname := fun c => isNameChar_of_mem (c := c) h
  have hnext : nextReference? (opening ++ name.toList) = some ([], name.toList) := rfl
  rw [references_of_reference hnext, references_of_plain (nextReference?_of_isName hname),
    List.takeWhile_eq_self_iff.mpr hname, String.ofList_toList]

end Evaluation

/-! ## Expressions -/

namespace Css.Expression

open Evaluation

/-- The names that an expression asks for, its raw texts aside. -/
def links : Expression → List String
  | raw _ => []
  | var name => [name]
  | varOr name fallback => name :: fallback.links
  | beside left right => left.links ++ right.links

/-- The raw texts in an expression. -/
def raws : Expression → List String
  | raw text => [text]
  | var _ => []
  | varOr _ fallback => fallback.raws
  | beside left right => left.raws ++ right.raws

variable {name : String}

/-- All links of a readable expression ask for names. -/
theorem isName_links {e : Expression} (h : e.Readable) : ∀ name ∈ e.links, isName name = true := by
  induction e with
  | raw text => exact fun _ hn => absurd hn List.not_mem_nil
  | var asked =>
    intro name hn
    exact List.mem_singleton.mp hn ▸ h
  | varOr asked fallback ih =>
    intro name hn
    rcases List.mem_cons.mp hn with rfl | hn
    · exact h.1
    · exact ih h.2 name hn
  | beside left right ihl ihr =>
    intro name hn
    exact (List.mem_append.mp hn).elim (ihl h.1 name) (ihr h.2 name)

theorem references_space (layout : Layout) (cs : List Char) :
    references (layout.space.toList ++ cs) = references cs := by
  cases layout with
  | compact => rfl
  | pretty =>
    have hblank : ' ' ∉ opening := by decide
    have h := references_append_cons hblank (by decide) [] cs
    rwa [references_nil, List.nil_append] at h

/-- The text of an expression refers to the names of the expression and of its raw texts. -/
theorem mem_references_render {e : Expression} (layout : Layout)
    (h : ∀ name ∈ e.links, isName name = true) : name ∈ references (e.render layout).toList ↔
      name ∈ e.links ∨ ∃ text ∈ e.raws, name ∈ references text.toList := by
  induction e with
  | raw text => simp [links, raws, render]
  | var asked =>
    rw [toList_render_var, ← List.append_assoc, references_append_cons (s := ')') (by decide)
      (by decide), references_name (h asked List.mem_cons_self)]
    simp [links, raws]
  | varOr asked fallback ih =>
    rw [toList_render_varOr, ← List.append_assoc, references_append_cons (s := ',') (by decide)
      (by decide), references_name (h asked List.mem_cons_self),
      references_append_cons (s := ')') (by decide) (by decide), references_space,
      references_nil, List.append_nil, List.mem_append,
      ih fun n hn => h n (List.mem_cons_of_mem _ hn)]
    simp [links, raws, or_assoc]
  | beside left right ihl ihr =>
    rw [toList_render_beside, references_append_cons (by decide) (by decide), List.mem_append,
      ihl fun n hn => h n (List.mem_append_left _ hn),
      ihr fun n hn => h n (List.mem_append_right _ hn), links, raws, List.mem_append]
    simp only [List.mem_append, or_and_right, exists_or]
    exact or_or_or_comm

theorem links_nested (name : String) (rest : List String) :
    (nested name rest).links = name :: rest := by
  induction rest generalizing name with
  | nil => rfl
  | cons next rest ih => rw [nested, links, ih]

theorem links_joined (name : String) (rest : List String) :
    (joined name rest).links = name :: rest := by
  induction rest generalizing name with
  | nil => rfl
  | cons next rest ih => rw [joined, links, ih, links, List.singleton_append]

theorem raws_nested (name : String) (rest : List String) : (nested name rest).raws = [] := by
  induction rest generalizing name with
  | nil => rfl
  | cons next rest ih => rw [nested, raws, ih]

theorem raws_joined (name : String) (rest : List String) : (joined name rest).raws = [] := by
  induction rest generalizing name with
  | nil => rfl
  | cons next rest ih => rw [joined, raws, ih, raws, List.append_nil]

end Css.Expression

end HookStyle
