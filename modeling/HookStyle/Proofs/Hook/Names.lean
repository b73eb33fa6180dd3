import HookStyle.Engine.Registry
import HookStyle.Proofs.Outcome
import Mathlib.Computability.Language
import Mathlib.Data.List.TakeWhile

/-!
# The accepted names of hooks

Hooks are named by one scan from the left to the right. The names that it accepts can be said in
two other ways: by what stands where in the text, and by patterns. A pattern is a language, in
which a sequence is a product, a choice a sum, and a repetition a star.

* `noFeedBehindFirst_iff`: where a line feed may not stand, by dropping what comes before.
* `named_iff_mem_pattern`: the two descriptions agree, for every kind of hook.
* `ofName?_eq_some_iff`: the scan finds the kind of a name.
* `hooksOf_single_exact`: which names are registered, as what, and with which error the others
  are refused.
-/

namespace HookStyle

open scoped Computability

namespace Text

/-! ## Patterns -/

/-- The texts of one character of a class. -/
def single (p : Char → Bool) : Language Char := {cs | ∃ c, p c = true ∧ cs = [c]}

/-- The text of one word. -/
def word (w : List Char) : Language Char := {w}

/-- A character that is no white space: `\S`. -/
def visible : Language Char := single fun c => !isBlank c

/-- One white space: `\s`. -/
def blank : Language Char := single isBlank

/-- Any character but the line feed: `.`. -/
def inLine : Language Char := single fun c => c != '\n'

variable {p : Char → Bool} {l : Language Char} {cs w : List Char}

theorem mem_word_mul : cs ∈ word w * l ↔ ∃ rest ∈ l, cs = w ++ rest := by
  rw [Language.mem_mul]
  constructor
  · rintro ⟨_, rfl, rest, hrest, rfl⟩
    exact ⟨rest, hrest, rfl⟩
  · rintro ⟨rest, hrest, rfl⟩
    exact ⟨w, rfl, rest, hrest, rfl⟩

theorem mem_single_mul : cs ∈ single p * l ↔ ∃ c rest, p c = true ∧ rest ∈ l ∧ cs = c :: rest := by
  rw [Language.mem_mul]
  constructor
  · rintro ⟨_, ⟨c, hc, rfl⟩, rest, hrest, rfl⟩
    exact ⟨c, rest, hc, hrest, rfl⟩
  · rintro ⟨c, rest, hc, hrest, rfl⟩
    exact ⟨[c], ⟨c, hc, rfl⟩, rest, hrest, rfl⟩

theorem mem_kstar_single : cs ∈ (single p)∗ ↔ ∀ c ∈ cs, p c = true := by
  rw [Language.mem_kstar]
  constructor
  · rintro ⟨pieces, rfl, h⟩ c hc
    obtain ⟨piece, hpiece, hc⟩ := List.mem_flatten.mp hc
    obtain ⟨d, hd, rfl⟩ := h piece hpiece
    rwa [List.mem_singleton.mp hc]
  · intro h
    refine ⟨cs.map fun c => [c], ?_, ?_⟩
    · rw [← List.flatMap_def, List.flatMap_singleton']
    · intro piece hpiece
      obtain ⟨c, hc, rfl⟩ := List.mem_map.mp hpiece
      exact ⟨c, h c hc, rfl⟩

theorem mem_kstar_single_mul : cs ∈ (single p)∗ * l ↔
    ∃ run rest, (∀ c ∈ run, p c = true) ∧ rest ∈ l ∧ cs = run ++ rest := by
  rw [Language.mem_mul]
  constructor
  · rintro ⟨run, hrun, rest, hrest, rfl⟩
    exact ⟨run, rest, mem_kstar_single.mp hrun, hrest, rfl⟩
  · rintro ⟨run, rest, hrun, hrest, rfl⟩
    exact ⟨run, mem_kstar_single.mpr hrun, rest, hrest, rfl⟩

theorem eq_false_of_dropWhile_eq_cons {c : Char} {rest : List Char}
    (h : cs.dropWhile p = c :: rest) : p c = false := by
  have hhead := List.head_dropWhile_not p (l := cs) (h ▸ List.cons_ne_nil c rest)
  simpa only [h, List.head_cons] using hhead

/-! ## Line feeds -/

theorem forall_ne_feed_iff : (∀ c ∈ cs, (c != '\n') = true) ↔ '\n' ∉ cs := by
  simp only [bne_iff_ne]
  exact ⟨fun h hfeed => h _ hfeed rfl, fun h c hc heq => h (heq ▸ hc)⟩

theorem mem_kstar_inLine : cs ∈ inLine∗ ↔ '\n' ∉ cs := by
  rw [inLine, mem_kstar_single, forall_ne_feed_iff]

/-- No line feed comes after the first character of a class. -/
def NoFeedBehindFirst (p : Char → Bool) (cs : List Char) : Prop :=
  ∀ before c after, cs = before ++ c :: after → (∀ d ∈ before, p d = false) → p c = true →
    '\n' ∉ after

theorem noFeedBehindFirst_cons_of_pos {c : Char} (hc : p c = true) :
    NoFeedBehindFirst p (c :: cs) ↔ '\n' ∉ cs := by
  constructor
  · exact fun h => h [] c cs rfl (fun _ hd => absurd hd List.not_mem_nil) hc
  · intro h before d after heq hbefore _
    cases before with
    | nil =>
      obtain ⟨-, rfl⟩ := List.cons.inj heq
      exact h
    | cons b before =>
      obtain ⟨rfl, -⟩ := List.cons.inj heq
      rw [hbefore c List.mem_cons_self] at hc
      cases hc

theorem noFeedBehindFirst_cons_of_neg {c : Char} (hc : p c = false) :
    NoFeedBehindFirst p (c :: cs) ↔ NoFeedBehindFirst p cs := by
  constructor
  · intro h before d after heq hbefore hd
    exact h (c :: before) d after (congrArg _ heq) (List.forall_mem_cons.mpr ⟨hc, hbefore⟩) hd
  · intro h before d after heq hbefore hd
    cases before with
    | nil =>
      obtain ⟨rfl, -⟩ := List.cons.inj heq
      rw [hc] at hd
      cases hd
    | cons b before =>
      obtain ⟨rfl, hcs⟩ := List.cons.inj heq
      exact h before d after hcs (List.forall_mem_cons.mp hbefore).2 hd

theorem noFeedBehindFirst_append {run : List Char} (h : ∀ c ∈ run, p c = false) :
    NoFeedBehindFirst p (run ++ cs) ↔ NoFeedBehindFirst p cs := by
  induction run with
  | nil => rfl
  | cons c run ih =>
    obtain ⟨hc, hrun⟩ := List.forall_mem_cons.mp h
    rw [List.cons_append, noFeedBehindFirst_cons_of_neg hc, ih hrun]

theorem noFeedBehindFirst_iff :
    NoFeedBehindFirst p cs ↔ '\n' ∉ (cs.dropWhile fun c => !p c).drop 1 := by
  induction cs with
  | nil =>
    refine iff_of_true ?_ List.not_mem_nil
    intro before c after heq
    simp at heq
  | cons c cs ih =>
    cases hc : p c with
    | true => simp [noFeedBehindFirst_cons_of_pos hc, hc]
    | false => simp [noFeedBehindFirst_cons_of_neg hc, hc, ih]

/-- Visible characters, and possibly white space with the rest of a line behind it. -/
theorem mem_visibleThenLine : cs ∈ visible∗ * (1 + blank * inLine∗) ↔
    NoFeedBehindFirst isBlank cs := by
  rw [visible, mem_kstar_single_mul]
  constructor
  · rintro ⟨run, rest, hrun, hrest, rfl⟩
    rw [noFeedBehindFirst_append fun c hc => by simpa using hrun c hc]
    rcases (Language.mem_add _ _ _).mp hrest with hrest | hrest
    · obtain rfl := (Language.mem_one _).mp hrest
      exact fun before c after heq => by simp at heq
    · obtain ⟨c, line, hc, hline, rfl⟩ := mem_single_mul.mp hrest
      exact (noFeedBehindFirst_cons_of_pos hc).mpr (mem_kstar_inLine.mp hline)
  · intro h
    have hrun : ∀ c ∈ cs.takeWhile fun c => !isBlank c, (!isBlank c) = true :=
      fun c hc => List.mem_takeWhile_imp (p := fun c => !isBlank c) hc
    refine ⟨_, cs.dropWhile fun c => !isBlank c, hrun, (Language.mem_add _ _ _).mpr ?_,
      List.takeWhile_append_dropWhile.symm⟩
    rw [noFeedBehindFirst_iff] at h
    cases hrest : cs.dropWhile fun c => !isBlank c with
    | nil => exact Or.inl rfl
    | cons c line =>
      rw [hrest, List.drop_one, List.tail_cons] at h
      have hc : isBlank c = true := (Bool.not_eq_false' _).mp (eq_false_of_dropWhile_eq_cons hrest)
      exact Or.inr (mem_single_mul.mpr ⟨c, line, hc, mem_kstar_inLine.mpr h, rfl⟩)

end Text

namespace HookKind

open Text

/-! ## Names of a kind -/

/-- A name of one or two colons and what follows them: a visible character that is no colon, and
no line feed behind the first white space of the name. -/
def SelectorName (cs : List Char) : Prop :=
  ∃ colons c rest, cs = colons ++ c :: rest ∧ (colons = [':'] ∨ colons = [':', ':']) ∧
    isBlank c = false ∧ c ≠ ':' ∧ NoFeedBehindFirst isBlank cs

/-- White space, and a visible character with no line feed behind it. -/
def Query (cs : List Char) : Prop :=
  ∃ blanks c rest, cs = blanks ++ c :: rest ∧ blanks ≠ [] ∧ (∀ b ∈ blanks, isBlank b = true) ∧
    isBlank c = false ∧ '\n' ∉ rest

/-- A name of an at-word and a query. -/
def PreludeName (w cs : List Char) : Prop := ∃ query, cs = w ++ query ∧ Query query

/-- A text that is a name for hooks of a kind. -/
def Named : HookKind → List Char → Prop
  | selector => SelectorName
  | media => PreludeName "@media".toList
  | supports => PreludeName "@supports".toList

/-- Names of selectors: `::?[^\s:]\S*(?:\s.*)?`. -/
def selectorPattern : Language Char :=
  word [':'] * ((1 + word [':']) * (single (fun c => !isBlank c && c != ':') *
    (visible∗ * (1 + blank * inLine∗))))

/-- What follows an at-word: `\s+\S.*`. -/
def queryPattern : Language Char := blank * (blank∗ * (visible * inLine∗))

/-- Names of at-rules: `@(media|supports)\s+\S.*`. -/
def atRulePattern : Language Char :=
  word ['@'] * ((word "media".toList + word "supports".toList) * queryPattern)

/-- The pattern of a kind. At-rules are told apart by the word that was chosen. -/
def pattern : HookKind → Language Char
  | selector => selectorPattern
  | media => word ['@'] * (word "media".toList * queryPattern)
  | supports => word ['@'] * (word "supports".toList * queryPattern)

variable {cs w : List Char}

theorem atRulePattern_eq : atRulePattern = media.pattern + supports.pattern := by
  rw [atRulePattern, pattern, pattern, add_mul, mul_add]

/-! ## The patterns -/

/-- The pattern of a query matches queries only, and all of them. -/
theorem query_iff_mem : Query cs ↔ cs ∈ queryPattern := by
  rw [queryPattern, blank, visible, mem_single_mul]
  constructor
  · rintro ⟨blanks, c, rest, rfl, hne, hblanks, hc, hfeed⟩
    obtain ⟨b, run, rfl⟩ := List.exists_cons_of_ne_nil hne
    obtain ⟨hb, hrun⟩ := List.forall_mem_cons.mp hblanks
    have hlast : c :: rest ∈ single (fun c => !isBlank c) * inLine∗ :=
      mem_single_mul.mpr ⟨c, rest, (Bool.not_eq_true' _).mpr hc, mem_kstar_inLine.mpr hfeed, rfl⟩
    exact ⟨b, _, hb, mem_kstar_single_mul.mpr ⟨run, _, hrun, hlast, rfl⟩, rfl⟩
  · rintro ⟨b, more, hb, hmore, rfl⟩
    obtain ⟨run, last, hrun, hlast, rfl⟩ := mem_kstar_single_mul.mp hmore
    obtain ⟨c, rest, hc, hrest, rfl⟩ := mem_single_mul.mp hlast
    exact ⟨b :: run, c, rest, rfl, List.cons_ne_nil _ _, List.forall_mem_cons.mpr ⟨hb, hrun⟩,
      (Bool.not_eq_true' _).mp hc, mem_kstar_inLine.mp hrest⟩

theorem preludeName_iff_mem : PreludeName ('@' :: w) cs ↔
    cs ∈ word ['@'] * (word w * queryPattern) := by
  constructor
  · rintro ⟨query, rfl, hquery⟩
    exact mem_word_mul.mpr ⟨_, mem_word_mul.mpr ⟨query, query_iff_mem.mp hquery, rfl⟩, rfl⟩
  · intro h
    obtain ⟨more, hmore, rfl⟩ := mem_word_mul.mp h
    obtain ⟨query, hquery, rfl⟩ := mem_word_mul.mp hmore
    exact ⟨query, rfl, query_iff_mem.mpr hquery⟩

/-- Neither the colons nor the character behind them is white space. -/
theorem noFeedBehindFirst_colons {colons rest : List Char} {c : Char}
    (hcolons : colons = [':'] ∨ colons = [':', ':']) (hc : isBlank c = false) :
    NoFeedBehindFirst isBlank (colons ++ c :: rest) ↔ NoFeedBehindFirst isBlank rest := by
  have hblank : ∀ d ∈ colons, isBlank d = false := by
    rcases hcolons with rfl | rfl <;> simp [isBlank_colon]
  rw [noFeedBehindFirst_append hblank, noFeedBehindFirst_cons_of_neg hc]

theorem selectorName_iff_mem : SelectorName cs ↔ cs ∈ selectorPattern := by
  have hopen : cs ∈ selectorPattern ↔ ∃ colons more, cs = colons ++ more ∧
      (colons = [':'] ∨ colons = [':', ':']) ∧
      more ∈ single (fun c => !isBlank c && c != ':') * (visible∗ * (1 + blank * inLine∗)) := by
    rw [selectorPattern, mem_word_mul, add_mul, one_mul]
    constructor
    · rintro ⟨more, hmore | hmore, rfl⟩
      · exact ⟨[':'], more, rfl, Or.inl rfl, hmore⟩
      · obtain ⟨rest, hrest, rfl⟩ := mem_word_mul.mp hmore
        exact ⟨[':', ':'], rest, rfl, Or.inr rfl, hrest⟩
    · rintro ⟨_, more, rfl, rfl | rfl, hmore⟩
      · exact ⟨more, Or.inl hmore, rfl⟩
      · exact ⟨':' :: more, Or.inr (mem_word_mul.mpr ⟨more, hmore, rfl⟩), rfl⟩
  rw [hopen]
  constructor
  · rintro ⟨colons, c, rest, rfl, hcolons, hc, hne, hfeed⟩
    rw [noFeedBehindFirst_colons hcolons hc, ← mem_visibleThenLine] at hfeed
    exact ⟨colons, c :: rest, rfl, hcolons,
      mem_single_mul.mpr ⟨c, rest, by simp [hc, hne], hfeed, rfl⟩⟩
  · rintro ⟨colons, _, rfl, hcolons, hmore⟩
    obtain ⟨c, rest, hc, hrest, rfl⟩ := mem_single_mul.mp hmore
    rw [Bool.and_eq_true, Bool.not_eq_true', bne_iff_ne] at hc
    refine ⟨colons, c, rest, rfl, hcolons, hc.1, hc.2, ?_⟩
    rw [noFeedBehindFirst_colons hcolons hc.1, ← mem_visibleThenLine]
    exact hrest

theorem named_iff_mem_pattern (kind : HookKind) : kind.Named cs ↔ cs ∈ kind.pattern := by
  cases kind with
  | selector => exact selectorName_iff_mem
  | media => exact preludeName_iff_mem
  | supports => exact preludeName_iff_mem

/-- The two patterns describe the names of all kinds. -/
theorem mem_patterns_iff :
    cs ∈ selectorPattern + atRulePattern ↔ ∃ kind : HookKind, kind.Named cs := by
  rw [atRulePattern_eq, Language.mem_add, Language.mem_add]
  constructor
  · rintro (h | h | h)
    · exact ⟨selector, (named_iff_mem_pattern _).mpr h⟩
    · exact ⟨media, (named_iff_mem_pattern _).mpr h⟩
    · exact ⟨supports, (named_iff_mem_pattern _).mpr h⟩
  · rintro ⟨kind, h⟩
    rw [named_iff_mem_pattern] at h
    cases kind with
    | selector => exact Or.inl h
    | media => exact Or.inr (Or.inl h)
    | supports => exact Or.inr (Or.inr h)

/-! ## The scan -/

theorem isFragment_cons {c : Char} {rest : List Char} : isFragment (c :: rest) = true ↔
    isBlank c = false ∧ c ≠ ':' ∧ NoFeedBehindFirst isBlank rest := by
  rw [isFragment, noFeedBehindFirst_iff, Bool.and_eq_true, Bool.and_eq_true, Bool.not_eq_true',
    bne_iff_ne, and_assoc, List.all_eq_true, forall_ne_feed_iff]

theorem selectorName_of_isFragment {colons rest : List Char}
    (hcolons : colons = [':'] ∨ colons = [':', ':']) (h : isFragment rest = true) :
    SelectorName (colons ++ rest) := by
  cases rest with
  | nil => cases h
  | cons c rest =>
    obtain ⟨hc, hne, hfeed⟩ := isFragment_cons.mp h
    exact ⟨colons, c, rest, rfl, hcolons, hc, hne,
      (noFeedBehindFirst_colons hcolons hc).mpr hfeed⟩

/-- The tests for a selector in terms of the characters of the name. -/
theorem isSelector_iff : isSelector cs = true ↔ SelectorName cs := by
  constructor
  · intro h
    unfold isSelector at h
    split at h
    next => exact selectorName_of_isFragment (Or.inr rfl) h
    next => exact selectorName_of_isFragment (Or.inl rfl) h
    next => cases h
  · rintro ⟨colons, c, rest, rfl, hcolons, hc, hne, hfeed⟩
    have hfragment : isFragment (c :: rest) = true :=
      isFragment_cons.mpr ⟨hc, hne, (noFeedBehindFirst_colons hcolons hc).mp hfeed⟩
    rcases hcolons with rfl | rfl
    · -- one colon, which no second one follows
      rw [List.singleton_append, isSelector.eq_def]
      split
      next heq => exact absurd (List.cons.inj (List.cons.inj heq).2).1 hne
      next heq => rwa [← (List.cons.inj heq).2]
      next hnot => exact absurd rfl (hnot _)
    · exact hfragment

theorem isQuery_iff : isQuery cs = true ↔ Query cs := by
  constructor
  · intro h
    cases cs with
    | nil => cases h
    | cons b cs =>
      rw [isQuery, Bool.and_eq_true] at h
      obtain ⟨hb, h⟩ := h
      split at h
      next => cases h
      next c rest hrest =>
        refine ⟨b :: cs.takeWhile isBlank, c, rest, ?_, List.cons_ne_nil _ _, ?_,
          eq_false_of_dropWhile_eq_cons hrest, forall_ne_feed_iff.mp (List.all_eq_true.mp h)⟩
        · rw [List.cons_append, ← hrest, List.takeWhile_append_dropWhile]
        · exact List.forall_mem_cons.mpr ⟨hb, fun d hd => List.mem_takeWhile_imp hd⟩
  · rintro ⟨blanks, c, rest, rfl, hne, hblanks, hc, hfeed⟩
    obtain ⟨b, run, rfl⟩ := List.exists_cons_of_ne_nil hne
    obtain ⟨hb, hrun⟩ := List.forall_mem_cons.mp hblanks
    have hrest : (run ++ c :: rest).dropWhile isBlank = c :: rest := by
      rw [List.dropWhile_append_of_pos hrun, List.dropWhile_cons_of_neg (by simp [hc])]
    rw [List.cons_append, isQuery, hb, hrest, Bool.true_and, List.all_eq_true]
    exact forall_ne_feed_iff.mpr hfeed

theorem isPrelude_iff : isPrelude w cs = true ↔ PreludeName w cs := by
  rw [isPrelude, Option.any_eq_true]
  constructor
  · rintro ⟨query, hquery, h⟩
    exact ⟨query, stripStart?_eq_some_iff.mp hquery, isQuery_iff.mp h⟩
  · rintro ⟨query, rfl, hquery⟩
    exact ⟨query, stripStart?_append _ _, isQuery_iff.mpr hquery⟩

/-! ## One kind at most -/

/-- What every name of a kind starts with. -/
def opening : HookKind → List Char
  | selector => [':']
  | media => "@media".toList
  | supports => "@supports".toList

/-- A name starts with the opening of its kind. -/
theorem exists_of_named {kind : HookKind} (h : kind.Named cs) :
    ∃ rest, cs = kind.opening ++ rest := by
  cases kind with
  | selector =>
    obtain ⟨_, c, rest, rfl, rfl | rfl, -⟩ := h
    · exact ⟨c :: rest, rfl⟩
    · exact ⟨':' :: c :: rest, rfl⟩
  | media =>
    obtain ⟨query, rfl, -⟩ := h
    exact ⟨query, rfl⟩
  | supports =>
    obtain ⟨query, rfl, -⟩ := h
    exact ⟨query, rfl⟩

/-- The opening tells the kind of a hook, so no name is of two kinds. -/
theorem named_unique {kind kind' : HookKind} (h : kind.Named cs) (h' : kind'.Named cs) :
    kind = kind' := by
  obtain ⟨rest, rfl⟩ := exists_of_named h
  obtain ⟨rest', heq⟩ := exists_of_named h'
  -- different kinds differ in the first or the second character
  cases kind <;> cases kind' <;> first
    | rfl
    | cases heq

theorem ofName?_eq_some_iff {name : String} {kind : HookKind} :
    ofName? name = some kind ↔ kind.Named name.toList := by
  constructor
  · intro h
    unfold ofName? at h
    split at h
    next hs =>
      obtain rfl := Option.some.inj h
      exact isSelector_iff.mp hs
    next =>
      split at h
      next hm =>
        obtain rfl := Option.some.inj h
        exact isPrelude_iff.mp hm
      next =>
        split at h
        next hs =>
          obtain rfl := Option.some.inj h
          exact isPrelude_iff.mp hs
        next => cases h
  · intro h
    have hselector : kind ≠ selector → ¬ isSelector name.toList = true := fun hne hs =>
      hne (named_unique h (isSelector_iff.mp hs))
    have hmedia : kind ≠ media → ¬ isPrelude "@media".toList name.toList = true := fun hne hm =>
      hne (named_unique h (isPrelude_iff.mp hm : media.Named name.toList))
    rw [ofName?]
    cases kind with
    | selector => rw [if_pos (isSelector_iff.mpr h)]
    | media => rw [if_neg (hselector (by decide)), if_pos (isPrelude_iff.mpr h)]
    | supports =>
      rw [if_neg (hselector (by decide)), if_neg (hmedia (by decide)),
        if_pos (isPrelude_iff.mpr h)]

end HookKind

/-! ## Registration -/

namespace Registry

theorem hooksOf_single_eq_ok {name : String} {hooks : List Hook} :
    hooksOf [name] = .ok hooks ↔ ∃ hook : Hook, hook.name = name ∧ hooks = [hook] := by
  rw [hooksOf]
  cases h : Hook.ofName? name with
  | none =>
    refine iff_of_false (by simp) ?_
    rintro ⟨hook, hname, -⟩
    rw [Hook.ofName?_eq_some_iff.mpr hname] at h
    cases h
  | some hook =>
    have hname := Hook.ofName?_eq_some_iff.mp h
    constructor
    · intro hok
      exact ⟨hook, hname, (Except.ok.inj hok).symm⟩
    · rintro ⟨hook', hname', rfl⟩
      rw [Hook.ext (hname.trans hname'.symm)]
      rfl

/-- A name is refused when it is of no kind, and the error carries it. -/
theorem hooksOf_single_eq_error {name : String} {error : StyleError} :
    hooksOf [name] = .error error ↔
      error = .invalidHook name ∧ ∀ kind : HookKind, ¬ kind.Named name.toList := by
  have hnone : Hook.ofName? name = none ↔ ∀ kind : HookKind, ¬ kind.Named name.toList := by
    rw [← Option.not_isSome_iff_eq_none, Hook.ofName?_isSome, Option.isSome_iff_exists, not_exists]
    exact forall_congr' fun kind => not_congr HookKind.ofName?_eq_some_iff
  rw [← hnone, hooksOf]
  cases h : Hook.ofName? name with
  | none => simp [eq_comm]
  | some hook => simp [hooksOf, Except.map]

/-- A text is registered as a hook of a kind exactly when it is a name of that kind, which is
when the pattern of the kind describes all of it. No text is a name of two kinds, and a text
that is no name is refused with an error that carries it. -/
theorem hooksOf_single_exact (name : String) :
    (∀ kind : HookKind,
      (∃ hook : Hook, hooksOf [name] = .ok [hook] ∧ hook.name = name ∧ hook.kind = kind) ↔
        kind.Named name.toList) ∧
    (∀ kind : HookKind, kind.Named name.toList ↔ name.toList ∈ kind.pattern) ∧
    ((∃ hooks, hooksOf [name] = .ok hooks) ↔
      name.toList ∈ HookKind.selectorPattern + HookKind.atRulePattern) ∧
    (∀ kind kind' : HookKind, kind.Named name.toList → kind'.Named name.toList → kind = kind') ∧
    ∀ error, hooksOf [name] = .error error ↔
      error = .invalidHook name ∧ ∀ kind : HookKind, ¬ kind.Named name.toList := by
  have hkind : ∀ kind : HookKind,
      (∃ hook : Hook, hooksOf [name] = .ok [hook] ∧ hook.name = name ∧ hook.kind = kind) ↔
        kind.Named name.toList := by
    intro kind
    rw [← HookKind.ofName?_eq_some_iff]
    constructor
    · rintro ⟨hook, -, rfl, rfl⟩
      exact hook.kind_eq
    · intro h
      exact ⟨⟨name, kind, h⟩, hooksOf_single_eq_ok.mpr ⟨_, rfl, rfl⟩, rfl, rfl⟩
  refine ⟨hkind, fun kind => kind.named_iff_mem_pattern, ?_,
    fun kind kind' => HookKind.named_unique, fun error => hooksOf_single_eq_error⟩
  rw [HookKind.mem_patterns_iff]
  constructor
  · rintro ⟨hooks, hok⟩
    obtain ⟨hook, hname, rfl⟩ := hooksOf_single_eq_ok.mp hok
    exact ⟨hook.kind, (hkind hook.kind).mp ⟨hook, hok, hname, rfl⟩⟩
  · rintro ⟨kind, hnamed⟩
    obtain ⟨hook, hok, -⟩ := (hkind kind).mpr hnamed
    exact ⟨[hook], hok⟩

/-- The first white space of a selector may be a line feed, but none may come after it. -/
theorem hooksOf_single_feeds :
    (∃ hook : Hook, hooksOf [":not(.a,\n.b)"] = .ok [hook] ∧ hook.kind = .selector) ∧
    (∀ kind : HookKind, kind.Named ":not(.a,\n.b)".toList → kind = .selector) ∧
    hooksOf [":not(.a, .b\n)"] = .error (.invalidHook ":not(.a, .b\n)") := by
  have hnamed : HookKind.selector.Named ":not(.a,\n.b)".toList :=
    HookKind.ofName?_eq_some_iff.mp (by decide)
  obtain ⟨hkind, -, -, hunique, -⟩ := hooksOf_single_exact ":not(.a,\n.b)"
  obtain ⟨hook, hok, -, hselector⟩ := (hkind .selector).mpr hnamed
  exact ⟨⟨hook, hok, hselector⟩, fun kind h => hunique kind .selector h hnamed, rfl⟩

end Registry

end HookStyle
