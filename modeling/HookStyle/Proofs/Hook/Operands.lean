import HookStyle.Proofs.Chain.Toggles
import HookStyle.Proofs.Evaluation.Text
import HookStyle.Proofs.Hook.Identifier
import HookStyle.Tree.Layers

/-!
# What the text of a condition says

The operands of a compound condition stand between its brackets, with a comma and a space
between them. Hook names may have brackets, commas and spaces as well. A name with a comma may
read like two operands, and then two conditions have one text, and one toggle.

* `intercalate_eq_iff`: lists of operands have one text when they have the same pieces
  between commas.
* `eq_of_append_eq`: where an operand ends can be told from the text, when its brackets match
  and no comma outside of them stands before something that could be an operand.
* `text_condition_eq_iff`: which nestings of hooks have one text.
* `text_identifies_iff`: which conditions have one text, and that over seamless names only a
  condition itself has its text.
-/

namespace HookStyle

open Evaluation (level)

namespace Condition

/-! ## Pieces -/

/-- What stands between two operands. -/
def separator : List Char := [',', ' ']

/-- The parts of a text between separators. -/
def pieces : List Char → List (List Char)
  | [] => [[]]
  | ',' :: ' ' :: cs => [] :: pieces cs
  | c :: cs => (pieces cs).modifyHead (c :: ·)

theorem pieces_ne_nil (cs : List Char) : pieces cs ≠ [] := by
  fun_induction pieces cs with
  | case1 => exact List.cons_ne_nil _ _
  | case2 cs ih => exact List.cons_ne_nil _ _
  | case3 c cs h ih =>
    cases hp : pieces cs with
    | nil => exact absurd hp ih
    | cons p ps => exact List.cons_ne_nil _ _

/-- Putting the pieces of a text back together loses nothing. -/
theorem intercalate_pieces (cs : List Char) : separator.intercalate (pieces cs) = cs := by
  fun_induction pieces cs with
  | case1 => rfl
  | case2 cs ih =>
    rw [List.intercalate_cons_of_ne_nil (pieces_ne_nil cs), ih]
    rfl
  | case3 c cs h ih =>
    cases hp : pieces cs with
    | nil => exact absurd hp (pieces_ne_nil cs)
    | cons p ps =>
      rw [hp] at ih
      rw [List.modifyHead_cons, List.intercalate_cons_cons_left, ih]

/-- A text may be cut at any separator, since none can overlap another. -/
theorem pieces_append (cs ds : List Char) :
    pieces (cs ++ separator ++ ds) = pieces cs ++ pieces ds := by
  fun_induction pieces cs with
  | case1 => rfl
  | case2 cs ih =>
    change [] :: pieces (cs ++ separator ++ ds) = _
    rw [ih, List.cons_append]
  | case3 c cs h ih =>
    -- a comma at the end of the first text stands before a comma, so no separator is made there
    have hnext : ∀ es, c = ',' → cs ++ separator ++ ds = ' ' :: es → False := by
      intro es hc he
      cases cs with
      | nil => cases he
      | cons d cs =>
        obtain ⟨rfl, -⟩ := List.cons.inj he
        exact h cs hc rfl
    rw [List.cons_append, List.cons_append, pieces]
    · rw [ih]
      cases hp : pieces cs with
      | nil => exact absurd hp (pieces_ne_nil cs)
      | cons p ps => rfl
    · exact hnext

theorem pieces_intercalate {ts : List (List Char)} (h : ts ≠ []) :
    pieces (separator.intercalate ts) = ts.flatMap pieces := by
  induction ts with
  | nil => exact absurd rfl h
  | cons t ts ih =>
    by_cases hts : ts = []
    · rw [hts, List.intercalate_singleton, List.flatMap_singleton]
    · rw [List.intercalate_cons_of_ne_nil hts, List.flatMap_cons, pieces_append, ih hts]

theorem intercalate_eq_nil_iff {ts : List (List Char)} (h : ∀ t ∈ ts, t ≠ []) :
    separator.intercalate ts = [] ↔ ts = [] := by
  constructor
  · intro hnil
    cases ts with
    | nil => rfl
    | cons t ts =>
      have ht := h t List.mem_cons_self
      cases ts with
      | nil =>
        rw [List.intercalate_singleton] at hnil
        exact absurd hnil ht
      | cons u ts => simp [List.intercalate_cons_cons, ht] at hnil
  · rintro rfl
    rfl

/-- Operands leave nothing behind in their text but the pieces between separators. -/
theorem intercalate_eq_iff {ts us : List (List Char)} (ht : ∀ t ∈ ts, t ≠ [])
    (hu : ∀ u ∈ us, u ≠ []) :
    separator.intercalate ts = separator.intercalate us ↔
      ts.flatMap pieces = us.flatMap pieces := by
  have hflat : ∀ {ts : List (List Char)}, separator.intercalate (ts.flatMap pieces) =
      separator.intercalate ts := by
    intro ts
    by_cases hts : ts = []
    · rw [hts, List.flatMap_nil]
    · rw [← pieces_intercalate hts, intercalate_pieces]
  constructor
  · intro h
    by_cases hts : ts = []
    · have hus : us = [] := (intercalate_eq_nil_iff hu).mp (h ▸ (intercalate_eq_nil_iff ht).mpr hts)
      rw [hts, hus]
    · have hus : us ≠ [] := fun hus =>
        hts ((intercalate_eq_nil_iff ht).mp (h ▸ (intercalate_eq_nil_iff hu).mpr hus))
      rw [← pieces_intercalate hts, ← pieces_intercalate hus, h]
  · intro h
    rw [← hflat, h, hflat]

/-! ## Where an operand ends -/

/-- How the text of a condition starts: with a hook's name or a connective. -/
def starts : List (List Char) :=
  [[':'], ['@'], ['a', 'n', 'd', '('], ['o', 'r', '('], ['n', 'o', 't', '(']]

def startsOperand (cs : List Char) : Bool :=
  starts.any fun start => (Text.stripStart? start cs).isSome

/-- What may stand behind an operand: nothing, the bracket of the condition around it, or
another operand. -/
def endsOperand : List Char → Bool
  | [] => true
  | c :: cs => c == ')' || c == ',' && (Text.stripStart? [' '] cs).any startsOperand

/-- The text has matching brackets, with `depth` further ones to close, and outside of them
nothing that could stand behind an operand. -/
def isWhole : Nat → List Char → Bool
  | depth, [] => depth == 0
  | depth, c :: cs => !(depth == 0 && endsOperand (c :: cs)) && isWhole (level depth c) cs

theorem startsOperand_append {cs : List Char} (h : startsOperand cs = true) (rest : List Char) :
    startsOperand (cs ++ rest) = true := by
  obtain ⟨start, hmem, hstart⟩ := List.any_eq_true.mp h
  obtain ⟨after, hafter⟩ := Option.isSome_iff_exists.mp hstart
  obtain rfl := Text.stripStart?_eq_some_iff.mp hafter
  refine List.any_eq_true.mpr ⟨start, hmem, ?_⟩
  rw [List.append_assoc, Text.stripStart?_append]
  rfl

/-- No operand starts across a bracket or a comma. -/
theorem startsOperand_append_cons {s : Char} (hs : ∀ start ∈ starts, s ∉ start)
    (cs rest : List Char) : startsOperand (cs ++ s :: rest) = startsOperand cs := by
  rw [startsOperand, startsOperand, Bool.eq_iff_iff, List.any_eq_true, List.any_eq_true]
  refine exists_congr fun start => and_congr_right fun hmem => ?_
  rw [Evaluation.stripStart?_append_cons (hs start hmem), Option.isSome_map]

theorem endsOperand_append {rest : List Char} (h : endsOperand rest = true) (c : Char)
    (cs : List Char) : endsOperand (c :: cs ++ rest) = endsOperand (c :: cs) := by
  cases rest with
  | nil => rw [List.append_nil]
  | cons s rest =>
    -- looking ahead stops at `s`, which is in no start of an operand
    have hs : s = ')' ∨ s = ',' := by
      rw [endsOperand, Bool.or_eq_true, Bool.and_eq_true, beq_iff_eq, beq_iff_eq] at h
      exact h.imp_right And.left
    have hblank : s ∉ [' '] := by
      rcases hs with rfl | rfl <;> decide
    have hstarts : ∀ start ∈ starts, s ∉ start := by
      rcases hs with rfl | rfl <;> decide
    rw [List.cons_append, endsOperand, endsOperand, Evaluation.stripStart?_append_cons hblank]
    cases Text.stripStart? [' '] cs with
    | none => rfl
    | some after =>
      rw [Option.map_some, Option.any_some, Option.any_some, startsOperand_append_cons hstarts]

theorem endsOperand_eq_false {c : Char} {cs rest : List Char} (hc : isWhole 0 (c :: cs) = true)
    (h : endsOperand rest = true) : endsOperand (c :: cs ++ rest) = false := by
  rw [isWhole, Bool.and_eq_true, beq_self_eq_true, Bool.true_and, Bool.not_eq_true'] at hc
  rw [endsOperand_append h, hc.1]

/-- Two texts that start with whole operands have the same first operand. -/
theorem eq_of_append_eq {depth : Nat} {cs ds rest rest' : List Char}
    (hc : isWhole depth cs = true) (hd : isWhole depth ds = true)
    (hr : endsOperand rest = true) (hr' : endsOperand rest' = true)
    (h : cs ++ rest = ds ++ rest') : cs = ds ∧ rest = rest' := by
  -- where the first operand is over, the second one would go on with what can only end it
  induction cs generalizing depth ds with
  | nil =>
    obtain rfl : depth = 0 := by simpa [isWhole] using hc
    cases ds with
    | nil => exact ⟨rfl, h⟩
    | cons d ds =>
      have hends := endsOperand_eq_false hd hr'
      rw [← h, List.nil_append, hr] at hends
      cases hends
  | cons c cs ih =>
    cases ds with
    | nil =>
      obtain rfl : depth = 0 := by simpa [isWhole] using hd
      have hends := endsOperand_eq_false hc hr
      rw [h, List.nil_append, hr'] at hends
      cases hends
    | cons d ds =>
      obtain ⟨rfl, htail⟩ := List.cons.inj h
      rw [isWhole, Bool.and_eq_true] at hc hd
      obtain ⟨rfl, hrest⟩ := ih hc.2 hd.2 htail
      exact ⟨rfl, hrest⟩

/-- A text that stands as one operand among others. -/
structure IsOperand (cs : List Char) : Prop where
  starts : startsOperand cs = true
  whole : isWhole 0 cs = true

theorem IsOperand.ne_nil {cs : List Char} (h : IsOperand cs) : cs ≠ [] := by
  rintro rfl
  exact absurd h.starts (by decide)

/-- Further operands, each behind a separator. -/
def further (ts : List (List Char)) : List Char := ts.flatMap (separator ++ ·)

theorem intercalate_cons (t : List Char) (ts : List (List Char)) :
    separator.intercalate (t :: ts) = t ++ further ts := by
  induction ts generalizing t with
  | nil => rw [List.intercalate_singleton, further, List.flatMap_nil, List.append_nil]
  | cons u us ih =>
    rw [List.intercalate_cons_cons, ih, further, further, List.flatMap_cons]
    simp

theorem endsOperand_further {ts : List (List Char)} (h : ∀ t ∈ ts, IsOperand t) :
    endsOperand (further ts) = true := by
  cases ts with
  | nil => rfl
  | cons t ts =>
    have hstart := startsOperand_append (h t List.mem_cons_self).starts (further ts)
    change endsOperand (',' :: ' ' :: (t ++ further ts)) = true
    rw [endsOperand, show ' ' :: (t ++ further ts) = [' '] ++ (t ++ further ts) from rfl,
      Text.stripStart?_append, Option.any_some, hstart]
    rfl

/-- Operands are told apart by the separators outside their parentheses, of which none is
inside an operand. -/
theorem further_injective {ts us : List (List Char)} (ht : ∀ t ∈ ts, IsOperand t)
    (hu : ∀ u ∈ us, IsOperand u) (h : further ts = further us) : ts = us := by
  induction ts generalizing us with
  | nil =>
    cases us with
    | nil => rfl
    | cons u us => cases h
  | cons t ts ih =>
    cases us with
    | nil => cases h
    | cons u us =>
      have htail : t ++ further ts = u ++ further us := (List.cons.inj (List.cons.inj h).2).2
      have hts := fun x hx => ht x (List.mem_cons_of_mem _ hx)
      have hus := fun x hx => hu x (List.mem_cons_of_mem _ hx)
      obtain ⟨rfl, hrest⟩ := eq_of_append_eq (ht t List.mem_cons_self).whole
        (hu u List.mem_cons_self).whole (endsOperand_further hts) (endsOperand_further hus) htail
      rw [ih hts hus hrest]

/-- Whole operands can be told apart in the text of their list. -/
theorem intercalate_injective {ts us : List (List Char)} (ht : ∀ t ∈ ts, IsOperand t)
    (hu : ∀ u ∈ us, IsOperand u) (h : separator.intercalate ts = separator.intercalate us) :
    ts = us := by
  have hne : ∀ {ts : List (List Char)}, (∀ t ∈ ts, IsOperand t) → ∀ t ∈ ts, t ≠ [] :=
    fun h t hmem => (h t hmem).ne_nil
  cases ts with
  | nil => exact ((intercalate_eq_nil_iff (hne hu)).mp h.symm).symm
  | cons t ts =>
    cases us with
    | nil => exact (intercalate_eq_nil_iff (hne ht)).mp h
    | cons u us =>
      rw [intercalate_cons, intercalate_cons] at h
      exact further_injective ht hu (congrArg (separator ++ ·) h)

/-- Between two brackets any whole text may stand. -/
theorem isWhole_inside {depth : Nat} {cs : List Char} (h : isWhole depth cs = true) (k : Nat)
    (rest : List Char) : isWhole (depth + (k + 1)) (cs ++ rest) = isWhole (k + 1) rest := by
  induction cs generalizing depth with
  | nil =>
    obtain rfl : depth = 0 := by simpa [isWhole] using h
    rw [Nat.zero_add, List.nil_append]
  | cons c cs ih =>
    rw [isWhole, Bool.and_eq_true, Bool.not_eq_true', Bool.and_eq_false_iff,
      beq_eq_false_iff_ne] at h
    -- a bracket that closes more than was opened would be an end at depth zero
    have hlevel : level (depth + (k + 1)) c = level depth c + (k + 1) := by
      unfold level
      split
      · omega
      split
      next hclose =>
        have hdepth : depth ≠ 0 := by
          rcases h.1 with hdepth | hends
          · exact hdepth
          · rw [hclose] at hends
            cases hends
        omega
      next => rfl
    have hdeep : (depth + (k + 1) == 0) = false := beq_eq_false_iff_ne.mpr (by omega)
    rw [List.cons_append, isWhole, hdeep, Bool.false_and, Bool.not_false, Bool.true_and, hlevel,
      ih h.2]

theorem isWhole_intercalate {ts : List (List Char)} (h : ∀ t ∈ ts, IsOperand t)
    (rest : List Char) : isWhole 1 (separator.intercalate ts ++ rest) = isWhole 1 rest := by
  induction ts with
  | nil => rfl
  | cons t ts ih =>
    have ht := isWhole_inside (h t List.mem_cons_self).whole 0
    rw [Nat.zero_add] at ht
    cases ts with
    | nil => rw [List.intercalate_singleton, ht]
    | cons u us =>
      rw [List.intercalate_cons_cons, List.append_assoc, List.append_assoc, ht]
      exact ih fun x hx => h x (List.mem_cons_of_mem _ hx)

/-! ## The parts of a condition's text -/

def operandTexts (cs : List Condition) : List (List Char) := cs.map fun c => c.text.toList

/-- Operands behind a connective with its bracket. -/
def enclosed (connective : List Char) (ts : List (List Char)) : List Char :=
  connective ++ (separator.intercalate ts ++ [')'])

theorem toList_all (cs : List Condition) :
    (all cs).text.toList = enclosed ['a', 'n', 'd', '('] (operandTexts cs) := by
  rw [text, texts_eq_map, String.toList_append, String.toList_append, String.toList_intercalate,
    List.map_map, List.append_assoc]
  rfl

theorem toList_any (cs : List Condition) :
    (any cs).text.toList = enclosed ['o', 'r', '('] (operandTexts cs) := by
  rw [text, texts_eq_map, String.toList_append, String.toList_append, String.toList_intercalate,
    List.map_map, List.append_assoc]
  rfl

theorem toList_not (c : Condition) :
    (not c).text.toList = enclosed ['n', 'o', 't', '('] [c.text.toList] := by
  rw [text, String.toList_append, String.toList_append, List.append_assoc, enclosed,
    List.intercalate_singleton]
  rfl

theorem enclosed_inj {connective : List Char} {ts us : List (List Char)} :
    enclosed connective ts = enclosed connective us ↔
      separator.intercalate ts = separator.intercalate us := by
  rw [enclosed, enclosed, List.append_cancel_left_eq, List.append_cancel_right_eq]

/-- A connective around operands is an operand again. -/
theorem isOperand_enclosed {connective : List Char}
    (hc : connective ∈ [['a', 'n', 'd', '('], ['o', 'r', '('], ['n', 'o', 't', '(']])
    {ts : List (List Char)} (h : ∀ t ∈ ts, IsOperand t) : IsOperand (enclosed connective ts) := by
  have hinside : isWhole 1 (separator.intercalate ts ++ [')']) = true := by
    rw [isWhole_intercalate h]
    decide
  have hstart : ∀ rest, startsOperand (connective ++ rest) = true ∧
      isWhole 0 (connective ++ rest) = isWhole 1 rest := by
    intro rest
    simp only [List.mem_cons, List.not_mem_nil, or_false] at hc
    rcases hc with rfl | rfl | rfl
    · exact ⟨startsOperand_append (by decide) rest, rfl⟩
    · exact ⟨startsOperand_append (by decide) rest, rfl⟩
    · exact ⟨startsOperand_append (by decide) rest, rfl⟩
  exact ⟨(hstart _).1, (hstart _).2.trans hinside⟩

/-! ## Conditions with one text -/

/-- All names are names of hooks. -/
def Named (c : Condition) : Prop := ∀ name ∈ c.hooks, (HookKind.ofName? name).isSome

/-- The first letter of a connective; a hook has none. -/
def initial : Condition → Option Char
  | hook _ => none
  | all _ => some 'a'
  | any _ => some 'o'
  | not _ => some 'n'

theorem head?_of_named {name : String} (h : (HookKind.ofName? name).isSome) :
    name.toList.head? = some ':' ∨ name.toList.head? = some '@' := by
  obtain ⟨kind, hkind⟩ := Option.isSome_iff_exists.mp h
  exact Hook.head_name ⟨name, kind, hkind⟩

/-- The text shows the connective, since the name of a hook starts with no letter. -/
theorem initial_eq {c : Condition} (h : c.Named) :
    c.initial = c.text.toList.head?.filter Char.isAlpha := by
  cases c with
  | hook name =>
    rw [text]
    rcases head?_of_named (h name (List.mem_singleton_self _)) with hhead | hhead
    · rw [hhead]
      rfl
    · rw [hhead]
      rfl
  | all cs =>
    rw [toList_all]
    rfl
  | any cs =>
    rw [toList_any]
    rfl
  | not c =>
    rw [toList_not]
    rfl

theorem initial_eq_of_text_eq {c d : Condition} (hc : c.Named) (hd : d.Named)
    (h : c.text = d.text) : c.initial = d.initial := by
  rw [initial_eq hc, initial_eq hd, h]

theorem forall_hooks_of_mem {p : String → Prop} {cs : List Condition} {c : Condition}
    (h : ∀ name ∈ hooksOf cs, p name) (hc : c ∈ cs) : ∀ name ∈ c.hooks, p name := by
  intro name hname
  rw [hooksOf_eq_flatMap] at h
  exact h name (List.mem_flatMap.mpr ⟨c, hc, hname⟩)

theorem text_ne_nil {c : Condition} (h : c.Named) : c.text.toList ≠ [] := by
  cases c with
  | hook name =>
    intro hnil
    have hhead := head?_of_named (h name (List.mem_singleton_self _))
    rw [text] at hnil
    rw [hnil] at hhead
    simp at hhead
  | all cs =>
    rw [toList_all]
    exact List.cons_ne_nil _ _
  | any cs =>
    rw [toList_any]
    exact List.cons_ne_nil _ _
  | not c =>
    rw [toList_not]
    exact List.cons_ne_nil _ _

theorem operandTexts_ne_nil {cs : List Condition}
    (h : ∀ name ∈ hooksOf cs, (HookKind.ofName? name).isSome) :
    ∀ t ∈ operandTexts cs, t ≠ [] := by
  intro t ht
  obtain ⟨c, hc, rfl⟩ := List.mem_map.mp ht
  exact text_ne_nil (forall_hooks_of_mem h hc)

/-- The pieces of the operands of a condition. -/
def operandPieces (cs : List Condition) : List (List Char) := (operandTexts cs).flatMap pieces

/-- What two conditions have in common when they have one text: the connectives, the names of
hooks that stand alone, and the pieces of the operands. -/
def Alike : Condition → Condition → Prop
  | hook name, hook name' => name = name'
  | all cs, all ds => operandPieces cs = operandPieces ds
  | any cs, any ds => operandPieces cs = operandPieces ds
  | not c, not d => Alike c d
  | _, _ => False

theorem text_ne_of_initial_ne {c d : Condition} (hc : c.Named) (hd : d.Named)
    (h : c.initial ≠ d.initial) : c.text ≠ d.text :=
  fun e => h (initial_eq_of_text_eq hc hd e)

theorem text_eq_iff {c d : Condition} : c.text = d.text ↔ c.text.toList = d.text.toList :=
  String.toList_inj.symm

/-- The texts of two conditions agree exactly when the conditions do up to where the
operands are cut. -/
theorem text_eq_iff_alike {c d : Condition} (hc : c.Named) (hd : d.Named) :
    c.text = d.text ↔ Alike c d := by
  induction c using operandInduction generalizing d with
  | hook name =>
    cases d with
    | hook name' => rw [text, text, Alike]
    | _ => exact iff_of_false (text_ne_of_initial_ne hc hd (by simp [initial])) (by simp [Alike])
  | all cs =>
    cases d with
    | all ds =>
      rw [text_eq_iff, toList_all, toList_all, enclosed_inj, Alike,
        intercalate_eq_iff (operandTexts_ne_nil hc) (operandTexts_ne_nil hd)]
      rfl
    | _ => exact iff_of_false (text_ne_of_initial_ne hc hd (by simp [initial])) (by simp [Alike])
  | any cs =>
    cases d with
    | any ds =>
      rw [text_eq_iff, toList_any, toList_any, enclosed_inj, Alike,
        intercalate_eq_iff (operandTexts_ne_nil hc) (operandTexts_ne_nil hd)]
      rfl
    | _ => exact iff_of_false (text_ne_of_initial_ne hc hd (by simp [initial])) (by simp [Alike])
  | not c ih =>
    cases d with
    | not d =>
      rw [text_eq_iff, toList_not, toList_not, enclosed_inj, List.intercalate_singleton,
        List.intercalate_singleton, ← text_eq_iff, Alike]
      exact ih hc hd
    | _ => exact iff_of_false (text_ne_of_initial_ne hc hd (by simp [initial])) (by simp [Alike])

/-! ## Conditions that their texts identify -/

/-- A name that never reads like several operands, nor like a part of one. -/
def Seamless (name : String) : Prop := isWhole 0 name.toList = true

theorem startsOperand_name {name : String} (h : (HookKind.ofName? name).isSome) :
    startsOperand name.toList = true := by
  have hcolon : startsOperand [':'] = true := by decide
  have hat : startsOperand ['@'] = true := by decide
  have hhead := head?_of_named h
  cases hname : name.toList with
  | nil =>
    rw [hname] at hhead
    simp at hhead
  | cons c cs =>
    rw [hname, List.head?_cons] at hhead
    rcases hhead with hhead | hhead
    · rw [Option.some.inj hhead]
      exact startsOperand_append hcolon cs
    · rw [Option.some.inj hhead]
      exact startsOperand_append hat cs

/-- All names are seamless names of hooks. -/
def Clear (c : Condition) : Prop :=
  ∀ name ∈ c.hooks, (HookKind.ofName? name).isSome ∧ Seamless name

theorem Clear.named {c : Condition} (h : c.Clear) : c.Named := fun name hname => (h name hname).1

/-- By induction over the condition: a clear condition's text is one operand. -/
theorem isOperand_text {c : Condition} (h : c.Clear) : IsOperand c.text.toList := by
  induction c using operandInduction with
  | hook name =>
    obtain ⟨hnamed, hseamless⟩ := h name (List.mem_singleton_self _)
    rw [text]
    exact ⟨startsOperand_name hnamed, hseamless⟩
  | all cs ih =>
    rw [toList_all]
    refine isOperand_enclosed (by decide) fun t ht => ?_
    obtain ⟨c, hc, rfl⟩ := List.mem_map.mp ht
    exact ih c hc (forall_hooks_of_mem h hc)
  | any cs ih =>
    rw [toList_any]
    refine isOperand_enclosed (by decide) fun t ht => ?_
    obtain ⟨c, hc, rfl⟩ := List.mem_map.mp ht
    exact ih c hc (forall_hooks_of_mem h hc)
  | not c ih =>
    rw [toList_not]
    refine isOperand_enclosed (by decide) fun t ht => ?_
    rw [List.mem_singleton.mp ht]
    exact ih h

theorem isOperand_of_mem {cs : List Condition}
    (h : ∀ name ∈ hooksOf cs, (HookKind.ofName? name).isSome ∧ Seamless name) :
    ∀ t ∈ operandTexts cs, IsOperand t := by
  intro t ht
  obtain ⟨c, hc, rfl⟩ := List.mem_map.mp ht
  exact isOperand_text (forall_hooks_of_mem h hc)

/-- Lists of conditions with the same texts are the same, when the conditions are. -/
theorem eq_of_operandTexts_eq {cs ds : List Condition}
    (h : ∀ c ∈ cs, ∀ d ∈ ds, c.text = d.text → c = d) (he : operandTexts cs = operandTexts ds) :
    cs = ds := by
  induction cs generalizing ds with
  | nil => exact (List.map_eq_nil_iff.mp he.symm).symm
  | cons c cs ih =>
    cases ds with
    | nil => cases he
    | cons d ds =>
      obtain ⟨htext, hrest⟩ := List.cons.inj he
      rw [h c List.mem_cons_self d List.mem_cons_self (String.toList_injective htext),
        ih (fun c hc d hd => h c (List.mem_cons_of_mem _ hc) d (List.mem_cons_of_mem _ hd)) hrest]

/-- The operands of a list are identified by its text, when each of them is by its own. -/
theorem eq_of_intercalate_eq {cs ds : List Condition}
    (ih : ∀ c ∈ cs, ∀ {d : Condition}, c.Clear → d.Clear → c.text = d.text → c = d)
    (hc : ∀ name ∈ hooksOf cs, (HookKind.ofName? name).isSome ∧ Seamless name)
    (hd : ∀ name ∈ hooksOf ds, (HookKind.ofName? name).isSome ∧ Seamless name)
    (h : separator.intercalate (operandTexts cs) = separator.intercalate (operandTexts ds)) :
    cs = ds := by
  have htexts := intercalate_injective (isOperand_of_mem hc) (isOperand_of_mem hd) h
  refine eq_of_operandTexts_eq (fun c hmem d hmem' htext => ?_) htexts
  exact ih c hmem (forall_hooks_of_mem hc hmem) (forall_hooks_of_mem hd hmem') htext

/-- Over seamless names, a condition is identified by its text. -/
theorem eq_of_text_eq {c d : Condition} (hc : c.Clear) (hd : d.Clear) (h : c.text = d.text) :
    c = d := by
  induction c using operandInduction generalizing d with
  | hook name =>
    cases d with
    | hook name' =>
      rw [text, text] at h
      rw [h]
    | _ => exact absurd h (text_ne_of_initial_ne hc.named hd.named (by simp [initial]))
  | all cs ih =>
    cases d with
    | all ds =>
      rw [text_eq_iff, toList_all, toList_all, enclosed_inj] at h
      rw [eq_of_intercalate_eq ih hc hd h]
    | _ => exact absurd h (text_ne_of_initial_ne hc.named hd.named (by simp [initial]))
  | any cs ih =>
    cases d with
    | any ds =>
      rw [text_eq_iff, toList_any, toList_any, enclosed_inj] at h
      rw [eq_of_intercalate_eq ih hc hd h]
    | _ => exact absurd h (text_ne_of_initial_ne hc.named hd.named (by simp [initial]))
  | not c ih =>
    cases d with
    | not d =>
      rw [text_eq_iff, toList_not, toList_not, enclosed_inj, List.intercalate_singleton,
        List.intercalate_singleton, ← text_eq_iff] at h
      have hoperand : d.Clear := hd
      rw [ih hc hoperand h]
    | _ => exact absurd h (text_ne_of_initial_ne hc.named hd.named (by simp [initial]))

end Condition

/-! ## Nested hooks -/

namespace Override

open Condition (pieces operandPieces operandTexts)

theorem condition_of_length_ne {o : Override} (h : o.hooks.length ≠ 1) :
    o.condition = .all (o.hooks.map .hook) := by
  unfold condition
  split
  next name hname =>
    rw [hname] at h
    exact absurd rfl h
  next => rfl

theorem condition_of_single {o : Override} {name : String} (h : o.hooks = [name]) :
    o.condition = .hook name := by
  rw [condition, h]

theorem hooks_condition (o : Override) : o.condition.hooks = o.hooks := by
  unfold condition
  split
  next name hname => rw [hname, Condition.hooks]
  next =>
    rw [Condition.hooks, Condition.hooksOf_eq_flatMap, List.flatMap_map]
    exact List.flatMap_singleton' o.hooks

theorem operandPieces_map_hook (names : List String) :
    operandPieces (names.map .hook) = names.flatMap fun name => pieces name.toList := by
  rw [operandPieces, operandTexts, List.map_map, List.flatMap_map]
  rfl

/-- Two nestings of hooks have one text when they are the same or, being no single hooks, have
the same pieces. -/
theorem text_condition_eq_iff {o p : Override}
    (ho : ∀ name ∈ o.hooks, (HookKind.ofName? name).isSome)
    (hp : ∀ name ∈ p.hooks, (HookKind.ofName? name).isSome) :
    o.condition.text = p.condition.text ↔
      o.hooks = p.hooks ∨ o.hooks.length ≠ 1 ∧ p.hooks.length ≠ 1 ∧
        (o.hooks.flatMap fun name => pieces name.toList) =
          p.hooks.flatMap fun name => pieces name.toList := by
  rw [← hooks_condition o] at ho
  rw [← hooks_condition p] at hp
  rw [Condition.text_eq_iff_alike ho hp]
  by_cases hsingle : o.hooks.length = 1
  · obtain ⟨name, hname⟩ := List.length_eq_one_iff.mp hsingle
    rw [condition_of_single hname]
    by_cases hsingle' : p.hooks.length = 1
    · obtain ⟨name', hname'⟩ := List.length_eq_one_iff.mp hsingle'
      rw [condition_of_single hname', Condition.Alike, hname, hname']
      simp
    · have hne : o.hooks ≠ p.hooks := fun h => hsingle' (h ▸ hsingle)
      rw [condition_of_length_ne hsingle']
      simp [Condition.Alike, hne, hsingle]
  · rw [condition_of_length_ne hsingle]
    by_cases hsingle' : p.hooks.length = 1
    · obtain ⟨name', hname'⟩ := List.length_eq_one_iff.mp hsingle'
      have hne : o.hooks ≠ p.hooks := fun h => hsingle (h ▸ hsingle')
      rw [condition_of_single hname']
      simp [Condition.Alike, hne, hsingle']
    · rw [condition_of_length_ne hsingle', Condition.Alike, operandPieces_map_hook,
        operandPieces_map_hook]
      constructor
      · exact fun h => Or.inr ⟨hsingle, hsingle', h⟩
      · rintro (h | ⟨-, -, h⟩)
        · rw [h]
        · exact h

end Override

namespace Condition

/-- Two conditions over hooks have one text exactly when they are alike. When no name of a hook
has a seam, they are alike only when they are the same. -/
theorem text_identifies_iff {c d : Condition}
    (hc : ∀ name ∈ c.hooks, (HookKind.ofName? name).isSome)
    (hd : ∀ name ∈ d.hooks, (HookKind.ofName? name).isSome) :
    (c.text = d.text ↔ Alike c d) ∧
      ((∀ name ∈ c.hooks ++ d.hooks, Seamless name) → (c.text = d.text ↔ c = d)) := by
  refine ⟨text_eq_iff_alike hc hd, fun hseamless => ⟨fun h => ?_, fun h => h ▸ rfl⟩⟩
  exact eq_of_text_eq (fun name hname => ⟨hc name hname, hseamless name (by simp [hname])⟩)
    (fun name hname => ⟨hd name hname, hseamless name (by simp [hname])⟩) h

/-- Two hooks, of which the first one reads like two. -/
def twoHooks : Condition := .all [.hook ":a, :b", .hook ":c"]

def threeHooks : Condition := .all [.hook ":a", .hook ":b", .hook ":c"]

/-- One toggle stands for two conditions, which differ when the first of the two hooks is not
active. A comma in brackets makes no seam. -/
theorem text_not_identifies_twoHooks :
    (∀ name ∈ twoHooks.hooks ++ threeHooks.hooks, (HookKind.ofName? name).isSome) ∧
      twoHooks.text = threeHooks.text ∧ twoHooks ≠ threeHooks ∧
      (∀ system : ToggleSystem, system.toggle twoHooks = system.toggle threeHooks) ∧
      twoHooks.holds (· != ":a, :b") = false ∧ threeHooks.holds (· != ":a, :b") = true ∧
      Seamless ":is(:a, :b)" ∧
      Condition.text (.all [.hook ":is(:a, :b)", .hook ":c"]) ≠
        Condition.text (.all [.hook ":is(:a, :b)", .not (.hook ":c")]) := by
  have htwo : ∀ name ∈ twoHooks.hooks, (HookKind.ofName? name).isSome := by decide +kernel
  have hthree : ∀ name ∈ threeHooks.hooks, (HookKind.ofName? name).isSome := by decide +kernel
  have halike : Alike twoHooks threeHooks := by
    simp only [twoHooks, threeHooks, Alike]
    decide +kernel
  have htext := (text_identifies_iff htwo hthree).1.mpr halike
  have hseamless : Seamless ":is(:a, :b)" := by
    unfold Seamless
    decide +kernel
  refine ⟨?_, htext, ?_, fun system => ?_, by decide +kernel, by decide +kernel, hseamless, ?_⟩
  · intro name hname
    exact (List.mem_append.mp hname).elim (htwo name) (hthree name)
  · simp [twoHooks, threeHooks]
  · rw [twoHooks, threeHooks] at htext ⊢
    rw [ToggleSystem.toggle, ToggleSystem.toggle, htext]
    · simp
    · simp
  · have hnames : ∀ name ∈ [":is(:a, :b)", ":c"], (HookKind.ofName? name).isSome := by
      decide +kernel
    have hseamlessAll : ∀ name ∈ [":is(:a, :b)", ":c"] ++ [":is(:a, :b)", ":c"],
        Seamless name := by
      unfold Seamless
      decide +kernel
    have hclear := text_identifies_iff (c := .all [.hook ":is(:a, :b)", .hook ":c"])
      (d := .all [.hook ":is(:a, :b)", .not (.hook ":c")]) hnames hnames
    exact (hclear.2 hseamlessAll).not.mpr (by simp)

end Condition

end HookStyle
