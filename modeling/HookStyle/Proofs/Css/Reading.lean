import HookStyle.Proofs.Css.Written
import HookStyle.Proofs.Evaluation.Text

/-!
# Reading rules

The text of rules is read character by character. A brace opens or closes a block, and a
semicolon ends a declaration. What has come since the last of these marks is a prelude or a
declaration, which its first colon divides; white space at the ends of a part belongs to no
part.

* `reads_plain`: text without marks is collected.
* `reads_declaration`, `reads_rules`: what the text of a declaration and of rules adds to the
  rules that were read before it.
* `ofText?_sheet`, `ofText?_text`: a sheet and a rule by itself are read back, from both
  layouts alike.
-/

namespace HookStyle.Css.Rule

open Evaluation

/-- The characters that end a part of a rule. -/
def isMark (c : Char) : Bool := c == '\x7b' || c == '\x7d' || c == ';'

/-- A part of a rule, from the characters that were collected for it. -/
def part (cs : List Char) : String := String.ofList (trim cs)

/-- The declaration that some characters make, if there is a colon among them. -/
def declaration? (cs : List Char) : Option Rule :=
  match cs.dropWhile (· ≠ ':') with
  | [] => none
  | _ :: value => some (.declaration (part (cs.takeWhile (· ≠ ':'))) (part value))

/-- What has been read of a text: the characters since the last mark, the rules of the
innermost open block, and around it the preludes of the open blocks with the rules that stand
before them. -/
structure Reader where
  pending : List Char
  body : List Rule
  enclosing : List (String × List Rule)

namespace Reader

/-- Takes one character; `none` when it cannot stand there. -/
def step (r : Reader) (c : Char) : Option Reader :=
  if c = '\x7b' then some ⟨[], [], (part r.pending, r.body) :: r.enclosing⟩
  else if c = '\x7d' then
    match r.enclosing with
    | [] => none
    | (prelude, before) :: enclosing =>
      if r.pending.all Text.isBlank then some ⟨[], before ++ [.block prelude r.body], enclosing⟩
      else none
  else if c = ';' then (declaration? r.pending).map fun d => ⟨[], r.body ++ [d], r.enclosing⟩
  else some { r with pending := r.pending ++ [c] }

/-- The rules of a text at its end, where no block may be open. -/
def finish? (r : Reader) : Option (List Rule) :=
  if r.enclosing.isEmpty && r.pending.all Text.isBlank then some r.body else none

end Reader

/-- The rules of a text. -/
def ofText? (s : String) : Option (List Rule) :=
  (s.toList.foldlM Reader.step ⟨[], [], []⟩).bind Reader.finish?

/-! ## Rules that can be read back -/

mutual

/-- No part of the rule has a mark in it, and no declared name has a colon. -/
def Legible : Rule → Prop
  | declaration name value =>
    (∀ c ∈ name.toList, isMark c = false ∧ c ≠ ':') ∧ ∀ c ∈ value.toList, isMark c = false
  | block prelude body => (∀ c ∈ prelude.toList, isMark c = false) ∧ AllLegible body

def AllLegible : List Rule → Prop
  | [] => True
  | rule :: rules => rule.Legible ∧ AllLegible rules

end

mutual

/-- The rule without the white space at the ends of its parts. -/
def stripped : Rule → Rule
  | declaration name value => declaration (part name.toList) (part value.toList)
  | block prelude body => block (part prelude.toList) (strippedAll body)

def strippedAll : List Rule → List Rule
  | [] => []
  | rule :: rules => rule.stripped :: strippedAll rules

end

theorem allLegible_iff {rules : List Rule} : AllLegible rules ↔ ∀ rule ∈ rules, rule.Legible := by
  induction rules with
  | nil => simp [AllLegible]
  | cons rule rules ih => simp [AllLegible, ih]

theorem strippedAll_eq_map (rules : List Rule) : strippedAll rules = rules.map stripped := by
  induction rules with
  | nil => rfl
  | cons rule rules ih => rw [strippedAll, ih, List.map_cons]

/-! ## White space -/

/-- Text that consists of white space. -/
def Blank (cs : List Char) : Prop := ∀ c ∈ cs, Text.isBlank c = true

theorem Blank.nil : Blank [] := fun _ h => by cases h

theorem Blank.append {cs ds : List Char} (hc : Blank cs) (hd : Blank ds) : Blank (cs ++ ds) :=
  fun c h => (List.mem_append.mp h).elim (hc c) (hd c)

theorem Blank.space (layout : Layout) : Blank layout.space.toList := by
  cases layout with
  | compact => exact Blank.nil
  | pretty =>
    intro c hc
    obtain rfl := List.mem_singleton.mp hc
    decide

theorem Blank.newline (layout : Layout) : Blank layout.newline.toList := by
  cases layout with
  | compact => exact Blank.nil
  | pretty =>
    intro c hc
    obtain rfl := List.mem_singleton.mp hc
    decide

theorem Blank.indent (layout : Layout) (depth : Nat) : Blank (layout.indent depth).toList := by
  induction depth with
  | zero => exact Blank.nil
  | succ depth ih =>
    rw [Layout.indent, String.toList_append, String.toList_append]
    exact ((Blank.space layout).append (Blank.space layout)).append ih

/-- White space is none of the marks that the reader acts on. -/
theorem Blank.isMark_eq_false {cs : List Char} (h : Blank cs) : ∀ c ∈ cs, isMark c = false := by
  intro c hc
  have hblank := h c hc
  rw [isMark, Bool.or_eq_false_iff, Bool.or_eq_false_iff, beq_eq_false_iff_ne,
    beq_eq_false_iff_ne, beq_eq_false_iff_ne]
  refine ⟨⟨?_, ?_⟩, ?_⟩
  all_goals
    rintro rfl
    revert hblank
    decide

theorem isMark_eq_false_of_any {cs : List Char} (h : cs.any isMark = false) :
    ∀ c ∈ cs, isMark c = false :=
  fun c hc => Bool.eq_false_iff.mpr (List.any_eq_false.mp h c hc)

theorem Blank.ne_colon {cs : List Char} (h : Blank cs) : ∀ c ∈ cs, c ≠ ':' := by
  rintro c hc rfl
  have hblank := h _ hc
  rw [Text.isBlank_colon] at hblank
  cases hblank

theorem trim_append_left {cs : List Char} (h : Blank cs) (ds : List Char) :
    trim (cs ++ ds) = trim ds := by
  induction cs with
  | nil => rfl
  | cons c cs ih =>
    rw [List.cons_append, trim_cons_blank (h c List.mem_cons_self),
      ih fun d hd => h d (List.mem_cons_of_mem _ hd)]

theorem trim_append_right {ds : List Char} (h : Blank ds) (cs : List Char) :
    trim (cs ++ ds) = trim cs := by
  induction ds using List.reverseRecOn with
  | nil => rw [List.append_nil]
  | append_singleton ds d ih =>
    rw [← List.append_assoc, trim_append_blank (h d (by simp)),
      ih fun c hc => h c (List.mem_append_left _ hc)]

theorem part_of_blank {before after : List Char} (hb : Blank before) (ha : Blank after)
    (cs : List Char) : part (before ++ cs ++ after) = part cs := by
  rw [part, trim_append_right ha, trim_append_left hb, part]

/-- No white space stands at the start or at the end. -/
structure Trimmed (cs : List Char) : Prop where
  head : ∀ c ∈ cs.head?, Text.isBlank c = false
  last : ∀ c ∈ cs.getLast?, Text.isBlank c = false

theorem trimmed_iff {cs : List Char} : Trimmed cs ↔
    (cs.head?.all fun c => !Text.isBlank c) = true ∧
      (cs.getLast?.all fun c => !Text.isBlank c) = true := by
  simp only [Option.all_eq_true, Bool.not_eq_true']
  exact ⟨fun h => ⟨h.head, h.last⟩, fun h => ⟨h.1, h.2⟩⟩

instance (cs : List Char) : Decidable (Trimmed cs) := decidable_of_iff' _ trimmed_iff

section Trimmed

variable {cs word : List Char}

theorem Trimmed.dropWhile_append (h : Trimmed word) (hne : word ≠ []) (cs : List Char) :
    (word ++ cs).dropWhile Text.isBlank = word ++ cs := by
  cases word with
  | nil => exact absurd rfl hne
  | cons c word => exact List.dropWhile_cons_of_neg (by simpa using h.head c rfl)

/-- The white space that goes at the end of a text stops at the word in front of it. -/
theorem Trimmed.rdropWhile_append (h : Trimmed word) (cs : List Char) :
    (word ++ cs).rdropWhile Text.isBlank = word ++ cs.rdropWhile Text.isBlank := by
  induction cs using List.reverseRecOn with
  | nil =>
    rw [List.append_nil, List.rdropWhile_nil, List.append_nil, List.rdropWhile_eq_self_iff]
    intro hne
    simpa using h.last _ (List.getLast?_eq_some_getLast hne)
  | append_singleton cs c ih =>
    rw [← List.append_assoc, List.rdropWhile_concat, List.rdropWhile_concat, ih]
    split
    · rfl
    · rw [List.append_assoc]

/-- Behind a word, only the white space at the end of a text goes. -/
theorem Trimmed.trim_append (h : Trimmed word) (hne : word ≠ []) (cs : List Char) :
    trim (word ++ cs) = word ++ cs.rdropWhile Text.isBlank := by
  rw [trim, h.dropWhile_append hne, h.rdropWhile_append]

theorem trim_rdropWhile (cs : List Char) : trim (cs.rdropWhile Text.isBlank) = trim cs := by
  have h : Blank (cs.rtakeWhile Text.isBlank) := fun c hc => List.mem_rtakeWhile_imp hc
  rw [← trim_append_right h, List.rdropWhile_append_rtakeWhile]

theorem Trimmed.trim_eq (h : Trimmed cs) : trim cs = cs := by
  by_cases hne : cs = []
  · rw [hne]
    rfl
  · have htrim := h.trim_append hne []
    rwa [List.append_nil, List.rdropWhile_nil, List.append_nil] at htrim

theorem Trimmed.part_eq {s : String} (h : Trimmed s.toList) : part s.toList = s := by
  rw [part, h.trim_eq, String.ofList_toList]

end Trimmed

/-! ## Reading text -/

/-- Reading `cs` takes the reader from `r` to `r'`. -/
def Reads (r : Reader) (cs : List Char) (r' : Reader) : Prop :=
  cs.foldlM Reader.step r = some r'

theorem Reads.trans {r r' r'' : Reader} {cs ds : List Char} (h : Reads r cs r')
    (h' : Reads r' ds r'') : Reads r (cs ++ ds) r'' := by
  rw [Reads, List.foldlM_append, h]
  exact h'

/-- Characters other than marks are only collected. -/
theorem reads_plain {cs : List Char} (h : ∀ c ∈ cs, isMark c = false) (r : Reader) :
    Reads r cs { r with pending := r.pending ++ cs } := by
  induction cs generalizing r with
  | nil => simp [Reads]
  | cons c cs ih =>
    have hc := h c List.mem_cons_self
    simp only [isMark, Bool.or_eq_false_iff, beq_eq_false_iff_ne] at hc
    have hstep : r.step c = some { r with pending := r.pending ++ [c] } := by
      rw [Reader.step, if_neg hc.1.1, if_neg hc.1.2, if_neg hc.2]
    have hrest := ih (fun d hd => h d (List.mem_cons_of_mem _ hd))
      { r with pending := r.pending ++ [c] }
    rw [Reads, List.foldlM_cons, hstep]
    rw [List.append_assoc] at hrest
    exact hrest

theorem reads_open (r : Reader) :
    Reads r ['\x7b'] ⟨[], [], (part r.pending, r.body) :: r.enclosing⟩ := rfl

/-- A closing brace ends the innermost block and gives it its place in the enclosing one. -/
theorem reads_close {pending : List Char} (h : Blank pending) (prelude : String)
    (before body : List Rule) (enclosing : List (String × List Rule)) :
    Reads ⟨pending, body, (prelude, before) :: enclosing⟩ ['\x7d']
      ⟨[], before ++ [.block prelude body], enclosing⟩ := by
  have hall : pending.all Text.isBlank = true := List.all_eq_true.mpr h
  simp [Reads, Reader.step, hall]

/-- A semicolon ends a declaration. -/
theorem reads_semicolon {pending : List Char} {d : Rule} (h : declaration? pending = some d)
    (body : List Rule) (enclosing : List (String × List Rule)) :
    Reads ⟨pending, body, enclosing⟩ [';'] ⟨[], body ++ [d], enclosing⟩ := by
  simp [Reads, Reader.step, h]

/-- The first colon behind a name divides it from its value. -/
theorem declaration?_eq {name : List Char} (h : ∀ c ∈ name, c ≠ ':') (value : List Char) :
    declaration? (name ++ ':' :: value) = some (.declaration (part name) (part value)) := by
  have hname : ∀ c ∈ name, decide (c ≠ ':') = true := fun c hc => decide_eq_true (h c hc)
  rw [declaration?, List.dropWhile_append_of_pos hname, List.takeWhile_append_of_pos hname]
  simp

/-- A declaration in any layout is read back, without the white space around its parts. -/
theorem reads_declaration (layout : Layout) (depth : Nat) {name value : String}
    (h : (declaration name value).Legible) {r : Reader} (hr : Blank r.pending) :
    Reads r (declarationText layout depth name value).toList
      ⟨layout.newline.toList, r.body ++ [(declaration name value).stripped], r.enclosing⟩ := by
  rw [Legible] at h
  -- no mark comes before the semicolon, and no colon before the one behind the name
  have hbefore : Blank (r.pending ++ (layout.indent depth).toList) :=
    hr.append (Blank.indent layout depth)
  have htext : (declarationText layout depth name value).toList =
      ((layout.indent depth).toList ++ name.toList ++ ':' :: (layout.space.toList ++ value.toList))
        ++ ([';'] ++ layout.newline.toList) := by
    simp [declarationText]
  have hplain : ∀ c ∈ (layout.indent depth).toList ++ name.toList ++
      ':' :: (layout.space.toList ++ value.toList), isMark c = false := by
    intro c hc
    simp only [List.mem_append, List.mem_cons] at hc
    rcases hc with (hc | hc) | rfl | hc | hc
    · exact (Blank.indent layout depth).isMark_eq_false c hc
    · exact (h.1 c hc).1
    · decide
    · exact (Blank.space layout).isMark_eq_false c hc
    · exact h.2 c hc
  have hcolon : ∀ c ∈ r.pending ++ (layout.indent depth).toList ++ name.toList, c ≠ ':' := by
    intro c hc
    rcases List.mem_append.mp hc with hc | hc
    · exact hbefore.ne_colon c hc
    · exact (h.1 c hc).2
  have hname := part_of_blank hbefore Blank.nil name.toList
  have hvalue := part_of_blank (Blank.space layout) Blank.nil value.toList
  rw [List.append_nil] at hname hvalue
  have hparts : declaration? (r.pending ++ ((layout.indent depth).toList ++ name.toList ++
      ':' :: (layout.space.toList ++ value.toList))) = some (declaration name value).stripped := by
    rw [← List.append_assoc, ← List.append_assoc, declaration?_eq hcolon, hname, hvalue, stripped]
  have hend := reads_semicolon hparts r.body r.enclosing
  rw [htext]
  exact (reads_plain hplain r).trans
    (hend.trans (reads_plain (Blank.newline layout).isMark_eq_false _))

mutual

/-- By induction over the rule: a block is read as its prelude, its rules and the closing
brace. -/
theorem reads_rule (layout : Layout) (depth : Nat) (rule : Rule) (h : rule.Legible) (r : Reader)
    (hr : Blank r.pending) :
    Reads r (written layout depth [rule]).toList
      ⟨layout.newline.toList, r.body ++ [rule.stripped], r.enclosing⟩ := by
  cases rule with
  | declaration name value =>
    rw [written_declaration]
    exact reads_declaration layout depth h hr
  | block prelude body =>
    rw [Legible] at h
    have htext : (written layout depth [block prelude body]).toList =
        ((layout.indent depth).toList ++ prelude.toList ++ layout.space.toList) ++
          (['\x7b'] ++ (layout.newline.toList ++ ((written layout (depth + 1) body).toList ++
            ((layout.indent depth).toList ++ (['\x7d'] ++ layout.newline.toList))))) := by
      rw [written_block]
      simp [blockText]
    have hplain : ∀ c ∈ (layout.indent depth).toList ++ prelude.toList ++ layout.space.toList,
        isMark c = false := by
      intro c hc
      simp only [List.mem_append] at hc
      rcases hc with (hc | hc) | hc
      · exact (Blank.indent layout depth).isMark_eq_false c hc
      · exact h.1 c hc
      · exact (Blank.space layout).isMark_eq_false c hc
    have hpart : part (r.pending ++ ((layout.indent depth).toList ++ prelude.toList ++
        layout.space.toList)) = part prelude.toList := by
      rw [← List.append_assoc, ← List.append_assoc]
      exact part_of_blank (hr.append (Blank.indent layout depth)) (Blank.space layout) _
    have hopen := reads_open { r with pending := r.pending ++ ((layout.indent depth).toList ++
      prelude.toList ++ layout.space.toList) }
    rw [hpart] at hopen
    -- inside the brace the rules before this one wait, and the body starts with no rules
    obtain ⟨pending, hpending, hbody⟩ := reads_rules layout (depth + 1) body h.2
      ⟨layout.newline.toList, [], (part prelude.toList, r.body) :: r.enclosing⟩
      (Blank.newline layout)
    have hclose := reads_close (hpending.append (Blank.indent layout depth)) (part prelude.toList)
      r.body (strippedAll body) r.enclosing
    rw [htext]
    refine (reads_plain hplain r).trans (hopen.trans ?_)
    refine (reads_plain (Blank.newline layout).isMark_eq_false _).trans (hbody.trans ?_)
    refine (reads_plain (Blank.indent layout depth).isMark_eq_false _).trans (hclose.trans ?_)
    rw [stripped]
    exact reads_plain (Blank.newline layout).isMark_eq_false _

/-- Behind rules that were read, there is white space at most. -/
theorem reads_rules (layout : Layout) (depth : Nat) (rules : List Rule) (h : AllLegible rules)
    (r : Reader) (hr : Blank r.pending) :
    ∃ pending, Blank pending ∧ Reads r (written layout depth rules).toList
      ⟨pending, r.body ++ strippedAll rules, r.enclosing⟩ := by
  cases rules with
  | nil =>
    refine ⟨r.pending, hr, ?_⟩
    rw [strippedAll, List.append_nil]
    rfl
  | cons rule rules =>
    rw [AllLegible] at h
    have hrule := reads_rule layout depth rule h.1 r hr
    obtain ⟨pending, hpending, hrest⟩ := reads_rules layout depth rules h.2
      ⟨layout.newline.toList, r.body ++ [rule.stripped], r.enclosing⟩ (Blank.newline layout)
    refine ⟨pending, hpending, ?_⟩
    rw [written_cons, String.toList_append, strippedAll]
    rw [List.append_assoc] at hrest
    exact hrule.trans hrest

end

/-- A sheet of legible rules is read back in either layout. -/
theorem ofText?_sheet (layout : Layout) {rules : List Rule} (h : ∀ rule ∈ rules, rule.Legible) :
    ofText? (sheet layout rules) = some (rules.map stripped) := by
  obtain ⟨pending, hpending, hreads⟩ :=
    reads_rules layout 0 rules (allLegible_iff.mpr h) ⟨[], [], []⟩ Blank.nil
  have hall : pending.all Text.isBlank = true := List.all_eq_true.mpr hpending
  rw [ofText?, sheet_eq_written, hreads, strippedAll_eq_map]
  simp [Reader.finish?, hall]

theorem ofText?_text (layout : Layout) {rule : Rule} (h : rule.Legible) :
    ofText? (rule.text layout) = some [rule.stripped] := by
  have hreads := reads_rule layout 0 rule h ⟨[], [], []⟩ Blank.nil
  rw [written_singleton, String.toList_append, Reads, List.foldlM_append] at hreads
  obtain ⟨r, htext, hend⟩ := Option.bind_eq_some_iff.mp hreads
  -- the end of the last line, which the text lacks, only adds to what is pending
  have hline := reads_plain (Blank.newline layout).isMark_eq_false r
  rw [Reads, hend] at hline
  obtain ⟨hpending, hbody, henclosing⟩ := Reader.mk.inj (Option.some.inj hline)
  rw [ofText?, htext]
  simp [Reader.finish?, ← hbody, ← henclosing, List.self_eq_append_left.mp hpending]

end HookStyle.Css.Rule
