import HookStyle.Css.Rule

/-!
# The text of rules, by their structure

A rule is written as lines. Joined, they are a text that has the text of the rule's body
inside it, at one more depth.

* `written_declaration`, `written_block`: the text of a declaration and of a block.
* `sheet_eq_written`: a sheet is the text of its rules one after the other, at depth zero.
* `written_singleton`: the text of one rule by itself lacks the end of its last line.
-/

namespace HookStyle.Css

/-- The text of a declaration `depth` blocks deep, up to the end of its line. -/
def declarationText (layout : Layout) (depth : Nat) (name value : String) : String :=
  layout.indent depth ++ name ++ ":" ++ layout.space ++ value ++ ";" ++ layout.newline

/-- The text of a block `depth` blocks deep around the text of its body. -/
def blockText (layout : Layout) (depth : Nat) (prelude body : String) : String :=
  layout.indent depth ++ prelude ++ layout.space ++ "\x7b" ++ layout.newline ++ body
    ++ layout.indent depth ++ "\x7d" ++ layout.newline

namespace Rule

/-- The text of rules that stand `depth` blocks deep, with an end after every line. -/
def written (layout : Layout) (depth : Nat) (rules : List Rule) : String :=
  String.join ((bodyLines layout depth rules).map (· ++ layout.newline))

theorem sheet_eq_written (layout : Layout) (rules : List Rule) :
    sheet layout rules = written layout 0 rules := rfl

theorem lines_ne_nil (layout : Layout) (depth : Nat) (rule : Rule) :
    rule.lines layout depth ≠ [] := by
  cases rule <;> simp [lines]

/-- Lines with a stop behind each are the lines with stops between them, and one more at the
end. -/
theorem join_map_append {lines : List String} (h : lines ≠ []) (stop : String) :
    String.join (lines.map (· ++ stop)) = stop.intercalate lines ++ stop := by
  induction lines with
  | nil => exact absurd rfl h
  | cons line lines ih =>
    rw [List.map_cons, String.join_cons]
    cases lines with
    | nil => simp
    | cons next lines =>
      rw [ih (List.cons_ne_nil _ _), String.intercalate_cons_cons]
      simp [String.append_assoc]

theorem written_singleton (layout : Layout) (rule : Rule) :
    written layout 0 [rule] = rule.text layout ++ layout.newline := by
  rw [written, bodyLines, bodyLines, List.append_nil, join_map_append (lines_ne_nil _ _ _), text]

/-- Rules are written one behind the other. -/
theorem written_append (layout : Layout) (depth : Nat) (rules rest : List Rule) :
    written layout depth (rules ++ rest)
      = written layout depth rules ++ written layout depth rest := by
  rw [written, bodyLines_append, List.map_append, String.join_append]
  rfl

theorem written_cons (layout : Layout) (depth : Nat) (rule : Rule) (rules : List Rule) :
    written layout depth (rule :: rules)
      = written layout depth [rule] ++ written layout depth rules :=
  written_append layout depth [rule] rules

theorem written_declaration (layout : Layout) (depth : Nat) (name value : String) :
    written layout depth [declaration name value] = declarationText layout depth name value := by
  simp [written, bodyLines, lines, String.join_cons, declarationText]

/-- A block is its prelude and the rules inside, one step further in. -/
theorem written_block (layout : Layout) (depth : Nat) (prelude : String) (body : List Rule) :
    written layout depth [block prelude body]
      = blockText layout depth prelude (written layout (depth + 1) body) := by
  simp [written, bodyLines, lines, String.join_cons, String.join_append, blockText,
    String.append_assoc]

theorem written_flatMap {α : Type} (layout : Layout) (depth : Nat) (f : α → List Rule)
    (xs : List α) : written layout depth (xs.flatMap f)
      = String.join (xs.map fun x => written layout depth (f x)) := by
  induction xs with
  | nil => rfl
  | cons x xs ih =>
    rw [List.flatMap_cons, written_append, ih, List.map_cons, String.join_cons]

theorem written_map {α : Type} (layout : Layout) (depth : Nat) (f : α → Rule) (xs : List α) :
    written layout depth (xs.map f) = String.join (xs.map fun x => written layout depth [f x]) := by
  rw [← written_flatMap, List.map_eq_flatMap]

end Rule

end HookStyle.Css
