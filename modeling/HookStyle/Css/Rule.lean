import HookStyle.Css.Layout

/-!
# Rules

A rule is a declaration or a block of rules behind a prelude: a selector, an at-rule or a
keyframe offset. Its text is a list of lines, which the layout indents and ends.
-/

namespace HookStyle.Css

inductive Rule where
  | declaration (name value : String)
  | block (prelude : String) (body : List Rule)
  deriving Repr

namespace Rule

mutual

/-- The lines of a rule that stands `depth` blocks deep. -/
def lines (layout : Layout) (depth : Nat) : Rule → List String
  | declaration name value =>
    [layout.indent depth ++ name ++ ":" ++ layout.space ++ value ++ ";"]
  | block prelude body =>
    (layout.indent depth ++ prelude ++ layout.space ++ "\x7b")
      :: (bodyLines layout (depth + 1) body ++ [layout.indent depth ++ "\x7d"])

def bodyLines (layout : Layout) (depth : Nat) : List Rule → List String
  | [] => []
  | rule :: rest => rule.lines layout depth ++ bodyLines layout depth rest

end

/-- The rule as text, with line ends only between its lines. -/
def text (layout : Layout) (rule : Rule) : String :=
  layout.newline.intercalate (rule.lines layout 0)

/-- A sheet of rules, with an end after every line. -/
def sheet (layout : Layout) (rules : List Rule) : String :=
  String.join ((bodyLines layout 0 rules).map (· ++ layout.newline))

/-- What is written for two runs of rules, one behind the other, is written one behind the
other. -/
theorem bodyLines_append (layout : Layout) (depth : Nat) (rules rest : List Rule) :
    bodyLines layout depth (rules ++ rest)
      = bodyLines layout depth rules ++ bodyLines layout depth rest := by
  induction rules with
  | nil => rfl
  | cons rule rules ih => simp [bodyLines, ih]

theorem sheet_append (layout : Layout) (rules rest : List Rule) :
    sheet layout (rules ++ rest) = sheet layout rules ++ sheet layout rest := by
  apply String.toList_injective
  simp [sheet, bodyLines_append, String.toList_join]

end Rule

end HookStyle.Css
