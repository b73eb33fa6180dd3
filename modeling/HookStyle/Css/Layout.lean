/-!
# Layout of CSS text

All CSS text is written in one of two layouts: `compact` without any white space that could
be left out, or `pretty` with one line per rule and declaration, indented by two spaces.
-/

namespace HookStyle.Css

inductive Layout where
  | compact
  | pretty
  deriving DecidableEq, Repr

namespace Layout

/-- The layout that a debug flag asks for. -/
def ofDebug (debug : Bool) : Layout := if debug then pretty else compact

/-- The blank after a colon or a comma and before an opening brace. -/
def space : Layout → String
  | compact => ""
  | pretty => " "

def newline : Layout → String
  | compact => ""
  | pretty => "\n"

/-- The start of a line that stands `depth` blocks deep. -/
def indent (layout : Layout) : Nat → String
  | 0 => ""
  | depth + 1 => layout.space ++ layout.space ++ layout.indent depth

end Layout

end HookStyle.Css
