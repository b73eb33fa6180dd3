import HookStyle.Style.Basic

/-!
# Merging styles

Styles are merged in order, nested lists from the left to the right. A later style sets its
properties anew and moves them to the end, so that a property stands where it was last
written.

* `merge_flatten`: only the order of the styles counts, not how they are nested.
-/

namespace HookStyle

open Css

inductive StyleTree where
  | style (s : Style)
  | list (items : List StyleTree)
  | nothing

/-- The flat style of an element: a property stands where it was last written. -/
abbrev InlineStyle := Style

namespace StyleTree

mutual

/-- The styles from the left to the right. -/
def flatten : StyleTree → List Style
  | style s => [s]
  | list items => flattenAll items
  | nothing => []

def flattenAll : List StyleTree → List Style
  | [] => []
  | item :: rest => item.flatten ++ flattenAll rest

end

/-- A style that may be missing. -/
def ofOption : Option Style → StyleTree
  | some s => style s
  | none => nothing

end StyleTree

namespace InlineStyle

/-- Writes one property: it gets the setting and the last place. -/
def write (inline : InlineStyle) (e : String × Setting) : InlineStyle := inline.setLast e.1 e.2

/-- Writes all properties of a style, in order. -/
def apply (inline : InlineStyle) (s : Style) : InlineStyle := s.entries.foldl write inline

mutual

def applyTree (inline : InlineStyle) : StyleTree → InlineStyle
  | .style s => inline.apply s
  | .list items => inline.applyAll items
  | .nothing => inline

def applyAll (inline : InlineStyle) : List StyleTree → InlineStyle
  | [] => inline
  | item :: rest => (inline.applyTree item).applyAll rest

end

/-- The inline style of several items, the later written over the earlier. -/
def merge (items : List StyleTree) : InlineStyle := applyAll .empty items

/-- The declarations of the properties that have a value, as CSS text. -/
def declarations (inline : InlineStyle) : List (String × String) :=
  inline.entries.filterMap fun e => e.2.map fun v => (Property.hyphenate e.1, v.render e.1)

def css (inline : InlineStyle) : String :=
  String.join (inline.declarations.map fun d => d.1 ++ ":" ++ d.2 ++ ";")

mutual

/-- Nesting has no part in merging. -/
theorem applyTree_flatten (inline : InlineStyle) (t : StyleTree) :
    inline.applyTree t = t.flatten.foldl apply inline := by
  cases t with
  | style s => simp [applyTree, StyleTree.flatten]
  | list items => rw [applyTree, StyleTree.flatten, applyAll_flatten]
  | nothing => simp [applyTree, StyleTree.flatten]

theorem applyAll_flatten (inline : InlineStyle) (items : List StyleTree) :
    inline.applyAll items = (StyleTree.flattenAll items).foldl apply inline := by
  cases items with
  | nil => simp [applyAll, StyleTree.flattenAll]
  | cons item rest =>
    rw [applyAll, StyleTree.flattenAll, List.foldl_append, ← applyTree_flatten,
      applyAll_flatten]

end

theorem merge_flatten (items : List StyleTree) :
    merge items = (StyleTree.flattenAll items).foldl apply .empty :=
  applyAll_flatten .empty items

end InlineStyle

end HookStyle
