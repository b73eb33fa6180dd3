import HookStyle.Style.Basic

/-!
# Value trees

The value of a property may depend on hooks: a tree has settings at its leaves, and its
branches are keyed by hooks or by the word `default`. A hook inside another asks for both.

* `Keyed`: every branch has each of its keys once. `KeyedTree` holds such trees, and is
  what declarations are made of.
* `keyed_insert`: setting a key of a branch keeps this.
-/

namespace HookStyle

open Css

inductive Tree where
  | leaf (setting : Setting)
  | branch (children : List (String × Tree))

namespace Tree

/-- The key of the tree that applies while no hook of the branch does. -/
def defaultKey : String := "default"

mutual

/-- Every branch has each of its keys once. -/
def Keyed : Tree → Prop
  | leaf _ => True
  | branch children => (Entries.keys children).Nodup ∧ ChildrenKeyed children

def ChildrenKeyed : List (String × Tree) → Prop
  | [] => True
  | (_, t) :: rest => t.Keyed ∧ ChildrenKeyed rest

end

@[simp] theorem keyed_leaf (s : Setting) : (leaf s).Keyed := by simp [Keyed]

theorem keyed_branch {children : List (String × Tree)} :
    (branch children).Keyed ↔ (Entries.keys children).Nodup ∧ ChildrenKeyed children := by
  rw [Keyed]

theorem childrenKeyed_iff {children : List (String × Tree)} :
    ChildrenKeyed children ↔ ∀ e ∈ children, e.2.Keyed := by
  induction children with
  | nil => simp [ChildrenKeyed]
  | cons e children ih =>
    obtain ⟨key, t⟩ := e
    simp [ChildrenKeyed, ih]

/-- Keys are not repeated by putting a tree under a key, new or known. -/
theorem childrenKeyed_insert {key : String} {t : Tree} {children : List (String × Tree)}
    (ht : t.Keyed) (h : ChildrenKeyed children) :
    ChildrenKeyed (Entries.insert key t children) := by
  induction children with
  | nil => simp [Entries.insert, ChildrenKeyed, ht]
  | cons e children ih =>
    obtain ⟨k, u⟩ := e
    rw [ChildrenKeyed] at h
    rw [Entries.insert]
    split
    · exact ⟨ht, h.2⟩
    · exact ⟨h.1, ih h.2⟩

theorem keyed_insert {key : String} {t : Tree} {children : List (String × Tree)}
    (ht : t.Keyed) (h : (branch children).Keyed) :
    (branch (Entries.insert key t children)).Keyed := by
  rw [keyed_branch] at h ⊢
  exact ⟨Entries.nodup_insert h.1, childrenKeyed_insert ht h.2⟩

end Tree

/-! ## Keyed trees -/

/-- A tree in which every branch has each of its keys once. -/
structure KeyedTree where
  tree : Tree
  keyed : tree.Keyed

namespace KeyedTree

def leaf (s : Setting) : KeyedTree := ⟨.leaf s, Tree.keyed_leaf s⟩

def literal (v : Value) : KeyedTree := leaf (some v)

/-- The tree that clears its property. -/
def unset : KeyedTree := leaf none

def empty : KeyedTree := ⟨.branch [], by simp [Tree.keyed_branch, Tree.ChildrenKeyed]⟩

instance : Inhabited KeyedTree := ⟨empty⟩

def isBranch (t : KeyedTree) : Bool :=
  match t.tree with
  | .leaf _ => false
  | .branch _ => true

/-- Sets what applies while `hook` is active. A leaf gives way to a branch with this key
alone. -/
def on (t : KeyedTree) (hook : String) (value : KeyedTree) : KeyedTree :=
  match t with
  | ⟨.leaf _, _⟩ => ⟨.branch [(hook, value.tree)], by
      simp [Tree.keyed_branch, Tree.ChildrenKeyed, value.keyed]⟩
  | ⟨.branch children, h⟩ =>
    ⟨.branch (Entries.insert hook value.tree children), Tree.keyed_insert value.keyed h⟩

/-- Sets what applies while no hook of the branch is active. -/
def base (t value : KeyedTree) : KeyedTree := t.on Tree.defaultKey value

end KeyedTree

/-- The properties of an element with their trees, in order. -/
abbrev Declaration := OrderedMap KeyedTree

end HookStyle
