import HookStyle.Proofs.Tree.Paths
import Mathlib.Algebra.Ring.Nat

/-!
# Walking a tree

A tree can be flattened without a recursion. The places still to visit lie on a stack, each with
the hooks above it. A visit takes the top one: a branch puts its children on the stack in the
order of their keys, so the last child is visited next, and a leaf is written down. When the
stack is empty, the overrides are in the reverse of the order of the visits.

* `weight_lt_of_step`: every visit leaves fewer nodes to visit.
* `reading_step`: a visit does not change what the walk comes to.
* `run_eq`: what a walk comes to is what it has found, with the recursive reading of the places
  on its stack in front.
* `KeyedTree.reading_of_walk`: the walk of a tree gives its layers, which say what the tree says.
-/

namespace HookStyle

namespace Tree

mutual

/-- The number of leaves and branches of a tree. -/
def nodes : Tree → Nat
  | leaf _ => 1
  | branch children => nodesAll children + 1

def nodesAll : List (String × Tree) → Nat
  | [] => 0
  | (_, t) :: rest => t.nodes + nodesAll rest

end

end Tree

/-- A walk between two visits. -/
structure Walk where
  /-- The places to visit with the hooks above them, the outermost hook first. -/
  stack : List (List String × Tree)
  base : Option Setting
  /-- The overrides in the order of the visits. -/
  found : List Override

namespace Walk

def start (t : Tree) : Walk := ⟨[([], t)], none, []⟩

/-- A child of a branch that stands under the given hooks, with the hooks above the child. -/
def below (hooks : List String) (e : String × Tree) : List String × Tree :=
  (if e.1 = Tree.defaultKey then hooks else hooks ++ [e.1], e.2)

/-- Writes a leaf down. -/
def visitLeaf (hooks : List String) (s : Setting) (w : Walk) : Walk :=
  if hooks.isEmpty then { w with base := some s }
  else { w with found := w.found ++ [⟨hooks, s⟩] }

/-- Puts the children of a branch on the stack, one after the other. -/
def visitBranch (hooks : List String) (children : List (String × Tree)) (w : Walk) : Walk :=
  { w with stack := children.foldl (fun stack e => below hooks e :: stack) w.stack }

/-- One visit, when there is a place left. -/
def step (w : Walk) : Option Walk :=
  match w.stack with
  | [] => none
  | (hooks, .leaf s) :: rest => some (visitLeaf hooks s { w with stack := rest })
  | (hooks, .branch children) :: rest =>
    some (visitBranch hooks children { w with stack := rest })

theorem step_eq_none {w : Walk} : w.step = none ↔ w.stack = [] := by
  rw [step]
  split <;> simp [*]

@[simp] theorem stack_visitLeaf (hooks : List String) (s : Setting) (w : Walk) :
    (visitLeaf hooks s w).stack = w.stack := by
  unfold visitLeaf
  split <;> rfl

theorem stack_visitBranch (hooks : List String) (children : List (String × Tree)) (w : Walk) :
    (visitBranch hooks children w).stack = (children.map (below hooks)).reverse ++ w.stack := by
  rw [visitBranch, List.foldl_flip_cons_eq_append]

/-! ## Termination -/

/-- The number of nodes left to visit. -/
def weight (w : Walk) : Nat := (w.stack.map fun p => p.2.nodes).sum

theorem nodesAll_eq (children : List (String × Tree)) :
    Tree.nodesAll children = (children.map fun e => e.2.nodes).sum := by
  induction children with
  | nil => rfl
  | cons e children ih => rw [Tree.nodesAll, ih, List.map_cons, List.sum_cons]

/-- Every step leaves fewer nodes to visit, so the walk ends. -/
theorem weight_lt_of_step {w w' : Walk} (h : w.step = some w') : w'.weight < w.weight := by
  rw [step] at h
  split at h
  next => cases h
  next hooks s rest hstack =>
    cases h
    simp [weight, hstack, Tree.nodes]
  next hooks children rest hstack =>
    cases h
    have hchildren : ((children.map (below hooks)).reverse.map fun p => p.2.nodes).sum =
        Tree.nodesAll children := by
      rw [List.map_reverse, List.sum_reverse, List.map_map, nodesAll_eq]
      rfl
    rw [weight, stack_visitBranch, List.map_append, List.sum_append, hchildren, weight, hstack,
      List.map_cons, List.sum_cons, Tree.nodes]
    dsimp only
    omega

/-- The layers that a walk has found so far. -/
def layers (w : Walk) : Layers := ⟨w.base, w.found.reverse⟩

/-- Visits places until none is left. -/
def run (w : Walk) : Layers :=
  match hstep : w.step with
  | none => w.layers
  | some w' =>
    have : w'.weight < w.weight := weight_lt_of_step hstep
    w'.run
termination_by w.weight

/-! ## The invariant -/

/-- What a walk comes to: the places on its stack are read by the recursion, the top one first,
each in front of what is there. -/
def reading (w : Walk) : Layers :=
  w.stack.foldl (fun layers p => p.2.gather p.1.reverse layers) w.layers

theorem layers_visitLeaf (hooks : List String) (s : Setting) (w : Walk) :
    (visitLeaf hooks s w).layers = w.layers.add hooks s := by
  cases hooks with
  | nil => rfl
  | cons hook hooks => simp [visitLeaf, layers, Layers.add]

/-- The recursion reads the children of a branch from the last to the first. -/
theorem gatherAll_eq_foldr (hooks : List String) (layers : Layers)
    (children : List (String × Tree)) :
    Tree.gatherAll hooks.reverse layers children =
      (children.map (below hooks)).foldr (fun p layers => p.2.gather p.1.reverse layers)
        layers := by
  induction children with
  | nil => rfl
  | cons e children ih =>
    obtain ⟨key, t⟩ := e
    have hbelow : (below hooks (key, t)).1.reverse =
        if key = Tree.defaultKey then hooks.reverse else key :: hooks.reverse := by
      unfold below
      split <;> simp
    rw [Tree.gatherAll, ih, List.map_cons, List.foldr_cons, hbelow]
    rfl

/-- A step changes what is gathered and what is on the stack, but not what they come to. -/
theorem reading_step {w w' : Walk} (h : w.step = some w') : w'.reading = w.reading := by
  rw [step] at h
  split at h
  next => cases h
  next hooks s rest hstack =>
    cases h
    rw [reading, stack_visitLeaf, layers_visitLeaf, reading, hstack, List.foldl_cons, Tree.gather,
      List.reverse_reverse]
    rfl
  next hooks children rest hstack =>
    cases h
    rw [reading, stack_visitBranch, List.foldl_append, List.foldl_reverse, ← gatherAll_eq_foldr,
      reading, hstack, List.foldl_cons, Tree.gather]
    rfl

theorem run_eq (w : Walk) : w.run = w.reading := by
  fun_induction run w with
  | case1 w h => rw [reading, step_eq_none.mp h, List.foldl_nil]
  | case2 w w' h _ ih => rw [ih, reading_step h]

theorem run_start (t : Tree) : (start t).run = t.layers := run_eq (start t)

end Walk

/-- Walking a tree in which every branch has each of its keys once gives the layers of the tree,
and these say what the tree says. -/
theorem KeyedTree.reading_of_walk (t : KeyedTree) :
    (Walk.start t.tree).run = t.tree.layers ∧
      t.tree.Reading t.tree.leaves (Walk.start t.tree).run := by
  rw [Walk.run_start]
  exact ⟨rfl, Tree.reading_layers t.keyed⟩

end HookStyle
