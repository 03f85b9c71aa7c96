/-!
# Trees

A tree is a root with a list of trees below it. `Tree.preorder` lists the roots of all subtrees,
each before those below it and from left to right, together with its depth.
-/

namespace ScoreLang

/-- A tree whose nodes carry values of type `α`. -/
inductive Tree (α : Type) where
  /-- A node and the trees below it. -/
  | node (value : α) (sons : List (Tree α))
  deriving Repr

namespace Tree

variable {α : Type}

/-- The value of the root. -/
def value : Tree α → α
  | .node value _ => value

/-- The trees below the root. -/
def sons : Tree α → List (Tree α)
  | .node _ sons => sons

mutual

/-- The values of a tree with their depths, in preorder, in front of `after`; the root has the given
depth. -/
def preorderFrom (depth : Nat) : Tree α → List (Nat × α) → List (Nat × α)
  | .node value sons, after => (depth, value) :: preorderAll (depth + 1) sons after

/-- The values of a list of trees with their depths, in preorder, in front of `after`. -/
def preorderAll (depth : Nat) : List (Tree α) → List (Nat × α) → List (Nat × α)
  | [], after => after
  | tree :: trees, after => preorderFrom depth tree (preorderAll depth trees after)

end

/-- The values of a tree with their depths, in preorder. -/
def preorder (tree : Tree α) : List (Nat × α) :=
  preorderFrom 0 tree []

/-- The values of a tree in preorder. -/
def listing (tree : Tree α) : List α :=
  tree.preorder.map (·.2)

end Tree

end ScoreLang
