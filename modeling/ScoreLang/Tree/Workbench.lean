import ScoreLang.Tree.SyntaxTree

/-!
# Trees under Construction

A workbench holds a tree that is built and read at the same time. One node is the one being built:
new nodes are added below it, after those that are there, and its last son can be taken away. A
reader goes through the tree in preorder, forwards and backwards; each node counts how many of its
sons have been visited.

A place is the list of steps from the root to a node. A subtree that is taken away while the reader
is inside lives on in the reader's place, as a `Step.detached`, until the reader leaves it.

After the last node the reader stands outside of the tree, and its next move is to the root again,
whose sons count as visited.
-/

namespace ScoreLang

namespace Workbench

/-- A node and the number of its sons that have been visited. -/
structure Item where
  node : Node
  /-- The number of sons visited; stepping back can make it negative. -/
  visited : Int
  deriving DecidableEq, Repr

/-- A tree whose nodes count the visits of their sons. -/
abbrev Counted := Tree Item

/-- A step from a node to one of its sons. -/
inductive Step where
  /-- To the son at an index. -/
  | son (index : Nat)
  /-- To a former son, which has been taken away. -/
  | detached (tree : Counted)
  deriving Repr

/-- A node without sons. -/
def single (node : Node) : Counted := .node ⟨node, 0⟩ []

/-- The subtree at a place. -/
def subtree? (tree : Counted) : List Step → Option Counted
  | [] => some tree
  | .son index :: steps => tree.sons[index]?.bind fun son => subtree? son steps
  | .detached former :: steps => subtree? former steps

/-- Changes the subtree at a place. A detached subtree is changed inside the place. -/
def modifyAt (change : Counted → Counted) (tree : Counted) : List Step → Counted × List Step
  | [] => (change tree, [])
  | .son index :: steps =>
    match tree.sons[index]? with
    | none => (tree, .son index :: steps)
    | some son =>
      let changed := modifyAt change son steps
      (.node tree.value (tree.sons.set index changed.1), .son index :: changed.2)
  | .detached former :: steps =>
    let changed := modifyAt change former steps
    (tree, .detached changed.1 :: changed.2)

/-- Adds to the number of sons visited. -/
def addVisits (count : Int) : Counted → Counted
  | .node item sons => .node { item with visited := item.visited + count } sons

/-- Adds a son after the others. -/
def addSon (son : Counted) : Counted → Counted
  | .node item sons => .node item (sons ++ [son])

/-- Takes the last son away. -/
def dropSon : Counted → Counted
  | .node item sons => .node item sons.dropLast

/-- The index that a count of sons denotes: from the front, or from the back if it is negative. -/
def sonIndex? (sons : Nat) (count : Int) : Option Nat :=
  if 0 ≤ count then
    if count < sons then some count.toNat else none
  else if -count ≤ sons then some (sons - (-count).toNat)
  else none

end Workbench

open Workbench in
/-- A tree that is built and read. -/
structure Workbench where
  tree : Counted
  /-- The place of the node being built, as indices of sons. -/
  building : List Nat
  /-- The place of the reader, if it is inside of the tree. -/
  reading : Option (List Step)
  deriving Repr

namespace Workbench

/-- Why a move is refused. -/
inductive Fault where
  /-- The root has nothing above it. -/
  | aboveRoot
  /-- The tree is not finished: the node being built is not the root. -/
  | unfinished
  /-- There is no son at the place asked for. -/
  | noSon
  /-- The reader is not inside of the tree. -/
  | outside
  deriving DecidableEq, Repr

/-- The wording of a fault; a fault of the bare structure has none. -/
def Fault.message? : Fault → Option String
  | .aboveRoot => some "已回溯至根节点，无法继续回溯"
  | .unfinished => some "语法树未回溯至根节点，请检查语法结构"
  | .noSon | .outside => none

/-- A workbench with a root. -/
def ofRoot (label : Label) : Workbench := ⟨single ⟨label, 1, false⟩, [], none⟩

/-- The node at a place, with its depth. -/
def shown (bench : Workbench) (steps : List Step) : Option (Nat × Item) :=
  (subtree? bench.tree steps).map fun tree => (steps.length, tree.value)

/-- The node being built, with its depth. -/
def current (bench : Workbench) : Option (Nat × Item) :=
  bench.shown (bench.building.map .son)

/-- Changes the node being built. -/
def modifyCurrent (bench : Workbench) (change : Counted → Counted) : Workbench :=
  { bench with tree := (modifyAt change bench.tree (bench.building.map .son)).1 }

/-- The number of sons of the node being built. -/
def sonCount (bench : Workbench) : Nat :=
  ((subtree? bench.tree (bench.building.map .son)).map (·.sons.length)).getD 0

/-- Adds a leaf to the node being built. -/
def addLeaf (bench : Workbench) (label : Label) (line : Nat) : Workbench :=
  bench.modifyCurrent (addSon (single ⟨label, line, true⟩))

/-- Adds a branch to the node being built, and goes on building there. -/
def addBranch (bench : Workbench) (label : Label) (line : Nat) : Workbench :=
  let index := bench.sonCount
  { bench.modifyCurrent (addSon (single ⟨label, line, false⟩)) with
    building := bench.building ++ [index] }

/-- Goes on building at the node above. -/
def back (bench : Workbench) : Except Fault Workbench :=
  if bench.building.isEmpty then .error .aboveRoot
  else .ok { bench with building := bench.building.dropLast }

/-- The place of the reader after the son at `index` of the node at `path` has been taken away; the
son is `former`. -/
def detach (former : Counted) (index : Nat) : List Nat → List Step → List Step
  | [], .son i :: steps => if i = index then .detached former :: steps else .son i :: steps
  | p :: path, .son i :: steps =>
    if p = i then .son i :: detach former index path steps else .son i :: steps
  | _, steps => steps

/-- Takes the last son of the node being built away. -/
def dropLast (bench : Workbench) : Except Fault Workbench :=
  match (subtree? bench.tree (bench.building.map .son)).bind (·.sons.getLast?) with
  | none => .error .noSon
  | some former =>
    .ok { bench.modifyCurrent dropSon with
      reading := bench.reading.map (detach former (bench.sonCount - 1) bench.building) }

/-- The outline of the finished tree. -/
def outline (bench : Workbench) : Except Fault String :=
  if bench.building.isEmpty then
    .ok (bench.tree.preorder.foldl (fun text entry => text ++ entry.2.node.outline entry.1) "")
  else .error .unfinished

/-! ### The reader -/

/-- The outcome of a move of the reader: the bench afterwards, and the node it has moved to, `none`
outside of the tree. The bench may have changed even if the move fails. -/
abbrev Move := Workbench × Except Fault (Option (Nat × Item))

/-- The bench with its reader at a place. -/
def readAt (bench : Workbench) (steps : List Step) : Move :=
  ({ bench with reading := some steps }, .ok (bench.shown steps))

/-- The bench with its reader outside of the tree. -/
def readOutside (bench : Workbench) : Move :=
  ({ bench with reading := none }, .ok none)

/-- Adds to the visits that the node at a place has counted. Returns the place with the change,
which shows there if it passes through a detached subtree. -/
def countVisits (bench : Workbench) (count : Int) (steps : List Step) : Workbench × List Step :=
  let changed := modifyAt (addVisits count) bench.tree steps
  ({ bench with tree := changed.1 }, changed.2)

/-- Moves the reader from a place to the next unvisited son there, or of the nearest node above that
has one. Each round goes up by one step, so that `fuel` may be the length of the place. -/
def nextFrom (bench : Workbench) : Nat → List Step → Move
  | fuel, steps =>
    match subtree? bench.tree steps with
    | none => (bench, .error .outside)
    | some tree =>
      if tree.value.visited < tree.sons.length then
        let (bench, steps) := bench.countVisits 1 steps
        match sonIndex? tree.sons.length tree.value.visited with
        | none => ({ bench with reading := some steps }, .error .noSon)
        | some index => bench.readAt (steps ++ [.son index])
      else
        match fuel with
        | 0 => bench.readOutside
        | fuel + 1 => nextFrom bench fuel steps.dropLast

/-- Moves the reader to the next node in preorder. -/
def next (bench : Workbench) : Move :=
  match bench.reading with
  | none => bench.readAt []
  | some steps => nextFrom bench steps.length steps

/-- Moves the reader down to the last node visited below the place it is at, undoing the visits.
Each round goes down by one step, and `fuel` bounds their number. If there is no such node, the
reader stays below the first `depth` steps of the place, at the son that it was to leave by the step
`leaving`. -/
def descend (depth : Nat) (leaving : Step) : Workbench → Nat → List Step → Move
  | bench, fuel, steps =>
    match subtree? bench.tree steps with
    | none => (bench, .error .noSon)
    | some tree =>
      if tree.value.node.leaf then bench.readAt steps
      else
        let (bench, steps) := bench.countVisits (-1) steps
        match sonIndex? tree.sons.length (tree.value.visited - 1), fuel with
        | some index, fuel + 1 => descend depth leaving bench fuel (steps ++ [.son index])
        | _, _ => ({ bench with reading := some (steps.take depth ++ [leaving]) }, .error .noSon)

/-- Moves the reader to the node before in preorder. -/
def last (bench : Workbench) : Move :=
  match bench.reading with
  | none => (bench, .error .outside)
  | some steps =>
    match steps.getLast? with
    | none => bench.readOutside
    | some leaving =>
      let above := steps.dropLast
      match subtree? bench.tree above with
      | none => (bench, .error .outside)
      | some parent =>
        let (counted, place) := bench.countVisits (-1) above
        if parent.value.visited ≤ 1 then counted.readAt place
        else
          match sonIndex? parent.sons.length (parent.value.visited - 2) with
          | none => ({ counted with reading := some (place ++ [leaving]) }, .error .noSon)
          | some index =>
            descend place.length leaving counted parent.preorder.length (place ++ [.son index])

end Workbench

end ScoreLang
