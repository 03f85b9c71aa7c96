import ScoreLang.Proofs.Syntax.Basic
import ScoreLang.Tree.Workbench

/-!
# Building on a Workbench

What the moves of a workbench add up to. `Workbench.extend` adds whole syntax trees to the node
being built, and every move by which a parser builds is an instance of it: a leaf is added at once,
and a branch is there when its sons have been added below it and the node above is built again.
Taking away the last son undoes the addition of one tree.

All of this goes on at one place, that of the node being built. `edit` changes the subtree at a
place, and the lemmas about it are what the moves are computed with.
-/

namespace ScoreLang

open List

namespace Tree

variable {α β : Type}

mutual

theorem preorderFrom_map (f : α → β) (depth : Nat) (tree : Tree α) (after : List (Nat × α)) :
    preorderFrom depth (tree.map f) (after.map fun entry => (entry.1, f entry.2))
      = (preorderFrom depth tree after).map fun entry => (entry.1, f entry.2) := by
  obtain ⟨value, sons⟩ := tree
  rw [map, preorderFrom, preorderFrom, preorderAll_mapAll f (depth + 1) sons after, map_cons]

theorem preorderAll_mapAll (f : α → β) (depth : Nat) (trees : List (Tree α))
    (after : List (Nat × α)) :
    preorderAll depth (mapAll f trees) (after.map fun entry => (entry.1, f entry.2))
      = (preorderAll depth trees after).map fun entry => (entry.1, f entry.2) := by
  match trees with
  | [] => rfl
  | tree :: trees =>
    rw [mapAll, preorderAll, preorderAll, preorderAll_mapAll f depth trees after,
      preorderFrom_map f depth tree]

end

/-- Other values stand at the same depths. -/
theorem preorder_map (f : α → β) (tree : Tree α) :
    (tree.map f).preorder = tree.preorder.map fun entry => (entry.1, f entry.2) :=
  preorderFrom_map f 0 tree []

end Tree

namespace Workbench

/-! ### Places -/

/-- The tree with the subtree at a place changed. -/
def edit (change : Counted → Counted) (tree : Counted) (place : List Nat) : Counted :=
  (modifyAt change tree (place.map .son)).1

/-- The subtree at a place that is given by indices. -/
def at? (tree : Counted) (place : List Nat) : Option Counted :=
  subtree? tree (place.map .son)

variable {tree sub : Counted} {place : List Nat} {f g : Counted → Counted}

@[simp] theorem at?_nil : at? tree [] = some tree := rfl

theorem at?_cons {index : Nat} :
    at? tree (index :: place) = tree.sons[index]?.bind fun son => at? son place := rfl

@[simp] theorem edit_nil : edit f tree [] = f tree := rfl

theorem edit_cons {index : Nat} {son : Counted} (h : tree.sons[index]? = some son) :
    edit f tree (index :: place)
      = .node tree.value (tree.sons.set index (edit f son place)) := by
  simp only [edit, map_cons, modifyAt, h]

/-- The subtree at the place of a change. -/
theorem at?_edit (h : at? tree place = some sub) : at? (edit f tree place) place = some
    (f sub) := by
  induction place generalizing tree with
  | nil =>
    obtain rfl : tree = sub := Option.some.inj h
    rfl
  | cons index place ih =>
    obtain ⟨son, hson, hsub⟩ := Option.bind_eq_some_iff.1 (at?_cons ▸ h)
    have hlength := (List.getElem?_eq_some_iff.1 hson).1
    rw [edit_cons hson, at?_cons, Tree.sons, List.getElem?_set_self hlength]
    exact ih hsub

/-- Changes at one place are made one after the other. -/
theorem edit_edit (h : at? tree place = some sub) :
    edit g (edit f tree place) place = edit (g ∘ f) tree place := by
  induction place generalizing tree with
  | nil => rfl
  | cons index place ih =>
    obtain ⟨son, hson, hsub⟩ := Option.bind_eq_some_iff.1 (at?_cons ▸ h)
    have hlength := (List.getElem?_eq_some_iff.1 hson).1
    have hset : (Tree.node tree.value (tree.sons.set index (edit f son place))).sons[index]?
        = some (edit f son place) := List.getElem?_set_self hlength
    rw [edit_cons hson, edit_cons hset, edit_cons hson, ih hsub, Tree.sons, set_set]
    rfl

/-- A change depends on the subtree at its place only. -/
theorem edit_congr (h : at? tree place = some sub) (heq : f sub = g sub) :
    edit f tree place = edit g tree place := by
  induction place generalizing tree with
  | nil =>
    obtain rfl : tree = sub := Option.some.inj h
    exact heq
  | cons index place ih =>
    obtain ⟨son, hson, hsub⟩ := Option.bind_eq_some_iff.1 (at?_cons ▸ h)
    rw [edit_cons hson, edit_cons hson, ih hsub]

theorem edit_self (h : at? tree place = some sub) (heq : f sub = sub) :
    edit f tree place = tree := by
  induction place generalizing tree with
  | nil =>
    obtain rfl : tree = sub := Option.some.inj h
    exact heq
  | cons index place ih =>
    obtain ⟨son, hson, hsub⟩ := Option.bind_eq_some_iff.1 (at?_cons ▸ h)
    obtain ⟨hlength, rfl⟩ := List.getElem?_eq_some_iff.1 hson
    rw [edit_cons hson, ih hsub, set_getElem_self]
    cases tree
    rfl

theorem at?_append {more : List Nat} (h : at? tree place = some sub) :
    at? tree (place ++ more) = at? sub more := by
  induction place generalizing tree with
  | nil =>
    obtain rfl : tree = sub := Option.some.inj h
    rfl
  | cons index place ih =>
    obtain ⟨son, hson, hsub⟩ := Option.bind_eq_some_iff.1 (at?_cons ▸ h)
    rw [cons_append, at?_cons, hson, Option.bind_some, ih hsub]

/-- A change further down is a change of the subtree. -/
theorem edit_append {more : List Nat} (h : at? tree place = some sub) :
    edit f tree (place ++ more) = edit (fun part => edit f part more) tree place := by
  induction place generalizing tree with
  | nil => rfl
  | cons index place ih =>
    obtain ⟨son, hson, hsub⟩ := Option.bind_eq_some_iff.1 (at?_cons ▸ h)
    rw [cons_append, edit_cons hson, edit_cons hson, ih hsub]

/-! ### Adding trees -/

/-- A syntax tree as it lies on a workbench, not yet read. -/
def counted (tree : SyntaxTree) : Counted :=
  tree.map fun node => ⟨node, 0⟩

@[simp] theorem counted_leaf (label : Label) (line : Nat) :
    counted (.leaf label line) = single ⟨label, line, true⟩ := by
  simp [counted, SyntaxTree.leaf, single]

@[simp] theorem counted_branch (rule : Rule) (line : Nat) (sons : List SyntaxTree) :
    counted (.branch rule line sons) = .node ⟨⟨.rule rule, line, false⟩, 0⟩ (sons.map counted) := by
  rw [counted, SyntaxTree.branch, Tree.map_node]
  rfl

/-- Adds trees after the sons. -/
def addSons (trees : List SyntaxTree) : Counted → Counted
  | .node item sons => .node item (sons ++ trees.map counted)

theorem addSons_comp_addSons (first second : List SyntaxTree) :
    addSons second ∘ addSons first = addSons (first ++ second) := by
  funext tree
  cases tree
  simp [addSons]

/-- The workbench with trees added to the node being built. -/
def extend (bench : Workbench) (trees : List SyntaxTree) : Workbench :=
  { bench with tree := edit (addSons trees) bench.tree bench.building }

/-- The tree can be built on, and is not being read. -/
structure Open (bench : Workbench) : Prop where
  isSome : (at? bench.tree bench.building).isSome = true
  reading : bench.reading = none

theorem open_ofRoot (label : Label) : (ofRoot label).Open := ⟨rfl, rfl⟩

@[simp] theorem building_extend (bench : Workbench) (trees : List SyntaxTree) :
    (bench.extend trees).building = bench.building := rfl

@[simp] theorem tree_extend (bench : Workbench) (trees : List SyntaxTree) :
    (bench.extend trees).tree = edit (addSons trees) bench.tree bench.building := rfl

namespace Open

variable {bench : Workbench} (h : bench.Open)

include h

/-- The node being built. -/
theorem exists_node : ∃ item sons, at? bench.tree bench.building = some (.node item sons) := by
  obtain ⟨⟨item, sons⟩, hsub⟩ := Option.isSome_iff_exists.1 h.isSome
  exact ⟨item, sons, hsub⟩

theorem extend (trees : List SyntaxTree) : (bench.extend trees).Open := by
  obtain ⟨item, sons, hsub⟩ := h.exists_node
  refine ⟨?_, h.reading⟩
  rw [tree_extend, building_extend, at?_edit hsub]
  rfl

theorem extend_nil : bench.extend [] = bench := by
  obtain ⟨item, sons, hsub⟩ := h.exists_node
  have hsame : edit (addSons []) bench.tree bench.building = bench.tree :=
    edit_self hsub (by simp [addSons])
  rw [Workbench.extend, hsame]

theorem extend_extend (first second : List SyntaxTree) :
    (bench.extend first).extend second = bench.extend (first ++ second) := by
  obtain ⟨item, sons, hsub⟩ := h.exists_node
  simp only [Workbench.extend, edit_edit hsub, addSons_comp_addSons]

/-- A leaf is added as a tree. -/
theorem addLeaf_extend (done : List SyntaxTree) (label : Label) (line : Nat) :
    (bench.extend done).addLeaf label line = bench.extend (done ++ [.leaf label line]) := by
  have hson : addSon (single ⟨label, line, true⟩) = addSons [.leaf label line] := by
    funext tree
    cases tree
    simp [addSon, addSons]
  rw [← h.extend_extend done]
  exact congrArg ((bench.extend done).modifyCurrent) hson

omit h in
theorem sonCount_eq {item : Item} {sons : List Counted}
    (hsub : at? bench.tree bench.building = some (.node item sons)) :
    bench.sonCount = sons.length := by
  have hsub' : subtree? bench.tree (bench.building.map .son) = some (.node item sons) := hsub
  rw [sonCount, hsub']
  rfl

/-- The new node is the one being built. -/
theorem at?_addBranch (rule : Rule) (line : Nat) :
    at? (bench.addBranch (.rule rule) line).tree (bench.addBranch (.rule rule) line).building
      = some (single ⟨.rule rule, line, false⟩) := by
  obtain ⟨item, sons, hsub⟩ := h.exists_node
  change at? (edit _ bench.tree bench.building) (bench.building ++ [bench.sonCount]) = _
  rw [at?_append (at?_edit hsub), sonCount_eq hsub]
  simp [at?_cons, addSon, Tree.sons]

/-- A new branch is open. -/
theorem addBranch (rule : Rule) (line : Nat) : (bench.addBranch (.rule rule) line).Open :=
  ⟨by rw [h.at?_addBranch rule line]; rfl, h.reading⟩

/-- The node being built below a new branch is still that of its rule. -/
theorem current_addBranch (rule : Rule) (line : Nat) (sons : List SyntaxTree) :
    (((bench.addBranch (.rule rule) line).extend sons).current.any fun entry =>
      entry.2.node.label == .rule rule) = true := by
  have hnode := at?_edit (f := addSons sons) (h.at?_addBranch rule line)
  have hsub : subtree? ((bench.addBranch (.rule rule) line).extend sons).tree
      (((bench.addBranch (.rule rule) line).extend sons).building.map .son)
      = some (addSons sons (single ⟨.rule rule, line, false⟩)) := hnode
  rw [current, shown, hsub]
  simp [addSons, single, Tree.value]

/-- A branch whose sons have been added is added as a tree. -/
theorem back_addBranch (rule : Rule) (line : Nat) (sons : List SyntaxTree) :
    ((bench.addBranch (.rule rule) line).extend sons).back
      = .ok (bench.extend [.branch rule line sons]) := by
  obtain ⟨item, former, hsub⟩ := h.exists_node
  have hplace : (bench.addBranch (.rule rule) line).building = bench.building ++
    [former.length] := by
    rw [← sonCount_eq hsub]
    rfl
  have htree : edit (addSons sons) (bench.addBranch (.rule rule) line).tree
      (bench.building ++ [former.length])
      = edit (addSons [.branch rule line sons]) bench.tree bench.building := by
    change edit (addSons sons) (edit (addSon (single _)) bench.tree bench.building) _ = _
    rw [edit_append (at?_edit hsub), edit_edit hsub]
    refine edit_congr hsub ?_
    have hlast : (Tree.node item (former ++
      [single ⟨.rule rule, line, false⟩])).sons[former.length]?
        = some (single ⟨.rule rule, line, false⟩) := by simp [Tree.sons]
    rw [Function.comp_apply, addSon, edit_cons hlast]
    simp [addSons, single, Tree.value, Tree.sons]
  have hsome : (bench.building ++ [former.length]).isEmpty = false := by simp
  simp only [back, Workbench.extend, hplace, hsome, htree, Bool.false_eq_true, if_false,
    dropLast_concat]
  rfl

/-- Taking the last son away undoes the addition of a tree. -/
theorem dropLast_extend (done : List SyntaxTree) (tree : SyntaxTree) :
    (bench.extend (done ++ [tree])).dropLast = .ok (bench.extend done) := by
  obtain ⟨item, former, hsub⟩ := h.exists_node
  have hnode : subtree? (bench.extend (done ++ [tree])).tree
      ((bench.extend (done ++ [tree])).building.map .son)
      = some (.node item (former ++ (done ++ [tree]).map counted)) := at?_edit hsub
  have hdrop : edit dropSon (edit (addSons (done ++ [tree])) bench.tree bench.building)
    bench.building
      = edit (addSons done) bench.tree bench.building := by
    rw [edit_edit hsub]
    refine edit_congr hsub ?_
    simp [addSons, dropSon, ← append_assoc]
  have hreading : (bench.extend (done ++ [tree])).reading = none := h.reading
  have hlast : (former ++ (done ++ [tree]).map counted).getLast? = some (counted tree) := by simp
  simp only [dropLast, hnode, Option.bind_some, Tree.sons, hlast, hreading, Option.map_none]
  have hback : bench.extend done = { bench with
      tree := edit dropSon (edit (addSons (done ++ [tree])) bench.tree bench.building)
        bench.building
      reading := none } := by
    rw [hdrop, ← h.reading]
    rfl
  rw [hback]
  rfl

end Open

/-! ### The outline -/

/-- The outline of a finished tree is that of the syntax tree. -/
theorem outline_counted {bench : Workbench} {tree : SyntaxTree} (hbuilding : bench.building = [])
    (htree : bench.tree = counted tree) : bench.outline = .ok tree.outline := by
  rw [outline, hbuilding, htree, counted, Tree.preorder_map, foldl_map]
  rfl

end Workbench

end ScoreLang
