import ScoreLang.Proofs.Tree.Bench

/-!
# Reading a Tree from End to End

A reader that begins at the root and moves on again and again meets every node of a tree once, in
preorder, and then is outside. It finds its way by the visits that the nodes have counted: a node
leads to its next son as long as it has counted fewer visits than it has sons, and otherwise the
reader goes up.

The argument is about one node at a time. When a node has been reached, the next move is one from
there (`Workbench.Resumes`); when the trees below it have been read, the node is *finished*, and
again the next move is one from there. A finished node is left without a trace, so the next move is
one from the node above.

## Main results

* `Tree.preorder_eq_map_placed`: the outline of a tree goes through the places of its nodes;
* `Workbench.Unread.tour`: what the reader meets below a node;
* `Workbench.journey_built`: what the reader meets in a tree that has been built.
-/

namespace ScoreLang

open List

namespace Tree

variable {α : Type}

/-! ### Places -/

mutual

/-- The nodes of a tree with their places, in preorder; the root is at the place given. -/
def placedFrom (place : List Nat) : Tree α → List (List Nat × α)
  | .node value sons => (place, value) :: placedAll place 0 sons

/-- The nodes of sons of the node at a place, with their places, in preorder. The first of the sons
has the given index. -/
def placedAll (place : List Nat) (index : Nat) : List (Tree α) → List (List Nat × α)
  | [] => []
  | tree :: trees => placedFrom (place ++ [index]) tree ++ placedAll place (index + 1) trees

end

/-- The nodes of a tree with their places, in preorder. -/
def placed (tree : Tree α) : List (List Nat × α) := placedFrom [] tree

mutual

theorem preorderFrom_eq_placed (place : List Nat) (tree : Tree α) (after : List (Nat × α)) :
    preorderFrom place.length tree after
      = (placedFrom place tree).map (fun entry => (entry.1.length, entry.2)) ++ after := by
  obtain ⟨value, sons⟩ := tree
  rw [preorderFrom, placedFrom, preorderAll_eq_placed place 0 sons after]
  rfl

theorem preorderAll_eq_placed (place : List Nat) (index : Nat) (trees : List (Tree α))
    (after : List (Nat × α)) :
    preorderAll (place.length + 1) trees after
      = (placedAll place index trees).map (fun entry => (entry.1.length, entry.2)) ++ after := by
  match trees with
  | [] => rfl
  | tree :: trees =>
    have hfirst := preorderFrom_eq_placed (place ++ [index]) tree
    rw [length_append, length_singleton] at hfirst
    rw [preorderAll, placedAll, preorderAll_eq_placed place (index + 1) trees after, hfirst,
      map_append, append_assoc]

end

/-- The outline of a tree goes through the places of its nodes. -/
theorem preorder_eq_map_placed (tree : Tree α) :
    tree.preorder = tree.placed.map fun entry => (entry.1.length, entry.2) := by
  rw [preorder, placed, ← append_nil (List.map _ _)]
  exact preorderFrom_eq_placed [] tree []

end Tree

namespace Workbench

variable {tree : Counted} {place : List Nat} {bench : Workbench}

mutual

/-- The places are those of all subtrees. -/
theorem mem_placedFrom (place : List Nat) (tree : Counted) (entry : List Nat × Item) :
    entry ∈ tree.placedFrom place ↔
      ∃ rest sub, at? tree rest = some sub ∧ entry = (place ++ rest, sub.value) := by
  obtain ⟨value, sons⟩ := tree
  rw [Tree.placedFrom, mem_cons, mem_placedAll place 0 sons entry]
  constructor
  · rintro (rfl | ⟨j, son, rest, sub, hson, hsub, rfl⟩)
    · exact ⟨[], _, rfl, by rw [append_nil]; rfl⟩
    · refine ⟨j :: rest, sub, ?_, by rw [Nat.zero_add]⟩
      rw [at?_cons, Tree.sons, hson]
      exact hsub
  · rintro ⟨_ | ⟨j, rest⟩, sub, hsub, rfl⟩
    · obtain rfl := Option.some.inj hsub
      exact .inl (by rw [append_nil]; rfl)
    · obtain ⟨son, hson, hsub⟩ := Option.bind_eq_some_iff.1 (at?_cons ▸ hsub)
      exact .inr ⟨j, son, rest, sub, hson, hsub, by rw [Nat.zero_add]⟩

theorem mem_placedAll (place : List Nat) (index : Nat) (trees : List Counted)
    (entry : List Nat × Item) :
    entry ∈ Tree.placedAll place index trees ↔ ∃ j tree rest sub, trees[j]? = some tree ∧
      at? tree rest = some sub ∧ entry = (place ++ (index + j) :: rest, sub.value) := by
  match trees with
  | [] => simp [Tree.placedAll]
  | tree :: trees =>
    rw [Tree.placedAll, mem_append, mem_placedFrom (place ++ [index]) tree entry,
      mem_placedAll place (index + 1) trees entry]
    constructor
    · rintro (⟨rest, sub, hsub, rfl⟩ | ⟨j, other, rest, sub, hother, hsub, rfl⟩)
      · exact ⟨0, tree, rest, sub, rfl, hsub, by simp⟩
      · exact ⟨j + 1, other, rest, sub, hother, hsub, by rw [Nat.add_right_comm, Nat.add_assoc]⟩
    · rintro ⟨_ | j, other, rest, sub, hother, hsub, rfl⟩
      · obtain rfl := Option.some.inj hother
        exact .inl ⟨rest, sub, hsub, by simp⟩
      · exact .inr ⟨j, other, rest, sub, hother, hsub, by rw [Nat.add_right_comm, Nat.add_assoc]⟩

end

mutual

theorem nodup_placedFrom (place : List Nat) (tree : Counted) :
    ((tree.placedFrom place).map (·.1)).Nodup := by
  obtain ⟨value, sons⟩ := tree
  rw [Tree.placedFrom, map_cons, nodup_cons]
  refine ⟨fun hmem => ?_, nodup_placedAll place 0 sons⟩
  obtain ⟨_, hentry, hplace⟩ := mem_map.1 hmem
  obtain ⟨j, _, rest, _, -, -, rfl⟩ := (mem_placedAll place 0 sons _).1 hentry
  simp at hplace

theorem nodup_placedAll (place : List Nat) (index : Nat) (trees : List Counted) :
    ((Tree.placedAll place index trees).map (·.1)).Nodup := by
  match trees with
  | [] => exact nodup_nil
  | tree :: trees =>
    rw [Tree.placedAll, map_append, nodup_append]
    refine ⟨nodup_placedFrom _ tree, nodup_placedAll place (index + 1) trees, ?_⟩
    intro p hp q hq
    obtain ⟨_, hfirst, rfl⟩ := mem_map.1 hp
    obtain ⟨_, hother, rfl⟩ := mem_map.1 hq
    obtain ⟨rest, _, -, rfl⟩ := (mem_placedFrom _ tree _).1 hfirst
    obtain ⟨j, _, rest', _, -, -, rfl⟩ := (mem_placedAll place (index + 1) trees _).1 hother
    simp only [append_assoc, singleton_append, ne_eq, append_cancel_left_eq,
      List.cons.injEq, not_and]
    omega

end

/-! ### Trees that have not been read -/

/-- No node of a tree has counted a visit. -/
inductive Unread : Counted → Prop where
  /-- The root has not, and the trees below it have not. -/
  | node {node : Node} {sons : List Counted} :
      (∀ son ∈ sons, Unread son) → Unread (.node ⟨node, 0⟩ sons)

theorem unread_single (node : Node) : Unread (single node) := .node (by simp)

theorem Unread.addSon {son : Counted} (h : Unread tree) (hson : Unread son) :
    Unread (addSon son tree) := by
  obtain ⟨hsons⟩ := h
  refine .node fun other hmem => ?_
  rcases mem_append.1 hmem with hold | hnew
  · exact hsons other hold
  · exact mem_singleton.1 hnew ▸ hson

theorem Unread.dropSon (h : Unread tree) : Unread (dropSon tree) := by
  obtain @⟨node, sons, hsons⟩ := h
  exact .node fun son hmem => hsons son ((dropLast_sublist sons).subset hmem)

theorem Unread.edit {change : Counted → Counted} (h : Unread tree)
    (hchange : ∀ {sub}, Unread sub → Unread (change sub)) : Unread (edit change tree place) := by
  induction place generalizing tree with
  | nil => exact hchange h
  | cons index place ih =>
    obtain @⟨node, sons, hsons⟩ := h
    cases hson : sons[index]? with
    | none =>
      have hsame : Workbench.edit change (.node ⟨node, 0⟩ sons) (index :: place)
          = .node ⟨node, 0⟩ sons := by
        simp only [Workbench.edit, map_cons, modifyAt, Tree.sons, hson]
      rw [hsame]
      exact .node hsons
    | some son =>
      rw [edit_cons (show (Tree.node _ sons).sons[index]? = some son from hson)]
      refine .node fun other hmem => ?_
      rcases mem_or_eq_of_mem_set hmem with hold | rfl
      · exact hsons other hold
      · exact ih (hsons son (mem_of_getElem? hson))

/-- A tree that has been built by the moves of a workbench. -/
inductive Built : Workbench → Prop where
  | root (label : Label) : Built (.ofRoot label)
  | branch {bench : Workbench} (label : Label) (line : Nat) :
      Built bench → Built (bench.addBranch label line)
  | leaf {bench : Workbench} (label : Label) (line : Nat) :
      Built bench → Built (bench.addLeaf label line)
  | back {bench bench' : Workbench} : Built bench → bench.back = .ok bench' → Built bench'
  | drop {bench bench' : Workbench} : Built bench → bench.dropLast = .ok bench' → Built bench'

theorem Built.unread (h : bench.Built) : Unread bench.tree ∧ bench.reading = none := by
  induction h with
  | root label => exact ⟨unread_single _, rfl⟩
  | branch label line _ ih => exact ⟨ih.1.edit fun h => h.addSon (unread_single _), ih.2⟩
  | leaf label line _ ih => exact ⟨ih.1.edit fun h => h.addSon (unread_single _), ih.2⟩
  | back _ hback ih =>
    rw [Workbench.back] at hback
    split at hback
    · cases hback
    · obtain rfl := Except.ok.inj hback
      exact ih
  | drop _ hdrop ih =>
    rw [Workbench.dropLast] at hdrop
    split at hdrop
    · cases hdrop
    · obtain rfl := Except.ok.inj hdrop
      exact ⟨ih.1.edit Unread.dropSon, by rw [ih.2]; rfl⟩

/-! ### Moves -/

/-- The next move of the reader is one from the node at a place. -/
def Resumes (bench : Workbench) (place : List Nat) : Prop :=
  bench.next = bench.nextFrom place.length (place.map .son)

/-- All sons of the root have been visited. -/
def Finished (tree : Counted) : Prop := tree.value.visited = tree.sons.length

/-- The bench with its reader at the next son of the node at a place. -/
def toSon (bench : Workbench) (place : List Nat) (index : Nat) : Workbench :=
  { bench with
    tree := edit (addVisits 1) bench.tree place
    reading := some ((place ++ [index]).map .son) }

theorem modifyAt_son {change : Counted → Counted} :
    modifyAt change tree (place.map .son) = (edit change tree place, place.map .son) := by
  refine Prod.ext rfl ?_
  induction place generalizing tree with
  | nil => rfl
  | cons index place ih =>
    rw [map_cons, modifyAt]
    split
    · rfl
    · exact congrArg (Step.son index :: ·) ih

/-- From a node with a son that has not been visited the reader moves there. -/
theorem nextFrom_down {fuel : Nat} {node : Node} {done rest : List Counted} {son : Counted}
    (h : at? bench.tree place = some (.node ⟨node, done.length⟩ (done ++ son :: rest))) :
    bench.nextFrom fuel (place.map .son)
      = (bench.toSon place done.length, .ok (some (place.length + 1, son.value))) := by
  have hsub : subtree? bench.tree (place.map .son)
      = some (.node ⟨node, done.length⟩ (done ++ son :: rest)) := h
  have hlt : (done.length : Int) < (done ++ son :: rest).length := by
    rw [length_append, length_cons]
    omega
  have hindex : sonIndex? (done ++ son :: rest).length done.length = some done.length := by
    rw [sonIndex?, if_pos (Int.natCast_nonneg _), if_pos hlt, Int.toNat_natCast]
  have hson : at? (edit (addVisits 1) bench.tree place) (place ++ [done.length]) = some son := by
    rw [at?_append (at?_edit h)]
    simp [at?_cons, addVisits, Tree.sons]
  have hshown : (bench.toSon place done.length).shown ((place ++ [done.length]).map .son)
      = some (place.length + 1, son.value) := by
    rw [shown]
    change Option.map _ (at? (edit (addVisits 1) bench.tree place) (place ++ [done.length])) = _
    rw [hson]
    simp
  rw [nextFrom.eq_def]
  simp only [hsub, Tree.value, Tree.sons, hlt, if_true, countVisits, modifyAt_son, hindex]
  rw [← map_singleton, ← map_append]
  exact congrArg (Prod.mk (bench.toSon place done.length)) (congrArg Except.ok hshown)

/-- A finished node is left to the node above. -/
theorem nextFrom_up {index : Nat} (h : at? bench.tree (place ++ [index]) = some tree)
    (hfinished : Finished tree) :
    bench.nextFrom (place ++ [index]).length ((place ++ [index]).map .son)
      = bench.nextFrom place.length (place.map .son) := by
  have hsub : subtree? bench.tree ((place ++ [index]).map .son) = some tree := h
  have hlt : ¬tree.value.visited < tree.sons.length := by
    rw [hfinished]
    omega
  rw [length_append, length_singleton, nextFrom, hsub]
  simp only [hlt, if_false]
  rw [map_append, map_singleton, dropLast_concat]

/-- How the reader goes up from a place by a number of rounds, and makes a move there. A round that
does not go up is a move without any fuel. -/
inductive Climbs (bench : Workbench) : List Step → Nat → Move → Prop where
  /-- The move is made here: there is a son to be visited, or nothing above. -/
  | here {steps : List Step} : (steps = [] ∨ ∀ tree, subtree? bench.tree steps = some tree →
      tree.value.visited < tree.sons.length) → Climbs bench steps 0 (bench.nextFrom 0 steps)
  /-- All sons have been visited, and there is a node above. -/
  | up {steps : List Step} {tree : Counted} {rounds : Nat} {move : Move} :
      subtree? bench.tree steps = some tree → ¬tree.value.visited < tree.sons.length →
      steps ≠ [] → Climbs bench steps.dropLast rounds move → Climbs bench steps (rounds + 1) move

/-- The reader goes up by no more rounds than it is deep in the tree. -/
theorem climbs_nextFrom (bench : Workbench) (steps : List Step) :
    ∃ rounds ≤ steps.length, Climbs bench steps rounds (bench.nextFrom steps.length steps) := by
  induction hlength : steps.length generalizing steps with
  | zero => exact ⟨0, Nat.le_refl 0, .here (.inl (length_eq_zero_iff.1 hlength))⟩
  | succ depth ih =>
    by_cases hhere : ∀ tree, subtree? bench.tree steps = some tree →
        tree.value.visited < tree.sons.length
    · refine ⟨0, Nat.zero_le _, ?_⟩
      have hmove : bench.nextFrom (depth + 1) steps = bench.nextFrom 0 steps := by
        rw [nextFrom, nextFrom]
        cases hsub : subtree? bench.tree steps with
        | none => rfl
        | some tree => simp only [hhere tree hsub, if_true]
      rw [hmove]
      exact .here (.inr hhere)
    · simp only [not_forall] at hhere
      obtain ⟨tree, hsub, hvisited⟩ := hhere
      obtain ⟨rounds, hrounds, hclimbs⟩ := ih steps.dropLast (by simp [hlength])
      refine ⟨rounds + 1, by omega, ?_⟩
      have hmove : bench.nextFrom (depth + 1) steps = bench.nextFrom depth steps.dropLast := by
        rw [nextFrom, hsub]
        simp only [hvisited, if_false]
      rw [hmove]
      exact .up hsub hvisited (ne_nil_of_length_eq_add_one hlength) hclimbs

/-! ### Tours -/

/-- By its next moves the reader meets some nodes, at their places. -/
inductive Tour : Workbench → List (List Nat × Item) → Workbench → Prop where
  | nil (bench : Workbench) : Tour bench [] bench
  | cons {bench bench' last : Workbench} {entry : List Nat × Item}
      {entries : List (List Nat × Item)} :
      bench.next = (bench', .ok (some (entry.1.length, entry.2))) →
      bench'.reading = some (entry.1.map .son) → Tour bench' entries last →
      Tour bench (entry :: entries) last

theorem Tour.append {bench' last : Workbench} {first second : List (List Nat × Item)}
    (h : Tour bench first bench') (h' : Tour bench' second last) :
    Tour bench (first ++ second) last := by
  induction h with
  | nil => exact h'
  | cons hnext hreading _ ih => exact .cons hnext hreading (ih h')

/-- Below a node at a place the reader meets the nodes of a tree, and then moves on from there. The
tree is changed by that, but nothing else. -/
def ReadsThrough (tree : Counted) : Prop :=
  ∀ {bench : Workbench} {place : List Nat}, at? bench.tree place = some tree →
    bench.Resumes place → ∃ last tree', Tour bench (Tree.placedAll place 0 tree.sons) last ∧
      last.Resumes place ∧ Finished tree' ∧ last.tree = edit (fun _ => tree') bench.tree place

/-- The sons of a node are read one after the other; those in `done` have been read before. -/
theorem tour_sons {sons : List Counted} (done : List Counted) {node : Node}
    (hsons : ∀ son ∈ sons, ReadsThrough son)
    (h : at? bench.tree place = some (.node ⟨node, done.length⟩ (done ++ sons)))
    (hresumes : bench.Resumes place) :
    ∃ last tree', Tour bench (Tree.placedAll place done.length sons) last ∧ last.Resumes place ∧
      Finished tree' ∧ last.tree = edit (fun _ => tree') bench.tree place := by
  induction sons generalizing bench done with
  | nil =>
    refine ⟨bench, _, .nil bench, hresumes, ?_, (edit_self h rfl).symm⟩
    rw [append_nil]
    rfl
  | cons son sons ih =>
    -- the move to the son, and what is there
    have hnext : bench.next = (bench.toSon place done.length,
        .ok (some ((place ++ [done.length]).length, son.value))) := by
      rw [hresumes, nextFrom_down h, length_append, length_singleton]
    have hson : at? (bench.toSon place done.length).tree (place ++ [done.length]) = some son := by
      rw [toSon, at?_append (at?_edit h)]
      simp [at?_cons, addVisits, Tree.sons]
    have hfirst : (bench.toSon place done.length).Resumes (place ++ [done.length]) := by
      rw [Resumes, next, toSon]
      simp only [length_map]
    obtain ⟨bench', son', htour, hresumes', hfinished, htree⟩ :=
      hsons son mem_cons_self hson hfirst
    -- the son is finished, and the reader is back at the node
    have hback : bench'.Resumes place := by
      rw [Resumes, hresumes', nextFrom_up (by rw [htree]; exact at?_edit hson) hfinished]
    have hedit : bench'.tree
        = edit (fun _ => .node ⟨node, done.length + 1⟩ (done ++ son' :: sons)) bench.tree
        place := by
      rw [htree, toSon, edit_append (at?_edit h), edit_edit h]
      refine edit_congr h ?_
      have hget : (Tree.node (Item.mk node (done.length + 1)) (done ++ son ::
        sons)).sons[done.length]?
          = some son := by simp [Tree.sons]
      rw [Function.comp_apply, addVisits, edit_cons hget]
      simp [Tree.value, Tree.sons]
    have hat : at? bench'.tree place
        = some (.node ⟨node, (done ++ [son']).length⟩ ((done ++ [son']) ++ sons)) := by
      rw [hedit, at?_edit h]
      simp
    obtain ⟨last, tree', htour', hlast, hfinished', htree'⟩ :=
      ih (done ++ [son']) (fun other hmem => hsons other (mem_cons_of_mem _ hmem)) hat hback
    refine ⟨last, tree', ?_, hlast, hfinished', ?_⟩
    · rw [length_append, length_singleton] at htour'
      obtain ⟨value, below⟩ := son
      rw [Tree.placedAll, Tree.placedFrom]
      exact (Tour.cons hnext rfl htour).append htour'
    · rw [htree', hedit, edit_edit h]
      rfl

/-- **What the reader meets below a node**: the nodes of all trees there, in preorder. -/
theorem Unread.tour (h : Unread tree) : ReadsThrough tree := by
  induction h with
  | node _ ih =>
    intro bench place hat hresumes
    exact tour_sons [] ih hat hresumes

/-! ### From end to end -/

/-- What the reader meets in a number of moves: the place where it is, and the node it is shown. -/
def journey : Nat → Workbench → List (Option (List Step) × Except Fault (Option (Nat × Item)))
  | 0, _ => []
  | count + 1, bench => (bench.next.1.reading, bench.next.2) :: journey count bench.next.1

theorem Tour.journey_eq {last : Workbench} {entries : List (List Nat × Item)}
    (h : Tour bench entries last) (count : Nat) :
    bench.journey (entries.length + count)
      = entries.map (fun entry =>
          (some (entry.1.map .son), .ok (some (entry.1.length, entry.2)))) ++ last.journey
            count := by
  induction h with
  | nil => simp
  | cons hnext hreading _ ih =>
    rw [length_cons, Nat.add_right_comm, journey, hnext, ih, hreading]
    rfl

/-- **A tree is read from end to end.** On a tree that has been built, the reader is moved on until
it is outside. It has then met, in the order of the outline, every node of the tree once: `placed`
has one entry for each place where there is a node. And whatever a bench is like, a move goes up by
no more rounds than the reader is deep in the tree. -/
theorem journey_built (h : bench.Built) :
    bench.journey (bench.tree.placed.length + 1)
        = bench.tree.placed.map (fun entry =>
            (some (entry.1.map .son), .ok (some (entry.1.length, entry.2)))) ++ [(none, .ok none)] ∧
      bench.tree.preorder = bench.tree.placed.map (fun entry => (entry.1.length, entry.2)) ∧
      (bench.tree.placed.map (·.1)).Nodup ∧
      (∀ place, place ∈ bench.tree.placed.map (·.1) ↔ (at? bench.tree place).isSome) ∧
      ∀ (other : Workbench) (steps : List Step), other.reading = some steps →
        ∃ rounds ≤ steps.length, Climbs other steps rounds other.next := by
  obtain ⟨hunread, houtside⟩ := h.unread
  refine ⟨?_, bench.tree.preorder_eq_map_placed, nodup_placedFrom [] bench.tree, ?_, ?_⟩
  · -- the root first, then the trees below it, then the way out
    have hroot : bench.next = ({ bench with reading := some [] },
      .ok (some (0, bench.tree.value))) := by
      rw [next, houtside]
      rfl
    have hresumes : Resumes { bench with reading := some [] } [] := rfl
    obtain ⟨last, tree', htour, hlast, hfinished, htree⟩ := hunread.tour rfl hresumes
    have hnext : last.next = last.readOutside := by
      have hsub : subtree? last.tree [] = some tree' := congrArg some htree
      rw [hlast, map_nil, length_nil, nextFrom, hsub]
      simp only [show ¬tree'.value.visited < tree'.sons.length by rw [hfinished]; omega, if_false]
    have hplaced : bench.tree.placed
        = ([], bench.tree.value) :: Tree.placedAll [] 0 bench.tree.sons := by
      cases bench.tree
      rfl
    have hall : Tour bench bench.tree.placed last := by
      rw [hplaced]
      exact .cons hroot rfl htour
    rw [hall.journey_eq 1, journey, hnext]
    rfl
  · intro place
    rw [mem_map, Option.isSome_iff_exists]
    constructor
    · rintro ⟨_, hentry, rfl⟩
      obtain ⟨rest, sub, hsub, rfl⟩ := (mem_placedFrom [] bench.tree _).1 hentry
      exact ⟨sub, hsub⟩
    · rintro ⟨sub, hsub⟩
      exact ⟨_, (mem_placedFrom [] bench.tree _).2 ⟨place, sub, hsub, rfl⟩, rfl⟩
  · intro other steps hreading
    have hmove : other.next = other.nextFrom steps.length steps := by rw [next, hreading]
    rw [hmove]
    exact climbs_nextFrom other steps

/-- A root, a branch with a leaf, and a second branch that was added and taken away again. -/
theorem journey_built_sapling : ∃ bench : Workbench, bench.Built ∧ bench.journey 4 =
    [(some [], .ok (some (0, ⟨⟨.rule .program, 1, false⟩, 0⟩))),
      (some [.son 0], .ok (some (1, ⟨⟨.rule .main, 2, false⟩, 0⟩))),
      (some [.son 0, .son 0], .ok (some (2, ⟨⟨.word "main", 3, true⟩, 0⟩))),
      (none, .ok none)] := by
  have hbranch : Built ((Workbench.ofRoot (.rule .program)).addBranch (.rule .main) 2) :=
    .branch _ _ (.root _)
  have hback := Built.back (.leaf (.word "main") 3 hbranch) rfl
  have hdropped := Built.drop (.back (.branch (.rule .body) 4 hback) rfl) rfl
  exact ⟨_, hdropped, (journey_built hdropped).1⟩

end Workbench

end ScoreLang
