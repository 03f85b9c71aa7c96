import ScoreLang.Proofs.Code.Context
import ScoreLang.Proofs.Parse.Scope

/-!
# The Parser Sees to What a Phrase Needs

A phrase needs the names that it uses, and a jump needs a loop or a switch around it. `Tree.needs`
reads off a tree what it needs, without asking what it is the tree of; so it can be followed through
the parser, which asks for a name when it reads it and for a loop when it reads a jump.

A variable at the beginning of an expression is read twice (`State.Rewound`). The name was asked for
when it was read for the first time, in the scopes that hold at that place; the word after the
variable may have changed the scopes before the second time.
-/

namespace ScoreLang

open List

/-! ### Needs -/

/-- What a phrase may need around it. -/
inductive Need where
  /-- The declaration of a name. -/
  | name (name : String)
  /-- A loop or a switch, for a jump. -/
  | loop
  deriving DecidableEq

/-- What a node needs by itself. -/
def Label.ownNeeds : Label → List (Tree Label) → List Need
  | .rule .variable, .node (.name used) _ :: _ => [.name used]
  | .rule .call, _ :: .node (.name used) _ :: _ => [.name used]
  | .rule .jump, _ :: _ => [.loop]
  | _, _ => []

namespace Tree

mutual

/-- What a tree needs around it. Loops and switches see to their jumps. -/
def needs : Tree Label → List Need
  | .node label sons =>
    label.ownNeeds sons ++ (needsAll sons).filter fun need => !(label.isLoop && need = .loop)

/-- What some trees need around them. -/
def needsAll : List (Tree Label) → List Need
  | [] => []
  | tree :: trees => tree.needs ++ needsAll trees

end

@[simp] theorem needsAll_nil : needsAll [] = [] := by rw [needsAll]

@[simp] theorem needsAll_cons (tree : Tree Label) (trees : List (Tree Label)) :
    needsAll (tree :: trees) = tree.needs ++ needsAll trees := by rw [needsAll]

@[simp] theorem needsAll_append (first second : List (Tree Label)) :
    needsAll (first ++ second) = needsAll first ++ needsAll second := by
  induction first with
  | nil => simp
  | cons tree trees ih => simp [ih]

/-- A leaf needs nothing. -/
@[simp] theorem needs_leaf (label : Label) : needs (.node label []) = [] := by
  have hown : label.ownNeeds [] = [] := by
    cases label with
    | rule rule => cases rule <;> rfl
    | name | number | word => rfl
  rw [needs, hown, needsAll_nil]
  rfl

end Tree

@[simp] theorem needs_word (text : String) : (word text).needs = [] := Tree.needs_leaf _

@[simp] theorem needs_nameLeaf (name : String) : (nameLeaf name).needs = [] := Tree.needs_leaf _

@[simp] theorem Numeral.needs_leaf (number : Numeral) : number.leaf.needs = [] := Tree.needs_leaf _

/-- The rules whose phrases need what their parts need. -/
def Rule.isPlain : Rule → Bool
  | .variable | .call | .jump | .whileStatement | .doWhile | .forStatement | .switchStatement
      => false
  | _ => true

/-- A plain phrase needs what its parts need. -/
theorem needs_phrase {rule : Rule} (h : rule.isPlain = true) (sons : List (Tree Label)) :
    (phrase rule sons).needs = Tree.needsAll sons := by
  have hown : (Label.rule rule).ownNeeds sons = [] := by cases rule <;> first | rfl | cases h
  have hloop : (Label.rule rule).isLoop = false := by cases rule <;> first | rfl | cases h
  rw [phrase, Tree.needs, hown, hloop]
  simp

/-- A phrase with a loop or a switch. -/
theorem needs_loop {rule : Rule} (h : (Label.rule rule).isLoop = true) (sons : List (Tree Label)) :
    (phrase rule sons).needs = (Tree.needsAll sons).filter (· ≠ .loop) := by
  have hown : (Label.rule rule).ownNeeds sons = [] := by cases rule <;> first | rfl | cases h
  rw [phrase, Tree.needs, hown, h]
  simp

/-- A variable needs its name. -/
theorem needs_variable (name : String) (rest : List (Tree Label)) :
    (phrase .variable (nameLeaf name :: rest)).needs = .name name :: Tree.needsAll rest := by
  rw [phrase, Tree.needs, Tree.needsAll_cons, needs_nameLeaf]
  simp [Label.ownNeeds, nameLeaf, Label.isLoop]

/-- A call needs the name of the function. -/
theorem needs_call {keyword : Tree Label} (h : keyword.needs = []) (name : String)
    (rest : List (Tree Label)) :
    (phrase .call (keyword :: nameLeaf name :: rest)).needs = .name name :: Tree.needsAll rest := by
  rw [phrase, Tree.needs, Tree.needsAll_cons, Tree.needsAll_cons, h, needs_nameLeaf]
  simp [Label.ownNeeds, nameLeaf, Label.isLoop]

/-- A jump needs a loop. -/
theorem needs_jump (son : Tree Label) (rest : List (Tree Label)) :
    (phrase .jump (son :: rest)).needs = .loop :: Tree.needsAll (son :: rest) := by
  rw [phrase, Tree.needs]
  simp [Label.ownNeeds, Label.isLoop]

/-- The tree of a variable needs its name, with an index or without. -/
@[simp] theorem Reference.needs_tree (target : Reference) :
    target.tree.needs = [.name target.name] := by
  rw [Reference.tree, needs_variable]
  cases target.index <;> simp

/-- An expression needs the names that it uses. -/
theorem Expr.needsAll_sons : {level : Level} → (e : Expr level) →
    Tree.needsAll e.sons = e.uses.map fun use => .name use.name
  | _, .number _ => by simp [sons, uses]
  | _, .variable target => by simp [sons, uses, Use.name]
  | _, .plainCall name => by simp [sons, uses, Use.name, needs_call]
  | _, .call name given => by
      simp (disch := decide) [sons, uses, Use.name, needs_call (needs_word _), needs_phrase,
        given.needsAll_sons]
  | _, .group only | _, .factor only | _, .product only | _, .sum only | _, .logical only
  | _, .argument only => by
      simp (disch := decide) [sons, uses, needs_phrase, only.needsAll_sons]
  | _, .times left _ right | _, .plus left _ right | _, .compare left _ right
  | _, .further left right => by
      simp (disch := decide) [sons, uses, needs_phrase, left.needsAll_sons, right.needsAll_sons]
  | _, .assign target value => by
      simp (disch := decide) [sons, uses, Use.name, needs_phrase, value.needsAll_sons]

/-- An expression needs the names that it uses. -/
theorem Expr.needs_tree {level : Level} (e : Expr level) :
    e.tree.needs = e.uses.map fun use => .name use.name := by
  have hplain : level.rule.isPlain = true := by cases level <;> rfl
  rw [tree, needs_phrase hplain, e.needsAll_sons]

namespace Stmt

/-- A statement needs the names that it uses. -/
theorem name_mem_needsAll {name : String} {part : Part} (s : Stmt part) :
    .name name ∈ Tree.needsAll s.sons ↔ ∃ use ∈ s.uses, use.name = name := by
  induction s with
  | empty | done | noClause | expression | write | «return» | compound | «default» =>
    simp (disch := decide) [sons, uses, needs_phrase, Expr.needs_tree, *]
  | read => simp (disch := decide) [sons, uses, needs_phrase, Use.name, eq_comm]
  | jump => simp [sons, uses, needs_jump]
  | ifThen | ifElse | next | clause | «while» | doWhile | «for» | switch =>
    simp (disch := decide) [sons, uses, clauseTree, needs_phrase, needs_loop, Expr.needs_tree,
      or_and_right, exists_or, *]

/-- If a statement needs no loop around it, then its jumps have one. -/
theorem guarded_inside {part : Part} (s : Stmt part) (h : .loop ∉ Tree.needsAll s.sons) :
    guarded false s.inside = true := by
  induction s with
  | empty | done | noClause => rfl
  | expression | write | «return» => simp [guarded, Label.isLoop]
  | read keyword target =>
    simp [guarded, Label.isLoop, guarded_calm_append target.all_isCalm_labels]
  | jump => simp [sons, needs_jump] at h
  | «while» | doWhile | «for» | switch => simp [guarded, Label.isLoop]
  | compound body ih | «default» keyword body ih | ifThen keyword test body ih =>
    have hbody := ih (by simpa (disch := decide) [sons, needs_phrase, Expr.needs_tree] using h)
    simp [guarded, Label.isLoop, guarded_append _ body.inside, hbody]
  | ifElse keyword test body otherwise ihbody ihother =>
    simp (disch := decide) [sons, needs_phrase, Expr.needs_tree] at h
    have hother := guarded_of_guarded_false (ihother h.2)
    simp [guarded, Label.isLoop, guarded_append _ body.inside, ihbody h.1, hother]
  | next first rest ihfirst ihrest | clause keyword number first rest ihfirst ihrest =>
    simp (disch := decide) [sons, clauseTree, needs_phrase] at h
    have hrest := guarded_of_guarded_false (ihrest h.2)
    simp [guarded, Label.isLoop, guarded_append, ihfirst h.1, hrest]

end Stmt

/-- What is needed is there: a name is declared in the scopes, and jumps are allowed. -/
def Need.Met (scopes : Scopes) (jumps : Bool) : Need → Prop
  | .name used => (scopes.find? used).isSome = true
  | .loop => jumps = true

namespace Parse

variable {scopes : Scopes} {jumps : Bool} {s s' : State} {tree : SyntaxTree}

/-- What a tree needs is there. -/
def Supplied (scopes : Scopes) (jumps : Bool) (tree : SyntaxTree) : Prop :=
  ∀ need ∈ tree.shape.needs, need.Met scopes jumps

/-- What needs nothing is supplied. -/
theorem Supplied.bare (h : tree.shape.needs = []) : Supplied scopes jumps tree := by
  simp [Supplied, h]

variable {kind : Kind} {trees : List SyntaxTree} {line : Nat} {rule : Rule}

/-- Some trees need what one of them needs. -/
theorem mem_needsAll_map_shape {need : Need} :
    need ∈ Tree.needsAll (trees.map SyntaxTree.shape) ↔ ∃ tree ∈ trees,
    need ∈ tree.shape.needs := by
  induction trees with
  | nil => simp
  | cons tree trees ih => simp [ih]

/-- A plain rule is supplied if its sons are. -/
theorem Supplied.branch (hplain : rule.isPlain = true)
    (h : ∀ tree ∈ trees, Supplied scopes jumps tree) :
    Supplied scopes jumps (.branch rule line trees) := by
  intro need hneed
  rw [SyntaxTree.shape_branch, needs_phrase hplain] at hneed
  obtain ⟨tree, htree, hneed⟩ := mem_needsAll_map_shape.1 hneed
  exact h tree htree need hneed

/-- A loop or a switch sees to its jumps. -/
theorem Supplied.loop (hloop : (Label.rule rule).isLoop = true)
    (h : ∀ tree ∈ trees, Supplied scopes true tree) :
    Supplied scopes jumps (.branch rule line trees) := by
  intro need hneed
  rw [SyntaxTree.shape_branch, needs_loop hloop, mem_filter] at hneed
  obtain ⟨tree, htree, hmem⟩ := mem_needsAll_map_shape.1 hneed.1
  have hmet := h tree htree need hmem
  cases need with
  | name => exact hmet
  | loop => simp at hneed

/-- A call needs the name of its function. -/
theorem Supplied.call {name : String} {line' : Nat} {keyword : SyntaxTree} {rest : List SyntaxTree}
    (hkeyword : keyword.shape.needs = []) (hname : (scopes.find? name).isSome = true)
    (hrest : ∀ tree ∈ rest, Supplied scopes jumps tree) :
    Supplied scopes jumps (.branch .call line (keyword :: .leaf (.name name) line' :: rest)) := by
  have hneeds : (SyntaxTree.branch .call line (keyword :: .leaf (.name name) line' ::
      rest)).shape.needs = .name name :: Tree.needsAll (rest.map SyntaxTree.shape) := by
    rw [SyntaxTree.shape_branch, map_cons, map_cons, SyntaxTree.shape_leaf]
    exact needs_call hkeyword name _
  intro need hneed
  rw [hneeds, mem_cons, mem_needsAll_map_shape] at hneed
  rcases hneed with rfl | ⟨tree, htree, hneed⟩
  · exact hname
  · exact hrest tree htree need hneed

/-- It does no harm that jumps are allowed. -/
theorem Supplied.allow (h : Supplied scopes false tree) : Supplied scopes jumps tree := by
  intro need hneed
  have hmet := h need hneed
  cases need with
  | name => exact hmet
  | loop => cases hmet

/-- There is nothing in an empty scope. -/
theorem Supplied.of_empty {id : Nat} (h : Supplied (.empty id false 0 :: scopes) jumps tree) :
    Supplied scopes jumps tree := by
  intro need hneed
  have hmet := h need hneed
  cases need with
  | name => exact hmet
  | loop => exact hmet

/-! ### Leaves -/

/-- The leaf of a reserved word needs nothing. -/
theorem needs_kindLeaf (h : Reads (kindLeaf kind) s tree s') :
    tree.shape.needs = [] ∧ s = s' := by
  obtain ⟨hshape, rfl⟩ := reads_kindLeaf h
  exact ⟨hshape ▸ needs_word _, rfl⟩

/-- The leaf of a word as it is spelled needs nothing. -/
theorem needs_spelledLeaf (h : Reads spelledLeaf s tree s') : tree.shape.needs = [] ∧ s = s' := by
  obtain ⟨⟨label, hlabel⟩, rfl⟩ := reads_spelledLeaf h
  exact ⟨hlabel ▸ Tree.needs_leaf label, rfl⟩

/-- The leaf of an expected word needs nothing. -/
theorem needs_expectLeaf {cause : GrammarCause} (h : Reads (expectLeaf kind cause rule) s tree s') :
    tree.shape.needs = [] ∧ s.At kind ∧ s = s' := by
  obtain ⟨hshape, -⟩ := reads_expectLeaf h
  exact ⟨hshape ▸ needs_word _, reads_expectLeaf_at h⟩

/-- The leaf of the next word needs nothing. -/
theorem needs_nextLeaf {cause : GrammarCause} (h : Reads (nextLeaf kind cause rule) s tree s') :
    tree.shape.needs = [] ∧ Reads readWord s () s' ∧ s'.At kind := by
  have hword := reads_nextLeaf_word h
  simp only [nextLeaf, reads_bind] at h
  obtain ⟨_, _, -, hleaf⟩ := h
  exact ⟨(needs_expectLeaf hleaf).1, hword⟩

/-- The leaf of the next number needs nothing. -/
theorem needs_nextNumber {result : String × SyntaxTree} (h : Reads (nextNumber rule) s result s') :
    result.2.shape.needs = [] ∧ Reads readWord s () s' ∧ s'.At .number := by
  have hword := reads_nextNumber_word h
  simp only [nextNumber, reads_bind, reads_leaf, reads_pure] at h
  obtain ⟨_, _, -, token, _, -, _, _, ⟨rfl, -⟩, rfl, -⟩ := h
  exact ⟨by simp, hword⟩

/-! ### Repetition -/

/-- A repetition, every round of which keeps the scopes and reads trees that are supplied. -/
theorem supplied_many {continues : Parse Bool} {round : Parse (List SyntaxTree)} {limit : Nat}
    (hlook : ∀ {found : Bool} {s t : State}, Reads continues s found t → s = t)
    (hround : ∀ {s s' : State} {trees : List SyntaxTree}, s.Steady scopes →
      Reads continues s true s → Reads round s trees s' →
      s'.Steady scopes ∧ ∀ tree ∈ trees, Supplied scopes jumps tree) (hs : s.Steady scopes)
    (h : Reads (many continues round limit) s trees s') :
    s'.Steady scopes ∧ ∀ tree ∈ trees, Supplied scopes jumps tree := by
  refine (reads_many (fun done state =>
    state.Steady scopes ∧ ∀ tree ∈ done, Supplied scopes jumps tree) (fun _ => True) ?_ ?_ []
    ⟨hs, by simp⟩ h).1
  · rintro done s t ⟨hs, hdone⟩ hfound trees u hu
    obtain rfl := hlook hfound
    obtain ⟨hu, htrees⟩ := hround hs hfound hu
    exact ⟨hu, forall_mem_append.2 ⟨hdone, htrees⟩⟩
  · rintro done s t hs hfound
    exact ⟨hlook hfound ▸ hs, trivial⟩

/-- An action keeps the scopes, and what the tree that it reads needs is there. -/
def Serves (jumps : Bool) (action : Parse SyntaxTree) : Prop :=
  ∀ ⦃scopes : Scopes⦄ ⦃s s' : State⦄ ⦃tree : SyntaxTree⦄, s.Steady scopes → Reads action s tree s' →
    s'.Steady scopes ∧ Supplied scopes jumps tree

/-- An action that serves leaves the scopes in order. -/
theorem Serves.calm {action : Parse SyntaxTree} (h : Serves jumps action) : Calm action :=
  fun _ _ _ _ hs hread => (h hs hread).1

/-- A list with commas between its elements. -/
theorem Serves.separated {element : Parse SyntaxTree} (helement : Serves jumps element)
    {limit : Nat} (hs : s.Steady scopes) (h : Reads (separated limit element) s trees s') :
    s'.Steady scopes ∧ ∀ tree ∈ trees, Supplied scopes jumps tree := by
  simp only [Parse.separated, reads_bind, reads_pure] at h
  obtain ⟨first, t, hfirst, rest, _, hrest, rfl, rfl⟩ := h
  obtain ⟨ht, hfirst⟩ := helement hs hfirst
  refine (supplied_many (fun h => (reads_at?.1 h).2) ?_ ht hrest).imp_right
    fun hrest => forall_mem_cons.2 ⟨hfirst, hrest⟩
  intro s s' trees hs hfound hround
  simp only [reads_bind, reads_pure] at hround
  obtain ⟨comma, _, hcomma, _, t, hread, tree, _, htree, rfl, rfl⟩ := hround
  obtain ⟨hleaf, rfl⟩ := needs_kindLeaf hcomma
  have hat : s.At .comma := State.at_of_any (reads_at?.1 hfound).1.symm
  obtain ⟨hs', htree⟩ := helement (hs.readWord hat rfl hread) htree
  exact ⟨hs', by simp [Supplied.bare hleaf, htree]⟩

/-! ### Expressions -/

/-- A name that passes the check is known. -/
theorem reads_checkDeclared_isSome {name place : String} {u : Unit}
    (h : Reads (checkDeclared name place) s u s') : (s.scopes.find? name).isSome = true := by
  simp only [checkDeclared, reads_bind, reads_openScopes] at h
  obtain ⟨_, _, ⟨-, rfl, rfl⟩, h⟩ := h
  split at h
  · simp at h
  · rename_i hnone
    cases hfind : s.scopes.find? name with
    | none => simp [hfind] at hnone
    | some entry => rfl

/-- The spelling of the current word. -/
def State.spelling (state : State) : String := (state.word.map (·.spelling)).getD ""

/-- A variable needs its name, which the parser looks up in the present scopes. -/
theorem reads_reference_needs {result : SyntaxTree × Option String}
    (h : Reads reference s result s') :
    result.1.shape.needs = [.name s.spelling] ∧ (s.scopes.find? s.spelling).isSome = true := by
  simp only [reference, reads_bind, reads_get, reads_spelling, reads_leaf, reads_at?] at h
  obtain ⟨_, _, ⟨rfl, rfl⟩, _, _, ⟨rfl, rfl⟩, _, _, ⟨rfl, rfl⟩, _, _, hcheck, _, t, hread, _, _,
    ⟨rfl, rfl⟩, h⟩ := h
  have hdeclared := reads_checkDeclared_isSome hcheck
  refine ⟨?_, hdeclared⟩
  split at h
  · simp only [reads_bind, reads_pure] at h
    obtain ⟨opening, _, hopening, number, u, hnumber, closing, v, hclosing, _, w, hafter, rfl,
      rfl⟩ := h
    rw [SyntaxTree.shape_branch, map_cons, SyntaxTree.shape_leaf]
    refine (needs_variable _ _).trans ?_
    simp [(needs_kindLeaf hopening).1, (needs_nextNumber hnumber).1, (needs_nextLeaf hclosing).1,
      State.spelling]
  · rw [reads_pure] at h
    obtain ⟨rfl, rfl⟩ := h
    rw [SyntaxTree.shape_branch, map_cons, SyntaxTree.shape_leaf]
    exact needs_variable _ _

/-- The state is steady, or a variable was taken back whose name is declared. -/
def State.Recalls (scopes : Scopes) (state : State) : Prop :=
  state.Steady scopes ∨ ∃ index last, state.Rewound scopes index last ∧
    (scopes.find? state.spelling).isSome = true

/-- A state that recalls its scopes is ready. -/
theorem State.Recalls.ready (h : s.Recalls scopes) : s.Ready scopes :=
  h.imp_right fun ⟨index, last, hs, _⟩ => ⟨index, last, hs⟩

/-- An action that may begin with a variable that was taken back. -/
def Provides (action : Parse SyntaxTree) : Prop :=
  ∀ ⦃scopes : Scopes⦄ ⦃s s' : State⦄ ⦃tree : SyntaxTree⦄, s.Recalls scopes →
    Reads action s tree s' → Supplied scopes false tree

/-- The name of a variable is supplied. -/
theorem Supplied.reference {result : SyntaxTree × Option String} (hs : s.Recalls scopes)
    (hat : s.At .name) (h : Reads reference s result s') : Supplied scopes jumps result.1 := by
  obtain ⟨hneeds, hdeclared⟩ := reads_reference_needs h
  simp only [Supplied, hneeds, mem_singleton, forall_eq, Need.Met]
  rcases hs with hs | ⟨_, _, -, hs⟩
  · rwa [hs.scopes_eq hat rfl] at hdeclared
  · exact hs

section

variable {expression : Parse SyntaxTree} (hexpression : Serves false expression) (limit : Nat)

include hexpression

/-- A call is supplied: its name has been checked, and its arguments are expressions. -/
theorem supplied_call (hs : s.Steady scopes) (hat : s.At .kwCall)
    (h : Reads (call expression limit) s tree s') : Supplied scopes false tree := by
  simp only [call, nextName, reads_branch, reads_bind, reads_at?, reads_pure, reads_expect,
    reads_leaf] at h
  obtain ⟨trees, ⟨keyword, _, hkeyword, _, _, ⟨_, t, hname, token, _, ⟨hword, hkind, rfl⟩, _, _,
    ⟨rfl, rfl⟩, rfl, rfl⟩, _, _, hcheck, opening, u, hopening, _, v, hread, _, _, ⟨rfl, rfl⟩, h⟩,
    rfl⟩ := h
  obtain ⟨hbare, rfl⟩ := needs_kindLeaf hkeyword
  have ht := hs.readWord hat rfl hname
  have hdeclared := reads_checkDeclared_isSome hcheck
  rw [ht.scopes_eq ⟨token, hword, hkind⟩ rfl] at hdeclared
  obtain rfl := reads_checkDeclared hcheck
  obtain ⟨hleft, hopening, hu⟩ := needs_nextLeaf hopening
  have hv := (ht.readWord ⟨token, hword, hkind⟩ rfl hopening).readWord hu rfl hread
  split at h
  · simp only [reads_bind, reads_pure] at h
    obtain ⟨_, _, ⟨rfl, rfl⟩, closing, _, hclosing, _, _, hafter, rfl, rfl⟩ := h
    exact .call hbare hdeclared
      (by simp [Supplied.bare hleft, Supplied.bare (needs_kindLeaf hclosing).1])
  · simp only [reads_bind, reads_expect, reads_pure, arguments, reads_branch] at h
    obtain ⟨_, w, ⟨given, hgiven, rfl⟩, _, _, -, _, _, ⟨rfl, rfl⟩, closing, _, hclosing, _, _,
      -, rfl, rfl⟩ := h
    have hgiven : Supplied scopes false (.branch .arguments v.line given) :=
      .branch rfl (hexpression.separated hv hgiven).2
    exact .call hbare hdeclared
      (by simp [Supplied.bare hleft, hgiven, Supplied.bare (needs_kindLeaf hclosing).1])

/-- An operand is supplied, whatever its form. -/
theorem provides_factor : Provides (factor expression limit) := by
  intro scopes s s' tree hs h
  simp only [factor, reads_branch, reads_bind, reads_at?] at h
  obtain ⟨_, ⟨_, _, ⟨rfl, rfl⟩, h⟩, rfl⟩ := h
  refine .branch rfl ?_
  split at h
  · rename_i hparen
    have hat := State.at_of_any hparen
    simp only [reads_bind, reads_pure] at h
    obtain ⟨opening, _, hopening, _, t, hread, inner, u, hinner, closing, _, hclosing, _, _, hafter,
      rfl, rfl⟩ := h
    obtain ⟨hleft, rfl⟩ := needs_kindLeaf hopening
    obtain ⟨hright, -, rfl⟩ := needs_expectLeaf hclosing
    have ht := (hs.ready.steady hat (by decide)).readWord hat rfl hread
    simp [Supplied.bare hleft, (hexpression ht hinner).2, Supplied.bare hright]
  simp only [reads_bind, reads_at?] at h
  obtain ⟨_, _, ⟨rfl, rfl⟩, h⟩ := h
  split at h
  · rename_i hcall
    have hat := State.at_of_any hcall
    simp only [reads_bind, reads_pure] at h
    obtain ⟨tree, _, hread, rfl, rfl⟩ := h
    simp [supplied_call hexpression limit (hs.ready.steady hat (by decide)) hat hread]
  simp only [reads_bind, reads_at?] at h
  obtain ⟨_, _, ⟨rfl, rfl⟩, h⟩ := h
  split at h
  · rename_i hname
    simp only [reads_bind, reads_pure] at h
    obtain ⟨result, _, hread, rfl, rfl⟩ := h
    simp [Supplied.reference hs (State.at_of_any hname) hread]
  · simp only [reads_bind, reads_expect, reads_leaf, reads_pure] at h
    obtain ⟨token, _, -, _, _, ⟨rfl, rfl⟩, _, _, -, rfl, rfl⟩ := h
    simp [Supplied]

omit hexpression in
/-- Operands with signs between them: the first operand may have been taken back. -/
theorem Provides.chain {operand : Parse SyntaxTree} (hoperand : Provides operand)
    (hresumes : Resumes operand) {round : Parse (List SyntaxTree)} {kinds : List Kind}
    (hkinds : ∀ kind ∈ kinds, kind.isBrace = false)
    (hround : ∀ {s s' : State} {trees : List SyntaxTree}, Reads round s trees s' →
      ∃ sign t tree, trees = [sign, tree] ∧ sign.shape.needs = [] ∧ Reads readWord s () t ∧
        Reads operand t tree s') {trees : List SyntaxTree} (hs : s.Recalls scopes)
    (h : Reads (do
      let first ← operand
      let rest ← many (atAny? kinds) round limit
      return first :: rest) s trees s') : ∀ tree ∈ trees, Supplied scopes false tree := by
  simp only [reads_bind, reads_pure] at h
  obtain ⟨first, t, hfirst, rest, _, hrest, rfl, rfl⟩ := h
  have ht := hresumes hs.ready hfirst
  refine forall_mem_cons.2 ⟨hoperand hs hfirst, ?_⟩
  refine (supplied_many (fun h => (reads_atAny?.1 h).2) ?_ ht hrest).2
  intro s s' trees hs hfound h
  obtain ⟨sign, t, tree, rfl, hsign, hread, htree⟩ := hround h
  obtain ⟨kind, hmem, hat⟩ := State.at_of_contains (reads_atAny?.1 hfound).1.symm
  have ht := hs.readWord hat (hkinds kind hmem) hread
  exact ⟨hresumes.calm ht htree, by simp [Supplied.bare hsign, hoperand (.inl ht) htree]⟩

/-- So is a product. -/
theorem provides_product : Provides (product expression limit) := by
  intro scopes s s' tree hs h
  rw [product, reads_branch] at h
  obtain ⟨trees, h, rfl⟩ := h
  refine .branch rfl ((provides_factor hexpression limit).chain limit
    (resumes_factor hexpression.calm limit) (by decide) ?_ hs h)
  intro s s' trees hround
  simp only [reads_bind, reads_at?] at hround
  obtain ⟨_, _, ⟨rfl, rfl⟩, hround⟩ := hround
  split at hround <;>
  · simp only [reads_bind, reads_pure] at hround
    obtain ⟨sign, _, hsign, _, t, hread, tree, _, htree, rfl, rfl⟩ := hround
    obtain ⟨hbare, rfl⟩ := needs_kindLeaf hsign
    exact ⟨sign, t, tree, rfl, hbare, hread, htree⟩

/-- So is a sum. -/
theorem provides_sum : Provides (sum expression limit) := by
  intro scopes s s' tree hs h
  rw [sum, reads_branch] at h
  obtain ⟨trees, h, rfl⟩ := h
  refine .branch rfl ((provides_product hexpression limit).chain limit
    (resumes_product hexpression.calm limit) (by decide) ?_ hs h)
  intro s s' trees hround
  simp only [reads_bind, reads_pure] at hround
  obtain ⟨sign, _, hsign, _, t, hread, tree, _, htree, rfl, rfl⟩ := hround
  obtain ⟨hbare, rfl⟩ := needs_spelledLeaf hsign
  exact ⟨sign, t, tree, rfl, hbare, hread, htree⟩

/-- So is a comparison. -/
theorem provides_logical : Provides (logical expression limit) := by
  have hsum := provides_sum hexpression limit
  intro scopes s s' tree hs h
  simp only [logical, reads_branch, reads_bind, reads_get] at h
  obtain ⟨_, ⟨left, t, hleft, _, _, ⟨rfl, rfl⟩, h⟩, rfl⟩ := h
  have ht := resumes_sum hexpression.calm limit hs.ready hleft
  refine .branch rfl ?_
  split at h
  · simp at h
  · rename_i token hword
    split at h
    · rename_i hlogic
      simp only [reads_bind, reads_pure] at h
      obtain ⟨sign, _, hsign, _, u, hread, right, _, hright, rfl, rfl⟩ := h
      obtain ⟨hbare, rfl⟩ := needs_spelledLeaf hsign
      have hbrace : token.kind.isBrace = false := by
        cases hkind : token.kind <;> simp_all [Kind.isLogic, Kind.isBrace]
      have hu := ht.readWord ⟨token, hword, rfl⟩ hbrace hread
      simp [hsum hs hleft, Supplied.bare hbare, hsum (.inl hu) hright]
    · obtain ⟨rfl, rfl⟩ := reads_pure.1 h
      simp [hsum hs hleft]

/-- An assignment is supplied, also if its target is read twice. -/
theorem serves_assignment : Serves false (assignment expression limit) := by
  have hlogical := provides_logical hexpression limit
  intro scopes s s' tree hs h
  refine ⟨calm_assignment hexpression.calm limit hs h, ?_⟩
  simp only [assignment, reads_branch, reads_bind, reads_at?] at h
  obtain ⟨_, ⟨_, _, ⟨rfl, rfl⟩, h⟩, rfl⟩ := h
  refine .branch rfl ?_
  split at h
  · rename_i hname
    have hat := State.at_of_any hname
    simp only [reads_bind, reads_spelling, reads_at?] at h
    obtain ⟨_, _, ⟨rfl, rfl⟩, ⟨target, index⟩, t, htarget, _, _, ⟨rfl, rfl⟩, h⟩ := h
    obtain ⟨ht, hbracket⟩ := hs.reference hat htarget
    split at h
    · rename_i hassign
      simp only [reads_bind, reads_pure] at h
      obtain ⟨_, u, hread, sign, _, hsign, value, _, hvalue, rfl, rfl⟩ := h
      obtain ⟨hbare, rfl⟩ := needs_kindLeaf hsign
      have hu := ht.readWord (State.at_of_any hassign) rfl hread
      have htarget : Supplied scopes false target := .reference (.inl hs) hat htarget
      simp [htarget, Supplied.bare hbare, hlogical (.inl hu) hvalue]
    · simp only [reads_bind, reads_pure, takeBack, reads_modify] at h
      obtain ⟨_, _, rfl, value, _, hvalue, rfl, rfl⟩ := h
      -- the name has been looked up before it was taken back
      have hdeclared := (reads_reference_needs htarget).2
      rw [hs.scopes_eq hat rfl] at hdeclared
      refine forall_mem_singleton.2 (hlogical (.inr ⟨index, t.word, ?_, ?_⟩) hvalue)
      · exact ⟨⟨_, rfl, rfl⟩, by rw [ht.pending, nil_append], hbracket, ht.turns⟩
      · exact hdeclared
  · simp only [reads_bind, reads_pure] at h
    obtain ⟨value, _, hvalue, rfl, rfl⟩ := h
    simp [hlogical (.inl hs) hvalue]

end

/-- **The names of an expression are declared.** -/
theorem serves_expression (depth : Nat) : Serves false (expression depth) := by
  induction depth with
  | zero =>
    intro scopes s s' tree hs h
    simp [expression] at h
  | succ depth ih => exact serves_assignment ih (depth + 1)

/-- A value without an assignment. -/
theorem serves_logical (limit : Nat) : Serves false (logical (expression limit) limit) :=
  fun _ _ _ _ hs h =>
    ⟨calm_logical limit hs h, provides_logical (serves_expression limit) limit (.inl hs) h⟩

/-! ### Statements -/

/-- The scopes after a left brace. -/
theorem State.Steady.leftBrace {u : Unit} (hs : s.Steady scopes) (hat : s.At .leftBrace)
    (h : Reads Parse.readWord s u s') : ∃ id, s'.Steady (.empty id false 0 :: scopes) := by
  obtain ⟨token, hword, hkind⟩ := hat
  have hturns := hs.turns
  rw [hword] at hturns
  obtain ⟨id, hscopes⟩ := hturns.leftBrace hkind
  exact ⟨id, hscopes ▸ .of_readWord hs.pending h⟩

/-- A right brace needs nothing. -/
theorem needs_rightBrace (h : Reads (rightBrace rule) s tree s') :
    tree.shape.needs = [] := by
  simp only [rightBrace, reads_bind, reads_pure] at h
  obtain ⟨_, _, hsign, _, _, -, rfl, -⟩ := h
  exact (needs_expectLeaf hsign).1

/-- A semicolon leaves the scopes as they are. -/
theorem serves_semicolon (jumps : Bool) (rule : Rule) : Serves jumps (semicolon rule) := by
  intro scopes s s' tree hs h
  obtain ⟨hshape, hat, hread⟩ := reads_semicolon_word h
  exact ⟨hs.readWord hat rfl hread, .bare (hshape ▸ needs_word _)⟩

/-- The test of a statement is supplied. -/
theorem supplied_condition {limit : Nat} (jumps : Bool) (hs : s.Steady scopes) (hat : s.At kind)
    (hkind : kind.isBrace = false) (h : Reads (condition rule limit) s trees s') :
    s'.Steady scopes ∧ s'.At .rightParen ∧ ∀ tree ∈ trees, Supplied scopes jumps tree := by
  simp only [condition, reads_bind, reads_pure] at h
  obtain ⟨opening, t, hopening, _, u, hread, test, v, htest, closing, _, hclosing, rfl, rfl⟩ := h
  obtain ⟨hleft, hopening, ht⟩ := needs_nextLeaf hopening
  obtain ⟨hv, htest⟩ :=
    serves_expression limit ((hs.readWord hat hkind hopening).readWord ht rfl hread) htest
  obtain ⟨hright, hend, rfl⟩ := needs_expectLeaf hclosing
  exact ⟨hv, hend, by simp [Supplied.bare hleft, htest.allow, Supplied.bare hright]⟩

/-- A keyword, an expression and a semicolon. -/
theorem supplied_valueStatement {limit : Nat} {leaf : Parse SyntaxTree}
    (hrule : rule.isPlain = true)
    (hleaf : ∀ {s s' : State} {tree : SyntaxTree}, Reads leaf s tree s' →
      tree.shape.needs = [] ∧ s = s') (hs : s.Steady scopes) (hat : s.At kind)
    (hkind : kind.isBrace = false) (h : Reads (branch rule do
      let keyword ← leaf
      readWord
      let value ← expression limit
      return [keyword, value, ← semicolon rule]) s tree s') :
    s'.Steady scopes ∧ Supplied scopes jumps tree := by
  simp only [reads_branch, reads_bind, reads_pure] at h
  obtain ⟨_, ⟨keyword, _, hkeyword, _, t, hread, value, u, hvalue, sign, _, hsign, rfl, rfl⟩,
    rfl⟩ := h
  obtain ⟨hbare, rfl⟩ := hleaf hkeyword
  obtain ⟨hu, hvalue⟩ := serves_expression limit (hs.readWord hat hkind hread) hvalue
  obtain ⟨hs', hsign⟩ := serves_semicolon jumps _ hu hsign
  exact ⟨hs', .branch hrule (by simp [Supplied.bare hbare, hvalue.allow, hsign])⟩

/-- The target of a `read` is supplied. -/
theorem supplied_readStatement (hs : s.Steady scopes) (hat : s.At .kwRead)
    (h : Reads readStatement s tree s') : s'.Steady scopes ∧ Supplied scopes jumps tree := by
  simp only [readStatement, reads_branch, reads_bind, reads_pure, reads_expect] at h
  obtain ⟨_, ⟨keyword, _, hkeyword, _, t, hread, token, _, ⟨hword, hkind, rfl⟩, result, u, htarget,
    sign, _, hsign, rfl, rfl⟩, rfl⟩ := h
  obtain ⟨hbare, rfl⟩ := needs_spelledLeaf hkeyword
  have ht := hs.readWord hat rfl hread
  have hname : t.At .name := ⟨token, hword, hkind⟩
  have hresult : Supplied scopes jumps result.1 := .reference (.inl ht) hname htarget
  obtain ⟨hs', hsign⟩ := serves_semicolon jumps _ (ht.reference hname htarget).1 hsign
  exact ⟨hs', .branch rfl (by simp [Supplied.bare hbare, hresult, hsign])⟩

/-- An expression as a statement is supplied. -/
theorem serves_expressionStatement (limit : Nat) : Serves jumps (expressionStatement limit) := by
  intro scopes s s' tree hs h
  simp only [expressionStatement, reads_branch, reads_bind, reads_at?] at h
  obtain ⟨_, ⟨_, _, ⟨rfl, rfl⟩, h⟩, rfl⟩ := h
  split at h
  · simp only [reads_bind, reads_pure] at h
    obtain ⟨sign, _, hsign, rfl, rfl⟩ := h
    obtain ⟨hs', hsign⟩ := serves_semicolon jumps _ hs hsign
    exact ⟨hs', .branch rfl (by simp [hsign])⟩
  · simp only [reads_bind, reads_pure] at h
    obtain ⟨value, t, hvalue, sign, _, hsign, rfl, rfl⟩ := h
    obtain ⟨ht, hvalue⟩ := serves_expression limit hs hvalue
    obtain ⟨hs', hsign⟩ := serves_semicolon jumps _ ht hsign
    exact ⟨hs', .branch rfl (by simp [hvalue.allow, hsign])⟩

/-- A jump is supplied if jumps are allowed. -/
theorem supplied_jump (hs : s.Steady scopes) (hat : s.At kind) (hkind : kind.isBrace = false)
    (h : Reads jump s tree s') :
    s'.Steady scopes ∧ Supplied scopes true tree := by
  simp only [jump, reads_branch, reads_bind, reads_pure] at h
  obtain ⟨_, ⟨keyword, _, hkeyword, _, t, hread, sign, _, hsign, rfl, rfl⟩, rfl⟩ := h
  obtain ⟨hbare, rfl⟩ := needs_spelledLeaf hkeyword
  obtain ⟨hshape, hend, hafter⟩ := reads_semicolon_word hsign
  refine ⟨(hs.readWord hat hkind hread).readWord hend rfl hafter, ?_⟩
  simp [Supplied, needs_jump, hbare, hshape, Need.Met]

section

variable {statement : Bool → Parse SyntaxTree} (hstatement : ∀ jumps, Serves jumps
  (statement jumps))

include hstatement

/-- A sequence is supplied if its statements are. -/
theorem serves_statements (limit : Nat) : Serves jumps (statements statement jumps limit) := by
  intro scopes s s' tree hs h
  rw [statements, reads_branch] at h
  obtain ⟨trees, h, rfl⟩ := h
  refine (supplied_many ?_ ?_ hs h).imp_right (.branch rfl)
  · intro found s t hlook
    simp only [reads_bind, reads_atAny?, reads_pure] at hlook
    obtain ⟨_, _, ⟨-, rfl⟩, -, rfl⟩ := hlook
    rfl
  · intro s s' trees hs _ hround
    simp only [reads_bind, reads_pure] at hround
    obtain ⟨tree, _, htree, rfl, rfl⟩ := hround
    obtain ⟨hs', htree⟩ := hstatement jumps hs htree
    exact ⟨hs', by simp [htree]⟩

variable {limit : Nat}

variable (hs : s.Steady scopes)

include hs

/-- Braces open a scope and close it again. -/
theorem supplied_compound (hat : s.At .leftBrace)
    (h : Reads (compound statement jumps limit) s tree s') :
    s'.Steady scopes ∧ Supplied scopes jumps tree := by
  simp only [compound, reads_branch, reads_bind, reads_pure] at h
  obtain ⟨_, ⟨opening, _, hopening, _, t, hread, body, u, hbody, closing, _, hclosing, rfl, rfl⟩,
    rfl⟩ := h
  obtain ⟨hleft, rfl⟩ := needs_kindLeaf hopening
  obtain ⟨id, ht⟩ := hs.leftBrace hat hread
  obtain ⟨hu, hbody⟩ := serves_statements hstatement limit ht hbody
  refine ⟨hu.rightBrace hclosing, .branch rfl ?_⟩
  simp [Supplied.bare hleft, hbody.of_empty, Supplied.bare (needs_rightBrace hclosing)]

/-- A loop supplies its body with a loop. -/
theorem supplied_whileStatement (hat : s.At .kwWhile)
    (h : Reads (whileStatement statement limit) s tree s') :
    s'.Steady scopes ∧ Supplied scopes jumps tree := by
  simp only [whileStatement, reads_branch, reads_bind, reads_pure] at h
  obtain ⟨_, ⟨keyword, _, hkeyword, test, t, htest, _, u, hread, body, _, hbody, rfl, rfl⟩,
    rfl⟩ := h
  obtain ⟨hbare, rfl⟩ := needs_spelledLeaf hkeyword
  obtain ⟨ht, hend, htest⟩ := supplied_condition true hs hat rfl htest
  obtain ⟨hs', hbody⟩ := hstatement true (ht.readWord hend rfl hread) hbody
  refine ⟨hs', .loop rfl ?_⟩
  simpa [Supplied.bare hbare, or_imp, forall_and, hbody] using htest

/-- So does a loop with its test behind. -/
theorem supplied_doWhile (hat : s.At .kwDo) (h : Reads (doWhile statement limit) s tree s') :
    s'.Steady scopes ∧ Supplied scopes jumps tree := by
  simp only [doWhile, reads_branch, reads_bind, reads_pure] at h
  obtain ⟨_, ⟨keyword, _, hkeyword, _, t, hread, body, u, hbody, again, _, hagain, test, v,
    htest, _, w, hafter, sign, _, hsign, rfl, rfl⟩, rfl⟩ := h
  obtain ⟨hbare, rfl⟩ := needs_kindLeaf hkeyword
  obtain ⟨hu, hbody⟩ := hstatement true (hs.readWord hat rfl hread) hbody
  obtain ⟨hbare', hwhile, rfl⟩ := needs_expectLeaf hagain
  obtain ⟨hv, hend, htest⟩ := supplied_condition true hu hwhile rfl htest
  obtain ⟨hs', hsign⟩ := serves_semicolon true _ (hv.readWord hend rfl hafter) hsign
  refine ⟨hs', .loop rfl ?_⟩
  simpa [Supplied.bare hbare, hbody, Supplied.bare hbare', or_imp, forall_and, hsign] using htest

/-- So does a counted loop. -/
theorem supplied_forStatement (hat : s.At .kwFor)
    (h : Reads (forStatement statement limit) s tree s') :
    s'.Steady scopes ∧ Supplied scopes jumps tree := by
  simp only [forStatement, reads_branch, reads_bind, reads_pure] at h
  obtain ⟨_, ⟨keyword, _, hkeyword, opening, t, hopening, _, u, hread, first, v, hfirst,
    firstEnd, w,
    hfirstEnd, test, x, htest, testEnd, y, htestEnd, step, z, hstep, closing, _, hclosing, _, a,
    hafter, body, _, hbody, rfl, rfl⟩, rfl⟩ := h
  obtain ⟨hbare, rfl⟩ := needs_spelledLeaf hkeyword
  obtain ⟨hleft, hopening, ht⟩ := needs_nextLeaf hopening
  obtain ⟨hv, hfirst⟩ :=
    serves_expression limit ((hs.readWord hat rfl hopening).readWord ht rfl hread) hfirst
  obtain ⟨hw, hfirstEnd⟩ := serves_semicolon true _ hv hfirstEnd
  obtain ⟨hx, htest⟩ := serves_expression limit hw htest
  obtain ⟨hy, htestEnd⟩ := serves_semicolon true _ hx htestEnd
  obtain ⟨hz, hstep⟩ := serves_expression limit hy hstep
  obtain ⟨hright, hend, rfl⟩ := needs_expectLeaf hclosing
  obtain ⟨hs', hbody⟩ := hstatement true (hz.readWord hend rfl hafter) hbody
  refine ⟨hs', .loop rfl ?_⟩
  simp [Supplied.bare hbare, Supplied.bare hleft, hfirst.allow, hfirstEnd, htest.allow, htestEnd,
    hstep.allow, Supplied.bare hright, hbody]

/-- The two statements of an `if` are supplied. -/
theorem supplied_ifStatement (hat : s.At .kwIf) (h : Reads (ifStatement statement limit) s tree s')
    :
    s'.Steady scopes ∧ Supplied scopes jumps tree := by
  simp only [ifStatement, reads_branch, reads_bind, reads_at?] at h
  obtain ⟨_, ⟨keyword, _, hkeyword, test, t, htest, _, u, hread, body, v, hbody, _, _,
    ⟨rfl, rfl⟩, h⟩, rfl⟩ := h
  obtain ⟨hbare, rfl⟩ := needs_spelledLeaf hkeyword
  obtain ⟨ht, hend, htest⟩ := supplied_condition jumps hs hat rfl htest
  obtain ⟨hv, hbody⟩ := hstatement false (ht.readWord hend rfl hread) hbody
  split at h
  · rename_i hfound
    simp only [reads_bind, reads_pure] at h
    obtain ⟨keyword', _, hkeyword', _, w, hread', other, _, hother, _, _, ⟨rfl, rfl⟩, rfl, rfl⟩ := h
    obtain ⟨hbare', rfl⟩ := needs_kindLeaf hkeyword'
    obtain ⟨hs', hother⟩ :=
      hstatement false (hv.readWord (State.at_of_any hfound) rfl hread') hother
    refine ⟨hs', .branch rfl ?_⟩
    simpa [Supplied.bare hbare, hbody.allow, Supplied.bare hbare', hother.allow, or_imp, forall_and]
      using htest
  · simp only [reads_bind, reads_pure] at h
    obtain ⟨_, _, ⟨rfl, rfl⟩, rfl, rfl⟩ := h
    refine ⟨hv, .branch rfl ?_⟩
    simpa [Supplied.bare hbare, hbody.allow, or_imp, forall_and] using htest

/-- A clause supplies its body with a switch. -/
theorem supplied_caseClause (hat : s.At .kwCase) (h : Reads (caseClause statement limit) s tree s')
    :
    s'.Steady scopes ∧ Supplied scopes true tree := by
  simp only [caseClause, reads_branch, reads_bind, reads_pure] at h
  obtain ⟨_, ⟨keyword, _, hkeyword, number, t, hnumber, colon, u, hcolon, _, v, hread, body,
    _, hbody, rfl, rfl⟩, rfl⟩ := h
  obtain ⟨hbare, rfl⟩ := needs_spelledLeaf hkeyword
  obtain ⟨hdigits, hnumber, ht⟩ := needs_nextNumber hnumber
  obtain ⟨hsign, hcolon, hu⟩ := needs_nextLeaf hcolon
  have hv := ((hs.readWord hat rfl hnumber).readWord ht rfl hcolon).readWord hu rfl hread
  obtain ⟨hs', hbody⟩ := serves_statements hstatement limit hv hbody
  refine ⟨hs', .branch rfl ?_⟩
  simp [Supplied.bare hbare, Supplied.bare hdigits, Supplied.bare hsign, hbody]

/-- So does the default clause. -/
theorem supplied_defaultClause (hat : s.At .kwDefault)
    (h : Reads (defaultClause statement limit) s tree s') :
    s'.Steady scopes ∧ Supplied scopes true tree := by
  simp only [defaultClause, reads_branch, reads_bind, reads_pure] at h
  obtain ⟨_, ⟨keyword, _, hkeyword, colon, t, hcolon, _, u, hread, body, _, hbody, rfl, rfl⟩,
    rfl⟩ := h
  obtain ⟨hbare, rfl⟩ := needs_spelledLeaf hkeyword
  obtain ⟨hsign, hcolon, ht⟩ := needs_nextLeaf hcolon
  obtain ⟨hs', hbody⟩ := serves_statements hstatement limit
    ((hs.readWord hat rfl hcolon).readWord ht rfl hread) hbody
  exact ⟨hs', .branch rfl (by simp [Supplied.bare hbare, Supplied.bare hsign, hbody])⟩

/-- A switch is supplied if its clauses are. -/
theorem supplied_switchStatement (hat : s.At .kwSwitch)
    (h : Reads (switchStatement statement limit) s tree s') :
    s'.Steady scopes ∧ Supplied scopes jumps tree := by
  simp only [switchStatement, reads_branch, reads_bind, reads_expect, reads_at?] at h
  obtain ⟨trees, ⟨keyword, _, hkeyword, test, t, htest, opening, u, hopening, _, v, hread, _, _,
    ⟨-, -, rfl⟩, clauses, w, hclauses, _, _, ⟨rfl, rfl⟩, h⟩, rfl⟩ := h
  obtain ⟨hbare, rfl⟩ := needs_kindLeaf hkeyword
  obtain ⟨ht, hend, htest⟩ := supplied_condition true hs hat rfl htest
  obtain ⟨hleft, hopening, hu⟩ := needs_nextLeaf hopening
  obtain ⟨id, hv⟩ := (ht.readWord hend rfl hopening).leftBrace hu hread
  obtain ⟨hw, hclauses⟩ : w.Steady (.empty id false 0 :: scopes) ∧
      ∀ tree ∈ clauses, Supplied (.empty id false 0 :: scopes) true tree := by
    refine supplied_many (fun h => (reads_at?.1 h).2) ?_ hv hclauses
    intro s s' trees hs hfound hround
    simp only [reads_bind, reads_pure] at hround
    obtain ⟨clause, _, hclause, rfl, rfl⟩ := hround
    have hcase : s.At .kwCase := State.at_of_any (reads_at?.1 hfound).1.symm
    obtain ⟨hs', hclause⟩ := supplied_caseClause hstatement hs hcase hclause
    exact ⟨hs', by simp [hclause]⟩
  -- what remains is the clause for all other numbers, if there is one, and the brace
  have hlast : ∀ {otherwise : List SyntaxTree} {x : State},
      (∀ tree ∈ otherwise, Supplied (.empty id false 0 :: scopes) true tree) →
      x.Steady (.empty id false 0 :: scopes) → Reads (do
        let closing ← rightBrace .switchStatement
        return keyword :: test ++ opening :: clauses ++ otherwise ++ [closing]) x trees s' →
      s'.Steady scopes ∧ Supplied scopes jumps (.branch .switchStatement s.line trees) := by
    intro otherwise x hother hx h
    simp only [reads_bind, reads_pure] at h
    obtain ⟨closing, _, hclosing, rfl, rfl⟩ := h
    refine ⟨hx.rightBrace hclosing, .loop rfl ?_⟩
    simp only [forall_mem_append, forall_mem_cons]
    exact ⟨⟨⟨⟨.bare hbare, htest⟩, .bare hleft, fun tree h => (hclauses tree h).of_empty⟩,
      fun tree h => (hother tree h).of_empty⟩, .bare (needs_rightBrace hclosing),
      forall_mem_nil _⟩
  split at h
  · rename_i hfound
    simp only [reads_bind, reads_pure] at h
    obtain ⟨clause, x, hclause, _, _, ⟨rfl, rfl⟩, h⟩ := h
    obtain ⟨hx, hclause⟩ :=
      supplied_defaultClause hstatement hw (State.at_of_any hfound) hclause
    exact hlast (forall_mem_singleton.2 hclause) hx
      (by simpa only [reads_bind, reads_pure] using h)
  · simp only [reads_bind, reads_pure] at h
    obtain ⟨_, _, ⟨rfl, rfl⟩, h⟩ := h
    exact hlast (forall_mem_nil _) hw (by simpa only [reads_bind, reads_pure] using h)

/-- A statement is supplied, whatever its first word. -/
theorem supplied_statementForm {token : Token} (hword : s.word = some token)
    (h : Reads (statementForm statement jumps limit token.kind) s tree s') :
    s'.Steady scopes ∧ Supplied scopes jumps tree := by
  have hat : ∀ {kind : Kind}, token.kind = kind → s.At kind := fun hkind => ⟨token, hword, hkind⟩
  unfold statementForm at h
  split at h
  · exact supplied_ifStatement hstatement hs (hat ‹_›) h
  · exact supplied_whileStatement hstatement hs (hat ‹_›) h
  · exact supplied_doWhile hstatement hs (hat ‹_›) h
  · exact supplied_forStatement hstatement hs (hat ‹_›) h
  · exact supplied_valueStatement rfl needs_spelledLeaf hs (hat ‹_›) rfl h
  · exact supplied_readStatement hs (hat ‹_›) h
  · exact supplied_compound hstatement hs (hat ‹_›) h
  iterate 5 exact serves_expressionStatement limit hs h
  · exact supplied_valueStatement rfl needs_kindLeaf hs (hat ‹_›) rfl h
  iterate 2
    split at h
    · rename_i hjumps
      obtain rfl : jumps = true := hjumps
      exact supplied_jump hs (hat ‹_›) rfl h
    · simp at h
  · exact supplied_switchStatement hstatement hs (hat ‹_›) h
  · simp at h

end

/-- **The names of a statement are declared**, and its jumps are allowed. -/
theorem serves_statement (depth : Nat) : ∀ jumps, Serves jumps (statement depth jumps) := by
  induction depth with
  | zero =>
    intro jumps scopes s s' tree _ h
    simp [statement] at h
  | succ depth ih =>
    intro jumps scopes s s' tree hs h
    simp only [statement, reads_branch, reads_bind, reads_get] at h
    obtain ⟨trees, ⟨_, _, ⟨rfl, rfl⟩, h⟩, rfl⟩ := h
    split at h
    · simp at h
    · simp only [reads_bind, reads_pure] at h
      obtain ⟨form, _, hform, rfl, rfl⟩ := h
      obtain ⟨hs', hform⟩ := supplied_statementForm ih hs ‹_› hform
      exact ⟨hs', .branch rfl (forall_mem_singleton.2 hform)⟩

/-- A body closes the scope that its brace has opened. -/
theorem reads_body_steady {limit : Nat} {scope : Scope} {outer : Scopes} (hpending : s.pending = [])
    (hscopes : s.scopes = scope :: outer) (h : Reads (body limit) s tree s') : s'.Steady outer := by
  simp only [body, reads_branch, reads_bind, reads_pure] at h
  obtain ⟨_, ⟨opening, _, hopening, _, t, hread, names, u, hnames, steps, w, hsteps, closing, _,
    hclosing, rfl, rfl⟩, rfl⟩ := h
  obtain ⟨-, rfl⟩ := reads_kindLeaf hopening
  have ht := State.Steady.of_readWord hpending hread
  rw [hscopes] at ht
  -- a declaration enters its names into the scope of the body
  obtain ⟨_, hu, inner, rfl⟩ := reads_declarations_induct
    (P := fun _ scopes => ∃ inner, scopes = inner :: outer) (by
      rintro _ _ _ _ _ _ _ _ ⟨_, rfl⟩ - - - hput
      obtain ⟨_, _, hcons, -, rfl⟩ := Scopes.put?_cases hput
      exact ⟨_, by rw [(List.cons.inj hcons).2]⟩) ht ⟨scope, rfl⟩ hnames
  obtain ⟨hw, -⟩ := serves_statements (serves_statement limit) limit hu hsteps
  exact hw.rightBrace hclosing

end Parse

end ScoreLang
