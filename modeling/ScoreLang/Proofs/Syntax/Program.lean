import ScoreLang.Proofs.Syntax.Statement

/-!
# Programs in Preorder

The labels of declarations, of the bodies of functions and of whole programs in preorder.
-/

namespace ScoreLang

open List

/-- The labels of phrases with commas between them. -/
theorem flatMap_listing_separatedBy (sign : String) (tree : Tree Label)
    (trees : List (Tree Label)) : (separatedBy sign (tree :: trees)).flatMap Tree.listing
      = tree.listing ++ trees.flatMap fun tree => .word sign :: tree.listing := by
  simp [separatedBy, word, flatMap_assoc]

/-- A phrase has a label. -/
theorem length_le_length_flatMap {α : Type} {labels : α → List Label} (h : ∀ a, labels a ≠ [])
    (phrases : List α) : phrases.length ≤ (phrases.flatMap labels).length := by
  induction phrases with
  | nil => exact Nat.le_refl 0
  | cons phrase phrases ih =>
    have hpos := length_pos_iff.2 (h phrase)
    rw [flatMap_cons, length_cons, length_append]
    omega

/-! ### Declarations -/

/-- The labels of some values, each after a comma. -/
def valueLabels (values : List (Expr .logical)) : List Label :=
  values.flatMap fun value => .word "," :: value.labels

namespace Declarator

/-- The labels of a declarator in preorder. -/
def labels : Declarator → List Label
  | .plain name => [.rule .declarator, .name name]
  | .initial name value => .rule .declarator :: .name name :: .word "=" :: value.labels
  | .array name length =>
    [.rule .declarator, .name name, .word "[", .number length.digits, .word "]"]
  | .filled name length values =>
    .rule .declarator :: .name name :: .word "[" :: .number length.digits :: .word "]" ::
      .word "=" :: .rule .initializer :: .word "\x7b" ::
        ((valueLabels values).tail ++ [.word "\x7d"])

theorem listing_tree (declarator : Declarator) : declarator.tree.listing = declarator.labels := by
  cases declarator with
  | plain name => simp [tree, labels, phrase, nameLeaf]
  | initial name value => simp [tree, labels, phrase, nameLeaf, word, value.listing_tree]
  | array name length => simp [tree, labels, phrase, nameLeaf, word, Numeral.leaf]
  | filled name length values =>
    cases values with
    | nil => simp [tree, labels, phrase, nameLeaf, word, Numeral.leaf, separatedBy, valueLabels]
    | cons value values =>
      have hvalues := flatMap_listing_separatedBy "," value.tree (values.map Expr.tree)
      simp [tree, labels, phrase, nameLeaf, word, Numeral.leaf, hvalues, valueLabels,
        Expr.listing_tree, flatMap_map]

end Declarator

/-- The labels of some declarators, each after a comma. -/
def declaratorLabels (declarators : List Declarator) : List Label :=
  declarators.flatMap fun declarator => .word "," :: declarator.labels

/-- The labels of a declaration in preorder. -/
def Declaration.labels (declaration : Declaration) : List Label :=
  .rule .declaration :: .word declaration.keyword.text ::
    (declaration.first.labels ++ (declaratorLabels declaration.rest ++ [.word ";"]))

theorem Declaration.listing_tree (declaration : Declaration) :
    declaration.tree.listing = declaration.labels := by
  have hnames := flatMap_listing_separatedBy "," declaration.first.tree
    (declaration.rest.map Declarator.tree)
  simp [tree, labels, phrase, word, hnames, Declarator.listing_tree, flatMap_map,
    declaratorLabels]

/-- The labels of some declarations in preorder. -/
def declarationsLabels (declarations : List Declaration) : List Label :=
  .rule .declarations :: declarations.flatMap Declaration.labels

theorem listing_declarationsTree (declarations : List Declaration) :
    (declarationsTree declarations).listing = declarationsLabels declarations := by
  simp [declarationsTree, declarationsLabels, phrase, flatMap_map, Declaration.listing_tree]

/-! ### Functions -/

/-- The labels of a body in preorder. -/
def Body.labels (body : Body) : List Label :=
  .rule .body :: .word "\x7b" :: (declarationsLabels body.declarations ++
    .rule .statements :: (body.steps.inside ++ [.word "\x7d"]))

theorem Body.listing_tree (body : Body) : body.tree.listing = body.labels := by
  simp [tree, labels, phrase, word, listing_declarationsTree, Stmt.inside]

/-- The labels of some parameters, each after a comma. -/
def parameterLabels (names : List String) : List Label :=
  names.flatMap fun name => [.word ",", .rule .parameter, .word "int", .name name]

theorem listing_parameterTree (name : String) :
    (parameterTree name).listing = [.rule .parameter, .word "int", .name name] := by
  simp [parameterTree, phrase, word, nameLeaf]

/-- The labels of a function in preorder. -/
def Function.labels (function : Function) : List Label :=
  .rule .function :: .word function.keyword.text :: .name function.name :: .word "(" ::
    .rule .parameters :: ((parameterLabels function.parameters).tail ++
      .word ")" :: function.body.labels)

theorem Function.listing_tree (function : Function) :
    function.tree.listing = function.labels := by
  cases hparameters : function.parameters with
  | nil =>
    simp [tree, labels, phrase, word, nameLeaf, hparameters, separatedBy, parameterLabels,
      Body.listing_tree]
  | cons name names =>
    have hnames := flatMap_listing_separatedBy "," (parameterTree name) (names.map parameterTree)
    simp [tree, labels, phrase, word, nameLeaf, hparameters, hnames, parameterLabels,
      Body.listing_tree, flatMap_map, listing_parameterTree]

/-- The labels of the main function in preorder. -/
def Program.mainLabels (program : Program) : List Label :=
  .rule .main :: .word program.keyword.text :: .word "(" :: .word ")" :: program.body.labels

theorem Program.labels_eq (program : Program) :
    program.labels = .rule .program ::
      ((if program.globals.isEmpty then [] else declarationsLabels program.globals) ++
        (program.functions.flatMap Function.labels ++ program.mainLabels)) := by
  have hmain : program.mainTree.listing = program.mainLabels := by
    simp [mainTree, mainLabels, phrase, word, Body.listing_tree]
  cases hglobals : program.globals <;>
    simp [labels, hglobals, tree, phrase, hmain, flatMap_map, Function.listing_tree,
      listing_declarationsTree]

end ScoreLang
