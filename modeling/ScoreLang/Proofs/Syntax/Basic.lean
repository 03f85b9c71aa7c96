import Mathlib.Tactic.Common
import ScoreLang.Code.Line
import ScoreLang.Tree.SyntaxTree

/-!
# Abstract Syntax

The syntax trees that the parser builds are those of a grammar. This module states the grammar as
types: a phrase is a value of the type of its rule, so that a phrase that the grammar does not allow
cannot be formed. `Program.tree` is the labelled tree of a program; the parser accepts a list of
tokens only if its tree is the tree of a program, and what the code generator does to a tree can
then be said by recursion on the program.

Two families carry the recursion. `Expr` has an index for the rule of the phrase, from the operand
up to the assignment; a chain of operators is nested to the left, in the order of evaluation.
`Stmt` has an index for single statements, sequences and the clauses of a switch. A single
statement says in its index whether an `else` after it would belong to it: the statement before an
`else` must not be of that kind.

A reserved word may be spelled with letters of either case, and some leaves keep the spelling.
-/

namespace ScoreLang

open List

namespace Tree

variable {α β : Type}

mutual

/-- The tree with every value replaced. -/
def map (f : α → β) : Tree α → Tree β
  | .node value sons => .node (f value) (mapAll f sons)

/-- The trees with every value replaced. -/
def mapAll (f : α → β) : List (Tree α) → List (Tree β)
  | [] => []
  | tree :: trees => map f tree :: mapAll f trees

end

theorem mapAll_eq_map (f : α → β) (trees : List (Tree α)) : mapAll f trees = trees.map (map f) := by
  induction trees with
  | nil => rfl
  | cons tree trees ih => rw [mapAll, ih, map_cons]

@[simp] theorem map_node (f : α → β) (value : α) (sons : List (Tree α)) :
    map f (.node value sons) = .node (f value) (sons.map (map f)) := by
  rw [map, mapAll_eq_map]

section Equality

variable [DecidableEq α]

mutual

/-- Whether two trees are equal. -/
def decideEq : (first second : Tree α) → Decidable (first = second)
  | .node value sons, .node value' sons' =>
    match decEq value value', decideEqAll sons sons' with
    | .isTrue hvalue, .isTrue hsons => .isTrue (by rw [hvalue, hsons])
    | .isFalse hvalue, _ => .isFalse fun h => hvalue (Tree.node.inj h).1
    | _, .isFalse hsons => .isFalse fun h => hsons (Tree.node.inj h).2

/-- Whether two lists of trees are equal. -/
def decideEqAll : (first second : List (Tree α)) → Decidable (first = second)
  | [], [] => .isTrue rfl
  | [], _ :: _ => .isFalse fun h => nomatch h
  | _ :: _, [] => .isFalse fun h => nomatch h
  | tree :: trees, tree' :: trees' =>
    match decideEq tree tree', decideEqAll trees trees' with
    | .isTrue htree, .isTrue htrees => .isTrue (by rw [htree, htrees])
    | .isFalse htree, _ => .isFalse fun h => htree (List.cons.inj h).1
    | _, .isFalse htrees => .isFalse fun h => htrees (List.cons.inj h).2

end

instance : DecidableEq (Tree α) := decideEq

end Equality

mutual

/-- What follows a tree in preorder follows its values, whatever its depth. -/
theorem preorderFrom_eq (depth : Nat) (tree : Tree α) (after : List (Nat × α)) :
    (preorderFrom depth tree after).map (·.2)
      = (preorderFrom 0 tree []).map (·.2) ++ after.map (·.2) := by
  obtain ⟨value, sons⟩ := tree
  rw [preorderFrom, preorderFrom, map_cons, map_cons, preorderAll_eq (depth + 1) sons,
    preorderAll_eq (0 + 1) sons []]
  simp

theorem preorderAll_eq (depth : Nat) (trees : List (Tree α)) (after : List (Nat × α)) :
    (preorderAll depth trees after).map (·.2) = trees.flatMap listing ++ after.map (·.2) := by
  match trees with
  | [] => rfl
  | tree :: trees =>
    rw [preorderAll, preorderFrom_eq depth tree, preorderAll_eq depth trees, flatMap_cons,
      append_assoc]
    rfl

end

/-- The values of a tree in preorder: the root, and then those of the sons. -/
@[simp] theorem listing_node (value : α) (sons : List (Tree α)) :
    listing (.node value sons) = value :: sons.flatMap listing := by
  have h := preorderAll_eq 1 sons []
  rw [map_nil, append_nil] at h
  rw [listing, preorder, preorderFrom, map_cons, h]

mutual

theorem listing_map (f : α → β) (tree : Tree α) : (tree.map f).listing = tree.listing.map f := by
  obtain ⟨value, sons⟩ := tree
  rw [map, listing_node, listing_node, flatMap_listing_mapAll f sons, map_cons]

theorem flatMap_listing_mapAll (f : α → β) (trees : List (Tree α)) :
    (mapAll f trees).flatMap listing = (trees.flatMap listing).map f := by
  match trees with
  | [] => rfl
  | tree :: trees =>
    rw [mapAll, flatMap_cons, flatMap_cons, listing_map f tree,
      flatMap_listing_mapAll f trees, map_append]

end

end Tree

/-! ### Words -/

/-- The text with its letters in lower case. -/
def lowerCase (text : String) : String := String.ofList (text.toList.map Char.toLower)

/-- A spelling of a reserved word: letters of either case. -/
structure Spelling (word : String) where
  text : String
  lowerCase_text : lowerCase text = word

/-- A number as it is spelled. -/
structure Numeral where
  digits : String
  digits_ne : digits.toList ≠ []
  isDigit_of_mem : ∀ c ∈ digits.toList, c.isDigit = true

/-- The leaf of a word. -/
def word (text : String) : Tree Label := .node (.word text) []

/-- The leaf of a name. -/
def nameLeaf (name : String) : Tree Label := .node (.name name) []

/-- The leaf of a number. -/
def Numeral.leaf (number : Numeral) : Tree Label := .node (.number number.digits) []

/-- The branch of a rule. -/
def phrase (rule : Rule) (sons : List (Tree Label)) : Tree Label := .node (.rule rule) sons

/-- The branches of some phrases with a sign between any two of them. -/
def separatedBy (sign : String) : List (Tree Label) → List (Tree Label)
  | [] => []
  | tree :: trees => tree :: trees.flatMap fun tree => [word sign, tree]

/-! ### Expressions -/

/-- Multiplication and division. -/
inductive MulSign where
  | times
  | slash
  deriving DecidableEq, Repr

/-- Addition and subtraction. -/
inductive AddSign where
  | plus
  | minus
  deriving DecidableEq, Repr

/-- Comparisons and logical operators. -/
inductive LogicSign where
  | less
  | greater
  | lessEqual
  | greaterEqual
  | notEqual
  | equal
  | both
  | either
  deriving DecidableEq, Repr

/-- The operation of a sign. -/
def MulSign.operation : MulSign → Operation
  | .times => .multiply
  | .slash => .divide

/-- The spelling of a sign. -/
def MulSign.text : MulSign → String
  | .times => "*"
  | .slash => "/"

/-- The operation of a sign. -/
def AddSign.operation : AddSign → Operation
  | .plus => .add
  | .minus => .subtract

/-- The spelling of a sign. -/
def AddSign.text : AddSign → String
  | .plus => "+"
  | .minus => "-"

/-- The operation of a sign. -/
def LogicSign.operation : LogicSign → Operation
  | .less => .less
  | .greater => .greater
  | .lessEqual => .lessEqual
  | .greaterEqual => .greaterEqual
  | .notEqual => .notEqual
  | .equal => .equal
  | .both => .both
  | .either => .either

/-- The spelling of a sign. -/
def LogicSign.text : LogicSign → String
  | .less => "<"
  | .greater => ">"
  | .lessEqual => "<="
  | .greaterEqual => ">="
  | .notEqual => "!="
  | .equal => "=="
  | .both => "&&"
  | .either => "||"

/-- A variable, or an element of an array. -/
structure Reference where
  name : String
  index : Option Numeral

/-- The branch of a reference. -/
def Reference.tree (target : Reference) : Tree Label :=
  phrase .variable (nameLeaf target.name ::
    match target.index with
    | none => []
    | some index => [word "[", index.leaf, word "]"])

/-- The labels of a reference in preorder. -/
def Reference.labels (target : Reference) : List Label :=
  .rule .variable :: .name target.name ::
    match target.index with
    | none => []
    | some index => [.word "[", .number index.digits, .word "]"]

theorem Reference.listing_tree (target : Reference) : target.tree.listing = target.labels := by
  unfold Reference.tree Reference.labels
  cases target.index <;> simp [phrase, nameLeaf, word, Numeral.leaf]

/-- The rules of expressions. -/
inductive Level where
  | factor
  | product
  | sum
  | logical
  | expression
  | arguments
  deriving DecidableEq, Repr

/-- The rule of a level. -/
def Level.rule : Level → Rule
  | .factor => .factor
  | .product => .product
  | .sum => .sum
  | .logical => .logical
  | .expression => .expression
  | .arguments => .arguments

/-- The phrases of expressions. -/
inductive Expr : Level → Type where
  /-- A number. -/
  | number (value : Numeral) : Expr .factor
  /-- A variable. -/
  | variable (target : Reference) : Expr .factor
  /-- An expression in parentheses. -/
  | group (inner : Expr .expression) : Expr .factor
  /-- A call without arguments. -/
  | plainCall (name : String) : Expr .factor
  /-- A call with arguments. -/
  | call (name : String) (given : Expr .arguments) : Expr .factor
  /-- An operand alone. -/
  | factor (only : Expr .factor) : Expr .product
  /-- A product and one more operand. -/
  | times (left : Expr .product) (sign : MulSign) (right : Expr .factor) : Expr .product
  /-- A product alone. -/
  | product (only : Expr .product) : Expr .sum
  /-- A sum and one more product. -/
  | plus (left : Expr .sum) (sign : AddSign) (right : Expr .product) : Expr .sum
  /-- A sum alone. -/
  | sum (only : Expr .sum) : Expr .logical
  /-- Two sums that are compared. -/
  | compare (left : Expr .sum) (sign : LogicSign) (right : Expr .sum) : Expr .logical
  /-- An expression without assignment. -/
  | logical (only : Expr .logical) : Expr .expression
  /-- An assignment. -/
  | assign (target : Reference) (value : Expr .logical) : Expr .expression
  /-- One argument. -/
  | argument (only : Expr .expression) : Expr .arguments
  /-- Arguments and one more. -/
  | further (before : Expr .arguments) (last : Expr .expression) : Expr .arguments

namespace Expr

/-- The branches below that of an expression. -/
def sons : {level : Level} → Expr level → List (Tree Label)
  | _, .number value => [value.leaf]
  | _, .variable target => [target.tree]
  | _, .group inner => [word "(", phrase .expression inner.sons, word ")"]
  | _, .plainCall name => [phrase .call [word "call", nameLeaf name, word "(", word ")"]]
  | _, .call name given =>
    [phrase .call [word "call", nameLeaf name, word "(", phrase .arguments given.sons, word ")"]]
  | _, .factor only => [phrase .factor only.sons]
  | _, .times left sign right => left.sons ++ [word sign.text, phrase .factor right.sons]
  | _, .product only => [phrase .product only.sons]
  | _, .plus left sign right => left.sons ++ [word sign.text, phrase .product right.sons]
  | _, .sum only => [phrase .sum only.sons]
  | _, .compare left sign right =>
    [phrase .sum left.sons, word sign.text, phrase .sum right.sons]
  | _, .logical only => [phrase .logical only.sons]
  | _, .assign target value => [target.tree, word "=", phrase .logical value.sons]
  | _, .argument only => [phrase .expression only.sons]
  | _, .further before last => before.sons ++ [word ",", phrase .expression last.sons]

/-- The branch of an expression. -/
def tree {level : Level} (e : Expr level) : Tree Label := phrase level.rule e.sons

/-- The labels below that of an expression, in preorder. -/
def inside {level : Level} (e : Expr level) : List Label := e.sons.flatMap Tree.listing

/-- The labels of an expression in preorder. -/
def labels {level : Level} (e : Expr level) : List Label := .rule level.rule :: e.inside

theorem listing_tree {level : Level} (e : Expr level) : e.tree.listing = e.labels :=
  Tree.listing_node _ _

end Expr

/-! ### Statements -/

/-- The kinds of phrases that statements are made of. -/
inductive Part where
  /-- A single statement; `dangling` says whether an `else` after it would belong to it. -/
  | statement (dangling : Bool)
  | statements
  /-- The clauses of a switch after the first one. -/
  | clauses
  deriving DecidableEq, Repr

/-- A `break` or a `continue`. -/
inductive Jump where
  | stop (keyword : Spelling "break")
  | again (keyword : Spelling "continue")

/-- The spelling of a jump. -/
def Jump.text : Jump → String
  | .stop keyword => keyword.text
  | .again keyword => keyword.text

/-- The phrases of statements. -/
inductive Stmt : Part → Type where
  /-- A semicolon alone. -/
  | empty : Stmt (.statement false)
  /-- An expression whose value is dropped. -/
  | expression (value : Expr .expression) : Stmt (.statement false)
  /-- A read statement. -/
  | read (keyword : Spelling "read") (target : Reference) : Stmt (.statement false)
  /-- A write statement. -/
  | write (keyword : Spelling "write") (value : Expr .expression) : Stmt (.statement false)
  /-- A compound statement. -/
  | compound (body : Stmt .statements) : Stmt (.statement false)
  /-- An if statement without `else`. -/
  | ifThen {dangling : Bool} (keyword : Spelling "if") (test : Expr .expression)
      (body : Stmt (.statement dangling)) : Stmt (.statement true)
  /-- An if statement with `else`. -/
  | ifElse {dangling : Bool} (keyword : Spelling "if") (test : Expr .expression)
      (body : Stmt (.statement false)) (otherwise : Stmt (.statement dangling)) :
      Stmt (.statement dangling)
  /-- A while statement. -/
  | while {dangling : Bool} (keyword : Spelling "while") (test : Expr .expression)
      (body : Stmt (.statement dangling)) : Stmt (.statement dangling)
  /-- A do-while statement. -/
  | doWhile {dangling : Bool} (body : Stmt (.statement dangling)) (test : Expr .expression) :
      Stmt (.statement false)
  /-- A for statement. -/
  | for {dangling : Bool} (keyword : Spelling "for") (first test step : Expr .expression)
      (body : Stmt (.statement dangling)) : Stmt (.statement dangling)
  /-- A switch statement, with its first clause and the others. -/
  | switch (test : Expr .expression) (keyword : Spelling "case") (number : Numeral)
      (body : Stmt .statements) (rest : Stmt .clauses) : Stmt (.statement false)
  /-- A jump. -/
  | jump (keyword : Jump) : Stmt (.statement false)
  /-- A return statement. -/
  | return (value : Expr .expression) : Stmt (.statement false)
  /-- No statement. -/
  | done : Stmt .statements
  /-- A statement and those after it. -/
  | next {dangling : Bool} (first : Stmt (.statement dangling)) (rest : Stmt .statements) :
      Stmt .statements
  /-- No further clause. -/
  | noClause : Stmt .clauses
  /-- The clause for all other numbers. -/
  | default (keyword : Spelling "default") (body : Stmt .statements) : Stmt .clauses
  /-- A clause for a number, and the clauses after it. -/
  | clause (keyword : Spelling "case") (number : Numeral) (body : Stmt .statements)
      (rest : Stmt .clauses) : Stmt .clauses

namespace Stmt

/-- The branch of a clause for a number. -/
def clauseTree (keyword : Spelling "case") (number : Numeral) (body : List (Tree Label)) :
    Tree Label :=
  phrase .caseClause [word keyword.text, number.leaf, word ":", phrase .statements body]

/-- The branches below that of a statement, those of a sequence, or those of some clauses. -/
def sons : {part : Part} → Stmt part → List (Tree Label)
  | _, .empty => [phrase .expressionStatement [word ";"]]
  | _, .expression value => [phrase .expressionStatement [value.tree, word ";"]]
  | _, .read keyword target => [phrase .readStatement [word keyword.text, target.tree, word ";"]]
  | _, .write keyword value => [phrase .writeStatement [word keyword.text, value.tree, word ";"]]
  | _, .compound body =>
    [phrase .compound [word "\x7b", phrase .statements body.sons, word "\x7d"]]
  | _, .ifThen keyword test body =>
    [phrase .ifStatement
      [word keyword.text, word "(", test.tree, word ")", phrase .statement body.sons]]
  | _, .ifElse keyword test body otherwise =>
    [phrase .ifStatement
      [word keyword.text, word "(", test.tree, word ")", phrase .statement body.sons, word "else",
        phrase .statement otherwise.sons]]
  | _, .while keyword test body =>
    [phrase .whileStatement
      [word keyword.text, word "(", test.tree, word ")", phrase .statement body.sons]]
  | _, .doWhile body test =>
    [phrase .doWhile
      [word "do", phrase .statement body.sons, word "while", word "(", test.tree, word ")",
        word ";"]]
  | _, .for keyword first test step body =>
    [phrase .forStatement
      [word keyword.text, word "(", first.tree, word ";", test.tree, word ";", step.tree, word ")",
        phrase .statement body.sons]]
  | _, .switch test keyword number body rest =>
    [phrase .switchStatement
      ([word "switch", word "(", test.tree, word ")", word "\x7b",
        clauseTree keyword number body.sons] ++ rest.sons ++ [word "\x7d"])]
  | _, .jump keyword => [phrase .jump [word keyword.text, word ";"]]
  | _, .return value => [phrase .returnStatement [word "return", value.tree, word ";"]]
  | _, .done => []
  | _, .next first rest => phrase .statement first.sons :: rest.sons
  | _, .noClause => []
  | _, .default keyword body =>
    [phrase .defaultClause [word keyword.text, word ":", phrase .statements body.sons]]
  | _, .clause keyword number body rest => clauseTree keyword number body.sons :: rest.sons

end Stmt

/-! ### Programs -/

/-- The declaration of one name. -/
inductive Declarator where
  | plain (name : String)
  | initial (name : String) (value : Expr .logical)
  | array (name : String) (length : Numeral)
  | filled (name : String) (length : Numeral) (values : List (Expr .logical))

/-- The branch of a declarator. -/
def Declarator.tree : Declarator → Tree Label
  | .plain name => phrase .declarator [nameLeaf name]
  | .initial name value => phrase .declarator [nameLeaf name, word "=", value.tree]
  | .array name length => phrase .declarator [nameLeaf name, word "[", length.leaf, word "]"]
  | .filled name length values =>
    phrase .declarator
      [nameLeaf name, word "[", length.leaf, word "]", word "=",
        phrase .initializer
          (word "\x7b" :: separatedBy "," (values.map Expr.tree) ++ [word "\x7d"])]

/-- A declaration of one or more names. -/
structure Declaration where
  keyword : Spelling "int"
  first : Declarator
  rest : List Declarator

/-- The branch of a declaration. -/
def Declaration.tree (declaration : Declaration) : Tree Label :=
  phrase .declaration (word declaration.keyword.text ::
    separatedBy "," ((declaration.first :: declaration.rest).map Declarator.tree) ++ [word ";"])

/-- The branch of some declarations. -/
def declarationsTree (declarations : List Declaration) : Tree Label :=
  phrase .declarations (declarations.map Declaration.tree)

/-- The body of a function. -/
structure Body where
  declarations : List Declaration
  steps : Stmt .statements

/-- The branch of a body. -/
def Body.tree (body : Body) : Tree Label :=
  phrase .body [word "\x7b", declarationsTree body.declarations, phrase .statements body.steps.sons,
    word "\x7d"]

/-- A function. -/
structure Function where
  keyword : Spelling "function"
  name : String
  parameters : List String
  body : Body

/-- The branch of a parameter. -/
def parameterTree (name : String) : Tree Label := phrase .parameter [word "int", nameLeaf name]

/-- The branch of a function. -/
def Function.tree (function : Function) : Tree Label :=
  phrase .function
    [word function.keyword.text, nameLeaf function.name, word "(",
      phrase .parameters (separatedBy "," (function.parameters.map parameterTree)), word ")",
      function.body.tree]

/-- A program. -/
structure Program where
  globals : List Declaration
  functions : List Function
  keyword : Spelling "main"
  body : Body

namespace Program

/-- The branch of the main function. -/
def mainTree (program : Program) : Tree Label :=
  phrase .main [word program.keyword.text, word "(", word ")", program.body.tree]

/-- The tree of a program. The branch of the global declarations is left out if there is none. -/
def tree (program : Program) : Tree Label :=
  phrase .program
    ((if program.globals.isEmpty then [] else [declarationsTree program.globals]) ++
      program.functions.map Function.tree ++ [program.mainTree])

/-- The labels of a program in preorder. -/
def labels (program : Program) : List Label := program.tree.listing

end Program

end ScoreLang
