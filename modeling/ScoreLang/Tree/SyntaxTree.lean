import ScoreLang.Text.Blank
import ScoreLang.Tree.Basic

/-!
# Syntax Trees

The nodes of a syntax tree carry a label and the number of the line in which they were found. A
branch is labelled with the grammar rule that it stands for, a leaf with a name, a number or another
word of the program.

A label is a text as far as the outline of a tree is concerned, and every text is a label:
`Label.ofText` finds the form that a text has.
-/

namespace ScoreLang

/-- The rules of the grammar. -/
inductive Rule where
  | program
  | function
  | parameters
  | parameter
  | main
  | body
  | returnStatement
  | declarations
  | declaration
  | declarator
  | initializer
  | statements
  | statement
  | jump
  | switchStatement
  | caseClause
  | defaultClause
  | ifStatement
  | whileStatement
  | forStatement
  | writeStatement
  | readStatement
  | compound
  | expressionStatement
  | call
  | arguments
  | expression
  | logical
  | doWhile
  | sum
  | product
  | factor
  | variable
  deriving DecidableEq, Repr

namespace Rule

/-- The name of a rule. -/
def name : Rule → String
  | .program => "程序"
  | .function => "函数声明"
  | .parameters => "参数列表"
  | .parameter => "参数声明"
  | .main => "主函数"
  | .body => "函数体"
  | .returnStatement => "return语句"
  | .declarations => "声明序列"
  | .declaration => "声明语句"
  | .declarator => "单一声明语句"
  | .initializer => "数组初始化语句"
  | .statements => "语句序列"
  | .statement => "语句"
  | .jump => "break、continue语句"
  | .switchStatement => "switch语句"
  | .caseClause => "case语句"
  | .defaultClause => "default语句"
  | .ifStatement => "if语句"
  | .whileStatement => "while语句"
  | .forStatement => "for语句"
  | .writeStatement => "write语句"
  | .readStatement => "read语句"
  | .compound => "复合语句"
  | .expressionStatement => "表达式语句"
  | .call => "call语句"
  | .arguments => "实参列表"
  | .expression => "表达式"
  | .logical => "布尔表达式"
  | .doWhile => "do-while语句"
  | .sum => "算术表达式"
  | .product => "项"
  | .factor => "因子"
  | .variable => "标识符语句"

/-- The name of a rule in angle brackets. -/
def text (rule : Rule) : String :=
  "<" ++ rule.name ++ ">"

/-- All rules. -/
def all : List Rule :=
  [.program, .function, .parameters, .parameter, .main, .body, .returnStatement, .declarations,
    .declaration, .declarator, .initializer, .statements, .statement, .jump, .switchStatement,
    .caseClause, .defaultClause, .ifStatement, .whileStatement, .forStatement, .writeStatement,
    .readStatement, .compound, .expressionStatement, .call, .arguments, .expression, .logical,
    .doWhile, .sum, .product, .factor, .variable]

end Rule

/-- The label of a node. -/
inductive Label where
  /-- A grammar rule. -/
  | rule (form : Rule)
  /-- A name of the program. -/
  | name (identifier : String)
  /-- A number of the program. -/
  | number (digits : String)
  /-- Any other text. -/
  | word (spelling : String)
  deriving DecidableEq, Repr

namespace Label

/-- What precedes a name in the text of its label. -/
def nameMark : String := "ID  "

/-- What precedes a number in the text of its label. -/
def numberMark : String := "NUM  "

/-- The text of a label. -/
def text : Label → String
  | .rule form => form.text
  | .name identifier => nameMark ++ identifier
  | .number digits => numberMark ++ digits
  | .word spelling => spelling

/-- The part of a text after a mark, if it is a single word. -/
def afterMark? (mark text : String) : Option String :=
  if mark.toList.isPrefixOf text.toList then
    let rest := text.toList.drop mark.length
    if rest.isEmpty || rest.any Text.isBlank then none else some (String.ofList rest)
  else none

/-- The label with the given text. -/
def ofText (text : String) : Label :=
  match Rule.all.find? fun form => form.text == text with
  | some form => .rule form
  | none =>
    match afterMark? nameMark text, afterMark? numberMark text with
    | some identifier, _ => .name identifier
    | none, some digits => .number digits
    | none, none => .word text

/-- The second word of a label. -/
def argument? : Label → Option String
  | .rule _ => none
  | .name identifier => some identifier
  | .number digits => some digits
  | .word spelling => (Text.words spelling)[1]?

/-- Whether the text of a label begins with the given characters. -/
def beginsWith (start : String) (label : Label) : Bool :=
  start.toList.isPrefixOf label.text.toList

end Label

/-- A node of a syntax tree. -/
structure Node where
  label : Label
  /-- The line in which the node was found. -/
  line : Nat
  /-- Whether the node is a leaf. -/
  leaf : Bool
  deriving DecidableEq, Repr

/-- A node in the outline of a tree: a bar for each level above it, a mark for leaves and branches,
and its label. -/
def Node.outline (depth : Nat) (node : Node) : String :=
  String.join (List.replicate depth "| ") ++ (if node.leaf then "▷·· " else "▼~") ++
    node.label.text ++ "\n"

/-- A syntax tree. -/
abbrev SyntaxTree := Tree Node

namespace SyntaxTree

/-- A leaf. -/
def leaf (label : Label) (line : Nat) : SyntaxTree := .node ⟨label, line, true⟩ []

/-- A branch. -/
def branch (rule : Rule) (line : Nat) (sons : List SyntaxTree) : SyntaxTree :=
  .node ⟨.rule rule, line, false⟩ sons

/-- The outline of a tree: a line for each node, in preorder. -/
def outline (tree : SyntaxTree) : String :=
  tree.preorder.foldl (fun shown entry => shown ++ entry.2.outline entry.1) ""

end SyntaxTree

end ScoreLang
