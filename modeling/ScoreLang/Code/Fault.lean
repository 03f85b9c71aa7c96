import ScoreLang.Console
import ScoreLang.Text.Integer
import ScoreLang.Tree.SyntaxTree

/-!
# What Is Wrong with the Meaning of a Program

A syntax tree can lack a meaning: an index out of range, a variable used as an array, a repeated
case, a call that does not fit. These errors have a line and a rule at fault. The other faults are
those of a tree that does not have the shape of a program, and of numbers that are too long.
-/

namespace ScoreLang

/-- Why a program has no meaning. -/
inductive SemanticCause where
  /-- An index beyond the last one. -/
  | indexRange (last index : String)
  /-- A variable is used as an array. -/
  | notArray (name : String)
  /-- Two clauses of a switch are for the same number. -/
  | repeatedCase
  /-- The arguments of a call do not match the parameters. -/
  | argumentCount
  /-- What is called is not a function. -/
  | notFunction (name : String)
  deriving DecidableEq, Repr

/-- The wording of a cause. -/
def SemanticCause.message : SemanticCause → String
  | .indexRange last index => "数组下标越界，最大值：[" ++ last ++ "]，当前值:[" ++ index ++ "]"
  | .notArray name => "变量[" ++ name ++ "]不是数组"
  | .repeatedCase => "重复的条件"
  | .argumentCount => "没有参数列表或参数数目不匹配"
  | .notFunction name => "[" ++ name ++ "]不可被调用"

/-- An error in the meaning of a program. -/
structure SemanticError where
  /-- The line of the node that has been reached. -/
  line : Nat
  /-- The rule at fault. -/
  place : Rule
  /-- What is wrong. -/
  cause : SemanticCause
  deriving DecidableEq, Repr

/-- The complaint about an error. -/
def SemanticError.complaint (error : SemanticError) : Complaint :=
  .semantic error.line error.place.text error.cause.message

/-- Why no code is generated. -/
inductive CodeFault where
  /-- The program has no meaning. -/
  | error (error : SemanticError)
  /-- The node is not the one that must stand there. -/
  | unexpectedNode
  /-- The tree has ended. -/
  | noNode
  /-- A label lacks its second word, an operand a character, or an entry its size. -/
  | missingPart
  /-- A name is not declared. -/
  | undeclared
  /-- A sign stands for no operation. -/
  | unknownSign
  /-- A number cannot be read or written. -/
  | integer (fault : Text.IntegerFault)
  /-- No form of statement has this label. -/
  | unknownStatement (label : Label)
  /-- No form of operand has this label. -/
  | unknownOperand (label : Label)
  /-- The outermost scope cannot be left. -/
  | outermostScope
  /-- The tree has fewer nodes than the rules need; this does not arise. -/
  | exhausted
  deriving DecidableEq, Repr

/-- The wording of a fault, if it has one. -/
def CodeFault.message? : CodeFault → Option String
  | .error problem => some problem.complaint.text
  | .integer fault => some fault.message
  | .unknownStatement label => some ("无法识别的语句, " ++ label.text)
  | .unknownOperand label => some ("当前节点未成功回溯, " ++ label.text)
  | .outermostScope => some "已退至顶级作用域"
  | _ => none

/-- What the user is warned about. -/
inductive Warning where
  /-- A sequence of declarations is empty. -/
  | noDeclarations
  /-- A sequence of statements is empty. -/
  | noStatements
  /-- An array is given more values than it has elements. -/
  | surplusValue
  deriving DecidableEq, Repr

/-- The wording of a warning. -/
def Warning.message : Warning → String
  | .noDeclarations => "声明序列中没有声明语句"
  | .noStatements => "语句序列中没有语句"
  | .surplusValue => "数组赋值语句存在多余的数据"

end ScoreLang
