import ScoreLang.Console
import ScoreLang.Token.Basic
import ScoreLang.Tree.SyntaxTree

/-!
# What Is Wrong with a Program Text

A list of tokens that is not a program is rejected with the first thing that is wrong: its line, the
grammar rule at fault and the cause. Token lists that the lexer never writes, those that stop in the
middle of an expression, and those that close more scopes than are open can break the parser itself;
these faults carry no line.
-/

namespace ScoreLang

/-- Why tokens are not a program. -/
inductive GrammarCause where
  | lackLeftParen
  | lackRightParen
  | lackLeftBrace
  | lackRightBrace
  | lackRightBracket
  | lackMain
  | lackFunctionName
  | lackFunctionBody
  | lackInt
  | lackName
  | lackSemicolon
  | lackColon
  | lackCase
  | lackWhile
  | lackOperand
  | lackNumber
  /-- A name is declared twice in a scope. -/
  | redeclared (name : String)
  /-- The program goes on, or stops, where it should not. -/
  | unexpectedEnd (text : String)
  /-- No statement begins with this token. -/
  | unknownStatement (kind : Kind)
  /-- A name is used that no scope holds. -/
  | undeclared (name : String)
  /-- A jump outside of the statements that allow it. -/
  | misplaced (kind : Kind)
  deriving DecidableEq, Repr

/-- The wording of a cause. -/
def GrammarCause.message : GrammarCause → String
  | .lackLeftParen => "缺失左圆括号"
  | .lackRightParen => "缺失右圆括号"
  | .lackLeftBrace => "缺失左大括号"
  | .lackRightBrace => "缺失右大括号"
  | .lackRightBracket => "缺少右方括号"
  | .lackMain => "缺少主函数声明"
  | .lackFunctionName => "缺少函数名"
  | .lackFunctionBody => "缺少函数体"
  | .lackInt => "缺少int关键字"
  | .lackName => "缺少标识符"
  | .lackSemicolon => "缺少分号"
  | .lackColon => "缺少冒号"
  | .lackCase => "缺少case语句"
  | .lackWhile => "缺少while关键字"
  | .lackOperand => "缺少操作数"
  | .lackNumber => "缺少正整数"
  | .redeclared name => "标识符[" ++ name ++ "]：重复声明"
  | .unexpectedEnd text => "意外的结尾[" ++ text ++ "]"
  | .unknownStatement kind => "无法识别的语句:[" ++ kind.text ++ "]"
  | .undeclared name => "变量[" ++ name ++ "]未声明"
  | .misplaced kind => "当前位置不允许使用[" ++ kind.text ++ "]"

/-- An error in a program text. -/
structure GrammarError where
  /-- The line that has been reached. -/
  line : Nat
  /-- The rule at fault. -/
  place : String
  /-- What is wrong. -/
  cause : GrammarCause
  deriving DecidableEq, Repr

/-- The complaint about an error. -/
def GrammarError.complaint (error : GrammarError) : Complaint :=
  .grammatical error.line error.place error.cause.message

/-- Why no tree is built. -/
inductive ParseFault where
  /-- The tokens are not a program. -/
  | error (error : GrammarError)
  /-- A line of the token list lacks a kind or a spelling. -/
  | missingWord
  /-- The tokens end where an operator is looked for. -/
  | endOfTokens
  /-- A name or the end of a scope is met where no scope is open. -/
  | noScope
  /-- The tokens are nested more deeply than there are tokens; this does not arise. -/
  | exhausted
  deriving DecidableEq, Repr

end ScoreLang
