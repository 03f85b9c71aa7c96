import ScoreLang.Parse.Expression

/-!
# Statements

The rules of statements. A rule that contains a statement is given the parser of statements as a
parameter, which in turn is told whether `break` and `continue` may stand there: they may stand
directly in the body of a loop and in the clauses of a switch, also in compound statements there,
but not below an `if`. `statement` closes the circle, with a bound on the depth.
-/

namespace ScoreLang.Parse

/-- A parenthesised expression and the word after it. The parenthesis must follow the current
word. -/
def condition (rule : Rule) (limit : Nat) : Parse (List SyntaxTree) := do
  let opening ← nextLeaf .leftParen .lackLeftParen rule
  readWord
  let test ← expression limit
  let closing ← expectLeaf .rightParen .lackRightParen rule
  return [opening, test, closing]

/-- The semicolon at the current word; reads the word after it. -/
def semicolon (rule : Rule) : Parse SyntaxTree := do
  let sign ← expectLeaf .semicolon .lackSemicolon rule
  readWord
  return sign

/-- The right brace at the current word; reads the word after it. -/
def rightBrace (rule : Rule) : Parse SyntaxTree := do
  let sign ← expectLeaf .rightBrace .lackRightBrace rule
  readWord
  return sign

/-- A return statement. -/
def returnStatement (limit : Nat) : Parse SyntaxTree :=
  branch .returnStatement do
    let keyword ← kindLeaf .kwReturn
    readWord
    let result ← expression limit
    return [keyword, result, ← semicolon .returnStatement]

/-- A write statement. -/
def writeStatement (limit : Nat) : Parse SyntaxTree :=
  branch .writeStatement do
    let keyword ← spelledLeaf
    readWord
    let output ← expression limit
    return [keyword, output, ← semicolon .writeStatement]

/-- A read statement. -/
def readStatement : Parse SyntaxTree :=
  branch .readStatement do
    let keyword ← spelledLeaf
    readWord
    let _ ← expect .name .lackName .readStatement
    let (target, _) ← reference
    return [keyword, target, ← semicolon .readStatement]

/-- An expression followed by a semicolon, or a semicolon alone. -/
def expressionStatement (limit : Nat) : Parse SyntaxTree :=
  branch .expressionStatement do
    if ← at? .semicolon then return [← semicolon .expressionStatement]
    else
      let value ← expression limit
      return [value, ← semicolon .expressionStatement]

/-- A `break` or `continue`. -/
def jump : Parse SyntaxTree :=
  branch .jump do
    let keyword ← spelledLeaf
    readWord
    return [keyword, ← semicolon .jump]

/-- The kinds of words that end a sequence of statements. -/
def statementsEnd : List Kind := [.rightBrace, .kwCase, .kwDefault]

/-- A sequence of statements, up to a word that ends it. -/
def statements (statement : Bool → Parse SyntaxTree) (jumps : Bool) (limit : Nat) :
    Parse SyntaxTree :=
  branch .statements
    (many (return !(← atAny? statementsEnd)) (return [← statement jumps]) limit)

/-- A compound statement. -/
def compound (statement : Bool → Parse SyntaxTree) (jumps : Bool) (limit : Nat) :
    Parse SyntaxTree :=
  branch .compound do
    let opening ← kindLeaf .leftBrace
    readWord
    let body ← statements statement jumps limit
    return [opening, body, ← rightBrace .compound]

/-- A clause of a switch for a number. -/
def caseClause (statement : Bool → Parse SyntaxTree) (limit : Nat) : Parse SyntaxTree :=
  branch .caseClause do
    let keyword ← spelledLeaf
    let (_, number) ← nextNumber .caseClause
    let colon ← nextLeaf .colon .lackColon .caseClause
    readWord
    return [keyword, number, colon, ← statements statement true limit]

/-- The clause of a switch for all other numbers. -/
def defaultClause (statement : Bool → Parse SyntaxTree) (limit : Nat) : Parse SyntaxTree :=
  branch .defaultClause do
    let keyword ← spelledLeaf
    let colon ← nextLeaf .colon .lackColon .defaultClause
    readWord
    return [keyword, colon, ← statements statement true limit]

/-- A switch statement. -/
def switchStatement (statement : Bool → Parse SyntaxTree) (limit : Nat) : Parse SyntaxTree :=
  branch .switchStatement do
    let keyword ← kindLeaf .kwSwitch
    let test ← condition .switchStatement limit
    let opening ← nextLeaf .leftBrace .lackLeftBrace .switchStatement
    readWord
    let _ ← expect .kwCase .lackCase .switchStatement
    let clauses ← many (at? .kwCase) (return [← caseClause statement limit]) limit
    let otherwise ←
      if ← at? .kwDefault then pure [← defaultClause statement limit] else pure []
    let closing ← rightBrace .switchStatement
    return keyword :: test ++ opening :: clauses ++ otherwise ++ [closing]

/-- An if statement. -/
def ifStatement (statement : Bool → Parse SyntaxTree) (limit : Nat) : Parse SyntaxTree :=
  branch .ifStatement do
    let keyword ← spelledLeaf
    let test ← condition .ifStatement limit
    readWord
    let body ← statement false
    let otherwise ←
      if ← at? .kwElse then do
        let keyword ← kindLeaf .kwElse
        readWord
        pure [keyword, ← statement false]
      else pure []
    return keyword :: test ++ body :: otherwise

/-- A while statement. -/
def whileStatement (statement : Bool → Parse SyntaxTree) (limit : Nat) : Parse SyntaxTree :=
  branch .whileStatement do
    let keyword ← spelledLeaf
    let test ← condition .whileStatement limit
    readWord
    return keyword :: test ++ [← statement true]

/-- A do-while statement. -/
def doWhile (statement : Bool → Parse SyntaxTree) (limit : Nat) : Parse SyntaxTree :=
  branch .doWhile do
    let keyword ← kindLeaf .kwDo
    readWord
    let body ← statement true
    let again ← expectLeaf .kwWhile .lackWhile .doWhile
    let test ← condition .doWhile limit
    readWord
    return keyword :: body :: again :: test ++ [← semicolon .doWhile]

/-- A for statement. -/
def forStatement (statement : Bool → Parse SyntaxTree) (limit : Nat) : Parse SyntaxTree :=
  branch .forStatement do
    let keyword ← spelledLeaf
    let opening ← nextLeaf .leftParen .lackLeftParen .forStatement
    readWord
    let first ← expression limit
    let firstEnd ← semicolon .forStatement
    let test ← expression limit
    let testEnd ← semicolon .forStatement
    let step ← expression limit
    let closing ← expectLeaf .rightParen .lackRightParen .forStatement
    readWord
    return [keyword, opening, first, firstEnd, test, testEnd, step, closing, ← statement true]

/-- The form of the statement that begins with a word of the given kind. -/
def statementForm (statement : Bool → Parse SyntaxTree) (jumps : Bool) (limit : Nat) (kind : Kind) :
    Parse SyntaxTree :=
  match kind with
  | .kwIf => ifStatement statement limit
  | .kwWhile => whileStatement statement limit
  | .kwDo => doWhile statement limit
  | .kwFor => forStatement statement limit
  | .kwWrite => writeStatement limit
  | .kwRead => readStatement
  | .leftBrace => compound statement jumps limit
  | .name | .number | .leftParen | .semicolon | .kwCall => expressionStatement limit
  | .kwReturn => returnStatement limit
  | .kwBreak | .kwContinue =>
    if jumps then jump else fail Rule.statement.text (.misplaced kind)
  | .kwSwitch => switchStatement statement limit
  | _ => fail Rule.statement.text (.unknownStatement kind)

/-- What is said if the tokens end where a statement should begin. -/
def incompleteProgram : String := "程序可能不完整"

/-- A statement with at most `depth` levels of statements below it. Every level takes at least one
word, so that `depth` may be the number of words that are left. -/
def statement : Nat → Bool → Parse SyntaxTree
  | 0, _ => throw .exhausted
  | depth + 1, jumps =>
    branch .statement do
      match (← get).word with
      | none => fail Rule.statement.text (.unexpectedEnd incompleteProgram)
      | some token => return [← statementForm (statement depth) jumps (depth + 1) token.kind]

end ScoreLang.Parse
