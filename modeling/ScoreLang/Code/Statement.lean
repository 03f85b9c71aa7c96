import ScoreLang.Code.Expression

/-!
# Code of Statements

A rule that contains a statement is given the generator of statements as a parameter; `statement`
closes the circle, with a bound on the depth.

`break` and `continue` go to the labels that were set last: a loop sets both, a switch the first.
-/

namespace ScoreLang.Generate

/-- A return statement. -/
def returnStatement (limit : Nat) : Generate Unit := do
  enter .returnStatement 2
  expression limit
  pass ";" 1
  perform .store (← get).resultCell
  act .pop

/-- A write statement. -/
def writeStatement (limit : Nat) : Generate Unit := do
  enter .writeStatement 2
  expression limit
  act .output
  shift 1

/-- A read statement. -/
def readStatement : Generate Unit := do
  enter .readStatement 2
  let cell ← cellOf
  act .input
  perform .store cell
  act .pop
  shift 1

/-- An expression followed by a semicolon; its value is dropped. After a semicolon alone one more
node is passed. -/
def expressionStatement (limit : Nat) : Generate Unit := do
  enter .expressionStatement 1
  if ← atWord? ";" then shift 1
  else
    expression limit
    act .pop
  shift 1

/-- The operand of a jump: the name of a label, or what stands for a missing one. -/
def jumpTarget (label : Option String) : String := label.getD "None"

/-- A `break` or `continue`. -/
def jump : Generate Unit := do
  enter .jump 1
  let state ← get
  if state.breakLabel.isNone ∧ state.continueLabel.isNone then throw .unexpectedNode
  if ← atWord? "break" then perform .branch (jumpTarget state.breakLabel)
  else perform .branch (jumpTarget state.continueLabel)
  shift 2

/-- One statement after the other. -/
def steps (statement : Generate Unit) (limit : Nat) : Generate Unit :=
  repeatWhile (atRule? .statement) (fun _ => statement) limit ()

/-- A sequence of statements. -/
def statements (statement : Generate Unit) (limit : Nat) : Generate Unit := do
  enter .statements 1
  if ← atRule? .statement then steps statement limit else warn .noStatements

/-- A compound statement. -/
def compound (statement : Generate Unit) (limit : Nat) : Generate Unit := do
  enter .compound 2
  statements statement limit
  pass "\x7d" 1

/-- Sets the labels at which `break` and `continue` go on. -/
def setJumps (breakLabel continueLabel : String) : Generate Unit :=
  modify fun generator =>
    { generator with breakLabel := some breakLabel, continueLabel := some continueLabel }

/-- Sets the label at which `break` goes on. -/
def setBreak (breakLabel : String) : Generate Unit :=
  modify fun generator => { generator with breakLabel := some breakLabel }

/-- An if statement. -/
def ifStatement (statement : Generate Unit) (limit : Nat) : Generate Unit := do
  enter .ifStatement 3
  expression limit
  let elseLabel ← newLabel
  let endLabel ← newLabel
  perform .branchFalse elseLabel
  pass ")" 1
  statement
  perform .branch endLabel
  place elseLabel
  if ← atWord? "else" then
    shift 1
    statement
  place endLabel

/-- A while statement. -/
def whileStatement (statement : Generate Unit) (limit : Nat) : Generate Unit := do
  enter .whileStatement 3
  let startLabel ← newLabel
  let endLabel ← newLabel
  place startLabel
  expression limit
  perform .branchFalse endLabel
  pass ")" 1
  setJumps endLabel startLabel
  statement
  perform .branch startLabel
  place endLabel

/-- A do-while statement. -/
def doWhile (statement : Generate Unit) (limit : Nat) : Generate Unit := do
  enter .doWhile 2
  let startLabel ← newLabel
  let endLabel ← newLabel
  setJumps endLabel startLabel
  place startLabel
  statement
  if ["while", "while\n"].contains (← label).text then shift 2 else throw .unexpectedNode
  expression limit
  perform .branchFalse endLabel
  perform .branch startLabel
  place endLabel
  pass ")" 2

/-- A for statement. -/
def forStatement (statement : Generate Unit) (limit : Nat) : Generate Unit := do
  enter .forStatement 3
  let testLabel ← newLabel
  let bodyLabel ← newLabel
  let stepLabel ← newLabel
  let endLabel ← newLabel
  expression limit
  pass ";" 1
  place testLabel
  expression limit
  pass ";" 1
  perform .branchFalse endLabel
  perform .branch bodyLabel
  place stepLabel
  expression limit
  pass ")" 1
  perform .branch testLabel
  place bodyLabel
  setJumps endLabel stepLabel
  statement
  perform .branch stepLabel
  place endLabel

/-- What is known between two clauses of a switch. -/
structure Clauses where
  /-- The label of the next test. -/
  test : String
  /-- The label of the next sequence of statements. -/
  body : String
  /-- The numbers of the clauses so far. -/
  numbers : List String
  deriving DecidableEq, Repr

/-- A clause of a switch for a number. The first clause finds the value of the switch on the stack;
every other one repeats the command that has put it there. -/
def caseClause (statement : Generate Unit) (limit : Nat) (scrutinee : List CodeLine)
    (before : Option Clauses) : Generate Clauses := do
  enter .caseClause 2
  let nextTest ← newLabel
  let nextBody ← newLabel
  if let some clauses := before then
    place clauses.test
    emit scrutinee
  let number ← argument
  let numbers := (before.map (·.numbers)).getD []
  if numbers.contains number then fail .caseClause .repeatedCase
  perform .push number
  act .equal
  perform .branchFalse nextTest
  if let some clauses := before then place clauses.body
  shift 2
  statements statement limit
  perform .branch nextBody
  return ⟨nextTest, nextBody, number :: numbers⟩

/-- The clauses of a switch after the first one, at most `count` of them. -/
def furtherClauses (statement : Generate Unit) (limit : Nat) (scrutinee : List CodeLine)
    (count : Nat) (first : Clauses) : Generate Clauses :=
  repeatWhile (atRule? .caseClause)
    (fun clauses => caseClause statement limit scrutinee (some clauses)) count first

/-- The clause of a switch for all other numbers. -/
def defaultClause (statement : Generate Unit) (limit : Nat) : Generate Unit := do
  enter .defaultClause 3
  statements statement limit

/-- A switch statement. -/
def switchStatement (statement : Generate Unit) (limit : Nat) : Generate Unit := do
  enter .switchStatement 3
  let endLabel ← newLabel
  setBreak endLabel
  expression limit
  let scrutinee := (← get).last
  shift 2
  let first ← caseClause statement limit scrutinee none
  let clauses ← furtherClauses statement limit scrutinee limit first
  place clauses.test
  place clauses.body
  if ← atRule? .defaultClause then defaultClause statement limit
  place endLabel
  pass "\x7d" 1

/-- The form of a statement with the given label. -/
def statementForm (statement : Generate Unit) (limit : Nat) (label : Label) : Generate Unit :=
  match label with
  | .rule .ifStatement => ifStatement statement limit
  | .rule .whileStatement => whileStatement statement limit
  | .rule .forStatement => forStatement statement limit
  | .rule .writeStatement => writeStatement limit
  | .rule .readStatement => readStatement
  | .rule .compound => compound statement limit
  | .rule .expressionStatement => expressionStatement limit
  | .rule .call => call (expression limit) limit
  | .rule .returnStatement => returnStatement limit
  | .rule .jump => jump
  | .rule .switchStatement => switchStatement statement limit
  | .rule .doWhile => doWhile statement limit
  | label => throw (.unknownStatement label)

/-- A statement with at most `depth` levels of statements below it. Every level takes at least one
node, so that `depth` may be the number of nodes that are left. -/
def statement : Nat → Generate Unit
  | 0 => throw .exhausted
  | depth + 1 => do
    enter .statement 1
    statementForm (statement depth) (depth + 1) (← label)

end ScoreLang.Generate
