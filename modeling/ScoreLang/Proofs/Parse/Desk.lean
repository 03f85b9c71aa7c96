import ScoreLang.Parse.Program
import ScoreLang.Tree.Workbench

/-!
# The Parser at its Desk

The rules of the grammar again, as moves on one tree that is never out of sight. A rule adds a
branch to the tree on the workbench and builds below it; when it ends, the node being built must be
its own, and building goes on at the node above. A variable that turns out not to be assigned to is
already on the tree when it is taken back, and its branch is cut off again.

A desk keeps a journal: of every word that is read, of words taken back, of rules begun and ended.
The journal stays when the parser fails, so that what it says holds of every run.

Nothing in this module is a function of trees. That the tree on the workbench is the one that
`ScoreLang.parse` returns is proved, not built in.
-/

namespace ScoreLang

namespace Desk

/-- An entry of the journal. -/
inductive Event where
  /-- In this state, the next word is asked for. -/
  | read (state : Parse.State)
  /-- Words were taken back, which led to this state. -/
  | takenBack (state : Parse.State)
  /-- In this state, a rule begins. -/
  | begun (rule : Rule) (state : Parse.State)
  /-- A rule ends. The node being built was at the place `before` when the rule began, and is at the
  place `after` now. -/
  | ended (rule : Rule) (before after : List Nat)

/-- Whether a word is asked for. -/
def Event.isRead : Event → Bool
  | .read _ => true
  | _ => false

/-- Why work at a desk stops. -/
inductive Fault where
  /-- The tokens are rejected. -/
  | rejected (fault : ParseFault)
  /-- The workbench refuses a move. -/
  | refused (fault : Workbench.Fault)
  /-- A rule ends while another node than its own is being built. -/
  | displaced (rule : Rule)
  deriving DecidableEq

end Desk

/-- The words of a program, the tree that is built from them, and the journal. -/
structure Desk where
  /-- What the parser has read. -/
  state : Parse.State
  /-- The tree. -/
  bench : Workbench
  /-- What has happened, in the order of time. -/
  journal : List Desk.Event

/-- The desk before the first word is read. The tree is a root without sons. -/
def Desk.initial (lines : List TokenLine) : Desk :=
  ⟨.initial lines, .ofRoot (.rule .program), []⟩

/-- Work at a desk. -/
abbrev Work := ExceptT Desk.Fault (StateM Desk)

namespace Work

/-! ### Moves -/

/-- Makes an entry in the journal. -/
def note (event : Desk.Event) : Work Unit :=
  modify fun desk => { desk with journal := desk.journal ++ [event] }

/-- An action of the parser that neither reads a word nor makes a node. -/
def look {α : Type} (action : Parse α) : Work α := do
  match action.run (← get).state with
  | .ok (result, state) =>
    modify fun desk => { desk with state := state }
    return result
  | .error fault => throw (.rejected fault)

/-- A move of the workbench. -/
def move (action : Workbench → Except Workbench.Fault Workbench) : Work Unit := do
  match action (← get).bench with
  | .ok bench => modify fun desk => { desk with bench := bench }
  | .error fault => throw (.refused fault)

/-- Moves on to the next word. -/
def readWord : Work Unit := do
  note (.read (← get).state)
  look Parse.readWord

/-- Takes words back, as `Parse.takeBack` does. -/
def takeBack (token : Token) (words : List Token) : Work Unit := do
  look (Parse.takeBack token words)
  note (.takenBack (← get).state)

/-- Cuts off the last son of the node being built. -/
def cutOff : Work Unit :=
  move Workbench.dropLast

/-- Adds a leaf to the node being built. -/
def leaf (label : Label) : Work Unit :=
  modify fun desk => { desk with bench := desk.bench.addLeaf label desk.state.line }

/-- Begins a rule: adds a branch, and goes on building there. -/
def enter (rule : Rule) : Work Unit := do
  note (.begun rule (← get).state)
  modify fun desk => { desk with bench := desk.bench.addBranch (.rule rule) desk.state.line }

/-- Ends a rule that began when the node at `before` was being built. The node being built must be
that of the rule. -/
def leave (rule : Rule) (before : List Nat) : Work Unit := do
  if (← get).bench.current.any fun entry => entry.2.node.label == .rule rule then
    move Workbench.back
    note (.ended rule before (← get).bench.building)
  else throw (.displaced rule)

/-- Builds a branch. -/
def branch {α : Type} (rule : Rule) (sons : Work α) : Work α := do
  let before := (← get).bench.building
  enter rule
  let result ← sons
  leave rule before
  return result

/-- Whether the current word is of the given kind. -/
def at? (kind : Kind) : Work Bool :=
  look (Parse.at? kind)

/-- Whether the current word is of one of the given kinds. -/
def atAny? (kinds : List Kind) : Work Bool :=
  look (Parse.atAny? kinds)

/-- The current word. -/
def word : Work (Option Token) := do
  return (← get).state.word

/-- The spelling of the current word. -/
def spelling : Work String :=
  look Parse.spelling

/-- The current word, which must be of the given kind. -/
def expect (kind : Kind) (cause : GrammarCause) (rule : Rule) : Work Token :=
  look (Parse.expect kind cause rule)

/-- A leaf for the current word as it is spelled. -/
def spelledLeaf : Work Unit := do
  leaf (.ofText (← spelling))

/-- A leaf for a sign or a reserved word. -/
def kindLeaf (kind : Kind) : Work Unit :=
  leaf (.word kind.text)

/-- A leaf for the current word, which must be of the given kind. -/
def expectLeaf (kind : Kind) (cause : GrammarCause) (rule : Rule) : Work Unit := do
  let _ ← expect kind cause rule
  kindLeaf kind

/-- Reads a word, which must be of the given kind, and adds a leaf for it. -/
def nextLeaf (kind : Kind) (cause : GrammarCause) (rule : Rule) : Work Unit := do
  readWord
  expectLeaf kind cause rule

/-- Reads a number and adds a leaf for it. Returns the number as it is spelled. -/
def nextNumber (rule : Rule) : Work String := do
  readWord
  let token ← expect .number .lackNumber rule
  leaf (.number token.spelling)
  return token.spelling

/-- Reads a name and adds a leaf for it. Returns the name. -/
def nextName (cause : GrammarCause) (rule : Rule) : Work String := do
  readWord
  let token ← expect .name cause rule
  leaf (.name token.spelling)
  return token.spelling

/-- Repeats `round` as long as `continues` says so, at most `limit` times. -/
def many (continues : Work Bool) (round : Work Unit) : Nat → Work Unit
  | 0 => do if ← continues then throw (.rejected .exhausted)
  | limit + 1 => do
    if ← continues then
      round
      many continues round limit

/-- A list with commas between its elements. -/
def separated (limit : Nat) (element : Work Unit) : Work Unit := do
  element
  many (at? .comma) (do
    kindLeaf .comma
    readWord
    element) limit

/-! ### Expressions -/

/-- A variable or an element of an array. Returns the index as it is spelled. -/
def reference : Work (Option String) :=
  branch .variable do
    let name ← spelling
    leaf (.name name)
    look (Parse.checkDeclared name Rule.variable.name)
    readWord
    if ← at? .leftBracket then
      kindLeaf .leftBracket
      let index ← nextNumber .variable
      nextLeaf .rightBracket .lackRightBracket .variable
      readWord
      return some index
    else return none

/-- The arguments of a call. -/
def arguments (expression : Work Unit) (limit : Nat) : Work Unit :=
  branch .arguments (separated limit expression)

/-- The call of a function. -/
def call (expression : Work Unit) (limit : Nat) : Work Unit :=
  branch .call do
    kindLeaf .kwCall
    let name ← nextName .lackName .call
    look (Parse.checkDeclared name Rule.call.text)
    nextLeaf .leftParen .lackLeftParen .call
    readWord
    if ← at? .rightParen then pure ()
    else
      arguments expression limit
      let _ ← expect .rightParen .lackRightParen .call
    kindLeaf .rightParen
    readWord

/-- An operand. -/
def factor (expression : Work Unit) (limit : Nat) : Work Unit :=
  branch .factor do
    if ← at? .leftParen then
      kindLeaf .leftParen
      readWord
      expression
      expectLeaf .rightParen .lackRightParen .factor
      readWord
    else if ← at? .kwCall then call expression limit
    else if ← at? .name then
      let _ ← reference
    else
      let token ← expect .number .lackOperand .factor
      leaf (.number token.spelling)
      readWord

/-- Operands joined by multiplication and division. -/
def product (expression : Work Unit) (limit : Nat) : Work Unit :=
  branch .product do
    factor expression limit
    many (atAny? [.times, .slash]) (do
      if ← at? .times then kindLeaf .times else kindLeaf .slash
      readWord
      factor expression limit) limit

/-- Products joined by addition and subtraction. -/
def sum (expression : Work Unit) (limit : Nat) : Work Unit :=
  branch .sum do
    product expression limit
    many (atAny? [.plus, .minus]) (do
      spelledLeaf
      readWord
      product expression limit) limit

/-- A sum, or two sums joined by a comparison or a logical operator. -/
def logical (expression : Work Unit) (limit : Nat) : Work Unit :=
  branch .logical do
    sum expression limit
    match ← word with
    | none => throw (.rejected .endOfTokens)
    | some token =>
      if token.kind.isLogic then
        spelledLeaf
        readWord
        sum expression limit

/-- An assignment, or an expression without one. The variable is built in either case. -/
def assignment (expression : Work Unit) (limit : Nat) : Work Unit :=
  branch .expression do
    if ← at? .name then
      let name ← spelling
      let index ← reference
      if ← at? .assign then
        readWord
        kindLeaf .assign
        logical expression limit
      else
        takeBack ⟨.name, name⟩ (Parse.indexWords index)
        cutOff
        logical expression limit
    else logical expression limit

/-- An expression with at most `depth` levels of parentheses and arguments. -/
def expression : Nat → Work Unit
  | 0 => throw (.rejected .exhausted)
  | depth + 1 => assignment (expression depth) (depth + 1)

/-! ### Statements -/

/-- A parenthesised expression. -/
def condition (rule : Rule) (limit : Nat) : Work Unit := do
  nextLeaf .leftParen .lackLeftParen rule
  readWord
  expression limit
  expectLeaf .rightParen .lackRightParen rule

/-- The semicolon at the current word; reads the word after it. -/
def semicolon (rule : Rule) : Work Unit := do
  expectLeaf .semicolon .lackSemicolon rule
  readWord

/-- The right brace at the current word; reads the word after it. -/
def rightBrace (rule : Rule) : Work Unit := do
  expectLeaf .rightBrace .lackRightBrace rule
  readWord

/-- A return statement. -/
def returnStatement (limit : Nat) : Work Unit :=
  branch .returnStatement do
    kindLeaf .kwReturn
    readWord
    expression limit
    semicolon .returnStatement

/-- A write statement. -/
def writeStatement (limit : Nat) : Work Unit :=
  branch .writeStatement do
    spelledLeaf
    readWord
    expression limit
    semicolon .writeStatement

/-- A read statement. -/
def readStatement : Work Unit :=
  branch .readStatement do
    spelledLeaf
    readWord
    let _ ← expect .name .lackName .readStatement
    let _ ← reference
    semicolon .readStatement

/-- An expression followed by a semicolon, or a semicolon alone. -/
def expressionStatement (limit : Nat) : Work Unit :=
  branch .expressionStatement do
    if ← at? .semicolon then semicolon .expressionStatement
    else
      expression limit
      semicolon .expressionStatement

/-- A `break` or `continue`. -/
def jump : Work Unit :=
  branch .jump do
    spelledLeaf
    readWord
    semicolon .jump

/-- A sequence of statements, up to a word that ends it. -/
def statements (statement : Bool → Work Unit) (jumps : Bool) (limit : Nat) : Work Unit :=
  branch .statements
    (many (return !(← atAny? Parse.statementsEnd)) (statement jumps) limit)

/-- A compound statement. -/
def compound (statement : Bool → Work Unit) (jumps : Bool) (limit : Nat) : Work Unit :=
  branch .compound do
    kindLeaf .leftBrace
    readWord
    statements statement jumps limit
    rightBrace .compound

/-- A clause of a switch for a number. -/
def caseClause (statement : Bool → Work Unit) (limit : Nat) : Work Unit :=
  branch .caseClause do
    spelledLeaf
    let _ ← nextNumber .caseClause
    nextLeaf .colon .lackColon .caseClause
    readWord
    statements statement true limit

/-- The clause of a switch for all other numbers. -/
def defaultClause (statement : Bool → Work Unit) (limit : Nat) : Work Unit :=
  branch .defaultClause do
    spelledLeaf
    nextLeaf .colon .lackColon .defaultClause
    readWord
    statements statement true limit

/-- A switch statement. -/
def switchStatement (statement : Bool → Work Unit) (limit : Nat) : Work Unit :=
  branch .switchStatement do
    kindLeaf .kwSwitch
    condition .switchStatement limit
    nextLeaf .leftBrace .lackLeftBrace .switchStatement
    readWord
    let _ ← expect .kwCase .lackCase .switchStatement
    many (at? .kwCase) (caseClause statement limit) limit
    if ← at? .kwDefault then defaultClause statement limit
    rightBrace .switchStatement

/-- An if statement. -/
def ifStatement (statement : Bool → Work Unit) (limit : Nat) : Work Unit :=
  branch .ifStatement do
    spelledLeaf
    condition .ifStatement limit
    readWord
    statement false
    if ← at? .kwElse then
      kindLeaf .kwElse
      readWord
      statement false

/-- A while statement. -/
def whileStatement (statement : Bool → Work Unit) (limit : Nat) : Work Unit :=
  branch .whileStatement do
    spelledLeaf
    condition .whileStatement limit
    readWord
    statement true

/-- A do-while statement. -/
def doWhile (statement : Bool → Work Unit) (limit : Nat) : Work Unit :=
  branch .doWhile do
    kindLeaf .kwDo
    readWord
    statement true
    expectLeaf .kwWhile .lackWhile .doWhile
    condition .doWhile limit
    readWord
    semicolon .doWhile

/-- A for statement. -/
def forStatement (statement : Bool → Work Unit) (limit : Nat) : Work Unit :=
  branch .forStatement do
    spelledLeaf
    nextLeaf .leftParen .lackLeftParen .forStatement
    readWord
    expression limit
    semicolon .forStatement
    expression limit
    semicolon .forStatement
    expression limit
    expectLeaf .rightParen .lackRightParen .forStatement
    readWord
    statement true

/-- The form of the statement that begins with a word of the given kind. -/
def statementForm (statement : Bool → Work Unit) (jumps : Bool) (limit : Nat) (kind : Kind) :
    Work Unit :=
  match kind with
  | .kwIf => ifStatement statement limit
  | .kwWhile => whileStatement statement limit
  | .kwDo => doWhile statement limit
  | .kwFor => forStatement statement limit
  | .kwWrite => writeStatement limit
  | .kwRead => readStatement
  | .leftBrace => compound statement jumps limit
  | .name | .number | .leftParen | .semicolon | .kwCall => expressionStatement limit
  | .kwReturn => returnStatement limit
  | .kwBreak | .kwContinue =>
    if jumps then jump else look (Parse.fail Rule.statement.text (.misplaced kind))
  | .kwSwitch => switchStatement statement limit
  | _ => look (Parse.fail Rule.statement.text (.unknownStatement kind))

/-- A statement with at most `depth` levels of statements below it. -/
def statement : Nat → Bool → Work Unit
  | 0, _ => throw (.rejected .exhausted)
  | depth + 1, jumps =>
    branch .statement do
      match ← word with
      | none =>
        look (Parse.fail Rule.statement.text (.unexpectedEnd Parse.incompleteProgram))
      | some token => statementForm (statement depth) jumps (depth + 1) token.kind

/-! ### Programs -/

/-- The initial values of an array. -/
def initializer (limit : Nat) : Work Unit :=
  branch .initializer do
    nextLeaf .leftBrace .lackLeftBrace .initializer
    readWord
    if ← at? .rightBrace then rightBrace .initializer
    else
      separated limit (logical (expression limit) limit)
      rightBrace .initializer

/-- The declaration of one name, with its initial value. -/
def declarator (limit : Nat) : Work Unit :=
  branch .declarator do
    let token ← expect .name .lackName .declarator
    leaf (.name token.spelling)
    readWord
    if ← at? .leftBracket then
      kindLeaf .leftBracket
      let _ ← nextNumber .declarator
      nextLeaf .rightBracket .lackRightBracket .declarator
      readWord
      if ← at? .assign then
        kindLeaf .assign
        initializer limit
      look (Parse.declare token.spelling .array .declarator)
    else
      if ← at? .assign then
        kindLeaf .assign
        readWord
        logical (expression limit) limit
      look (Parse.declare token.spelling .variable .declarator)

/-- A declaration of one or more names. -/
def declaration (limit : Nat) : Work Unit :=
  branch .declaration do
    spelledLeaf
    readWord
    separated limit (declarator limit)
    semicolon .declaration

/-- A sequence of declarations. -/
def declarations (limit : Nat) : Work Unit :=
  branch .declarations (many (at? .kwInt) (declaration limit) limit)

/-- The body of a function. -/
def body (limit : Nat) : Work Unit :=
  branch .body do
    kindLeaf .leftBrace
    readWord
    declarations limit
    statements (statement limit) false limit
    rightBrace .body

/-- A parameter. The current word takes the place of its type. -/
def parameter : Work Unit :=
  branch .parameter do
    kindLeaf .kwInt
    let name ← nextName .lackName .parameter
    look (Parse.declare name .variable .parameter)
    readWord

/-- The parameters of a function. -/
def parameters (limit : Nat) : Work Unit :=
  branch .parameters do
    if ← at? .rightParen then pure ()
    else
      let _ ← expect .kwInt .lackInt .parameters
      separated limit parameter

/-- A function. -/
def function (limit : Nat) : Work Unit :=
  branch .function do
    spelledLeaf
    let name ← nextName .lackFunctionName .function
    look (Parse.declare name .function .function)
    nextLeaf .leftParen .lackLeftParen .function
    look (modify Parse.State.openScope)
    readWord
    parameters limit
    expectLeaf .rightParen .lackRightParen .function
    readWord
    let _ ← expect .leftBrace .lackFunctionBody .function
    body limit
    look Parse.leaveScope

/-- The main function. -/
def mainFunction (limit : Nat) : Work Unit :=
  branch .main do
    spelledLeaf
    nextLeaf .leftParen .lackLeftParen .main
    nextLeaf .rightParen .lackRightParen .main
    readWord
    body limit

/-- The functions of a program and its end. -/
def programEnd (limit : Nat) : Work Unit := do
  many (at? .kwFunction) (function limit) limit
  let _ ← expect .kwMain .lackMain .program
  mainFunction limit
  match ← word with
  | some token => look (Parse.fail Rule.program.text (.unexpectedEnd token.spelling))
  | none => pure ()

/-- A program. Its node is the root, which is there from the start. -/
def program (limit : Nat) : Work Unit := do
  readWord
  if ← at? .kwInt then declarations limit
  programEnd limit

end Work

/-- What becomes of a list of tokens at a desk, with a bound on the depth and on the rounds of
repetitions: how the work ends, and the desk as it is left. -/
def Desk.parse (limit : Nat) (lines : List TokenLine) : Except Desk.Fault Unit × Desk :=
  (Work.program limit).run.run (.initial lines)

end ScoreLang
