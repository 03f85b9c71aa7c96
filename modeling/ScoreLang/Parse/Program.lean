import ScoreLang.Parse.Statement

/-!
# Programs

A program is a sequence of declarations, which is left out if there is none, then functions, then
the main function. `parse` builds the syntax tree of a list of tokens.
-/

namespace ScoreLang

namespace Parse

/-! ### Declarations -/

/-- The initial values of an array. -/
def initializer (limit : Nat) : Parse SyntaxTree :=
  branch .initializer do
    let opening ← nextLeaf .leftBrace .lackLeftBrace .initializer
    readWord
    if ← at? .rightBrace then return [opening, ← rightBrace .initializer]
    else
      let values ← separated limit (logical (expression limit) limit)
      return opening :: values ++ [← rightBrace .initializer]

/-- The declaration of one name, with its initial value. The name is declared only after its initial
value has been read. -/
def declarator (limit : Nat) : Parse SyntaxTree :=
  branch .declarator do
    let token ← expect .name .lackName .declarator
    let name ← leaf (.name token.spelling)
    readWord
    if ← at? .leftBracket then
      let opening ← kindLeaf .leftBracket
      let (_, number) ← nextNumber .declarator
      let closing ← nextLeaf .rightBracket .lackRightBracket .declarator
      readWord
      let values ←
        if ← at? .assign then do
          let sign ← kindLeaf .assign
          pure [sign, ← initializer limit]
        else pure []
      declare token.spelling .array .declarator
      return name :: opening :: number :: closing :: values
    else
      let value ←
        if ← at? .assign then do
          let sign ← kindLeaf .assign
          readWord
          pure [sign, ← logical (expression limit) limit]
        else pure []
      declare token.spelling .variable .declarator
      return name :: value

/-- A declaration of one or more names. -/
def declaration (limit : Nat) : Parse SyntaxTree :=
  branch .declaration do
    let keyword ← spelledLeaf
    readWord
    let names ← separated limit (declarator limit)
    return keyword :: names ++ [← semicolon .declaration]

/-- A sequence of declarations. -/
def declarations (limit : Nat) : Parse SyntaxTree :=
  branch .declarations (many (at? .kwInt) (return [← declaration limit]) limit)

/-! ### Functions -/

/-- The body of a function. The brace that opens it is the current word. -/
def body (limit : Nat) : Parse SyntaxTree :=
  branch .body do
    let opening ← kindLeaf .leftBrace
    readWord
    let names ← declarations limit
    let steps ← statements (statement limit) false limit
    return [opening, names, steps, ← rightBrace .body]

/-- A parameter. The current word takes the place of its type. -/
def parameter : Parse SyntaxTree :=
  branch .parameter do
    let keyword ← kindLeaf .kwInt
    let (name, identifier) ← nextName .lackName .parameter
    declare name .variable .parameter
    readWord
    return [keyword, identifier]

/-- The parameters of a function. -/
def parameters (limit : Nat) : Parse SyntaxTree :=
  branch .parameters do
    if ← at? .rightParen then return []
    else
      let _ ← expect .kwInt .lackInt .parameters
      separated limit parameter

/-- A function. Its parameters have a scope of their own around that of its body. -/
def function (limit : Nat) : Parse SyntaxTree :=
  branch .function do
    let keyword ← spelledLeaf
    let (name, identifier) ← nextName .lackFunctionName .function
    declare name .function .function
    let opening ← nextLeaf .leftParen .lackLeftParen .function
    modify State.openScope
    readWord
    let given ← parameters limit
    let closing ← expectLeaf .rightParen .lackRightParen .function
    readWord
    let _ ← expect .leftBrace .lackFunctionBody .function
    let steps ← body limit
    leaveScope
    return [keyword, identifier, opening, given, closing, steps]

/-- The main function. -/
def mainFunction (limit : Nat) : Parse SyntaxTree :=
  branch .main do
    let keyword ← spelledLeaf
    let opening ← nextLeaf .leftParen .lackLeftParen .main
    let closing ← nextLeaf .rightParen .lackRightParen .main
    readWord
    return [keyword, opening, closing, ← body limit]

/-- A program. -/
def program (limit : Nat) : Parse SyntaxTree :=
  branch .program do
    readWord
    let names ← if ← at? .kwInt then pure [← declarations limit] else pure []
    let functions ← many (at? .kwFunction) (return [← function limit]) limit
    let _ ← expect .kwMain .lackMain .program
    let last ← mainFunction limit
    match (← get).word with
    | some token => fail Rule.program.text (.unexpectedEnd token.spelling)
    | none => return names ++ functions ++ [last]

end Parse

/-- What the parser finds out about a program. -/
structure Parsed where
  /-- The syntax tree. -/
  tree : SyntaxTree
  /-- The last line. -/
  line : Nat
  /-- The scopes that are open at the end. -/
  scopes : Scopes
  /-- The number of scopes. -/
  scopeCount : Nat
  deriving Repr

/-- The program that a list of tokens forms. -/
def parse (lines : List TokenLine) : Except ParseFault Parsed :=
  match (Parse.program (lines.length + 1)).run (.initial lines) with
  | .error fault => .error fault
  | .ok (tree, state) => .ok ⟨tree, state.line, state.scopes, state.scopeCount⟩

end ScoreLang
