import ScoreLang.Parse.Words

/-!
# Expressions

The rules of expressions, from the operand up to the assignment. A rule that contains a whole
expression, in parentheses or as the argument of a call, is given the parser of expressions as a
parameter; `expression` closes the circle, with a bound on the depth.

An assignment begins like the use of a variable. The parser reads a variable first; if no assignment
sign follows, it takes the variable back and reads an expression without assignment.
-/

namespace ScoreLang.Parse

/-- A variable or an element of an array. Returns the index as it is spelled, too. -/
def reference : Parse (SyntaxTree × Option String) := do
  let line := (← get).line
  let name ← spelling
  let head ← leaf (.name name)
  checkDeclared name Rule.variable.name
  readWord
  if ← at? .leftBracket then
    let opening ← kindLeaf .leftBracket
    let (index, number) ← nextNumber .variable
    let closing ← nextLeaf .rightBracket .lackRightBracket .variable
    readWord
    return (.branch .variable line [head, opening, number, closing], some index)
  else return (.branch .variable line [head], none)

/-- The arguments of a call. -/
def arguments (expression : Parse SyntaxTree) (limit : Nat) : Parse SyntaxTree :=
  branch .arguments (separated limit expression)

/-- The call of a function. -/
def call (expression : Parse SyntaxTree) (limit : Nat) : Parse SyntaxTree :=
  branch .call do
    let keyword ← kindLeaf .kwCall
    let (name, function) ← nextName .lackName .call
    checkDeclared name Rule.call.text
    let opening ← nextLeaf .leftParen .lackLeftParen .call
    readWord
    let given ←
      if ← at? .rightParen then pure []
      else do
        let given ← arguments expression limit
        let _ ← expect .rightParen .lackRightParen .call
        pure [given]
    let closing ← kindLeaf .rightParen
    readWord
    return keyword :: function :: opening :: given ++ [closing]

/-- An operand: an expression in parentheses, a call, a variable or a number. -/
def factor (expression : Parse SyntaxTree) (limit : Nat) : Parse SyntaxTree :=
  branch .factor do
    if ← at? .leftParen then
      let opening ← kindLeaf .leftParen
      readWord
      let inner ← expression
      let closing ← expectLeaf .rightParen .lackRightParen .factor
      readWord
      return [opening, inner, closing]
    else if ← at? .kwCall then return [← call expression limit]
    else if ← at? .name then return [(← reference).1]
    else
      let token ← expect .number .lackOperand .factor
      let number ← leaf (.number token.spelling)
      readWord
      return [number]

/-- Operands joined by multiplication and division. -/
def product (expression : Parse SyntaxTree) (limit : Nat) : Parse SyntaxTree :=
  branch .product do
    let first ← factor expression limit
    let rest ← many (atAny? [.times, .slash]) (do
      let sign ← if ← at? .times then kindLeaf .times else kindLeaf .slash
      readWord
      return [sign, ← factor expression limit]) limit
    return first :: rest

/-- Products joined by addition and subtraction. -/
def sum (expression : Parse SyntaxTree) (limit : Nat) : Parse SyntaxTree :=
  branch .sum do
    let first ← product expression limit
    let rest ← many (atAny? [.plus, .minus]) (do
      let sign ← spelledLeaf
      readWord
      return [sign, ← product expression limit]) limit
    return first :: rest

/-- A sum, or two sums joined by a comparison or a logical operator. -/
def logical (expression : Parse SyntaxTree) (limit : Nat) : Parse SyntaxTree :=
  branch .logical do
    let left ← sum expression limit
    match (← get).word with
    | none => throw .endOfTokens
    | some token =>
      if token.kind.isLogic then
        let sign ← spelledLeaf
        readWord
        return [left, sign, ← sum expression limit]
      else return [left]

/-- The words after the name of an element of an array that has been read. -/
def indexWords : Option String → List Token
  | none => []
  | some index =>
    [⟨.leftBracket, Kind.leftBracket.text⟩, ⟨.number, index⟩,
    ⟨.rightBracket, Kind.rightBracket.text⟩]

/-- An assignment, or an expression without one. -/
def assignment (expression : Parse SyntaxTree) (limit : Nat) : Parse SyntaxTree :=
  branch .expression do
    if ← at? .name then
      let name ← spelling
      let (target, index) ← reference
      if ← at? .assign then
        readWord
        let sign ← kindLeaf .assign
        return [target, sign, ← logical expression limit]
      else
        takeBack ⟨.name, name⟩ (indexWords index)
        return [← logical expression limit]
    else return [← logical expression limit]

/-- An expression with at most `depth` levels of parentheses and arguments. Every level takes at
least one word, so that `depth` may be the number of words that are left. -/
def expression : Nat → Parse SyntaxTree
  | 0 => throw .exhausted
  | depth + 1 => assignment (expression depth) (depth + 1)

end ScoreLang.Parse
