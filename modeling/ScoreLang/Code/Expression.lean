import ScoreLang.Code.Generator
import ScoreLang.Token.Basic

/-!
# Code of Expressions

The code of an expression leaves its value on top of the stack. A rule that contains a whole
expression is given the generator of expressions as a parameter; `expression` closes the circle,
with a bound on the depth.
-/

namespace ScoreLang.Generate

/-- The place of an element in its array, from its index in brackets; zero if there is none. -/
def elementPlace (name : String) (found : Entry) : Generate Int := do
  if ← atWord? "[" then
    shift 1
    let index ← ofInteger (Text.readInteger (← argument))
    if found.category ≠ .array then fail .variable (.notArray name)
    let size ← part found.size
    if size ≤ index then
      let last ← ofInteger (Text.writeInteger (size - 1))
      let shown ← ofInteger (Text.writeInteger index)
      fail .variable (.indexRange last shown)
    shift 2
    return index
  else return 0

/-- The address of a cell that lies a number of cells after another one. -/
def cellAfter (address : Address) (count : Int) : Generate Address :=
  match address with
  | .absolute cell => return .absolute (cell + count)
  | .relative cell => return .relative (cell + count)
  | .label name => throw (.integer (.malformed name))

/-- The cell of a variable or of an element of an array, as it is written. -/
def cellOf : Generate String := do
  enter .variable 1
  let name ← argument
  pass "ID" 1
  let found ← entry name
  let start ← cellAfter found.address 0
  addressText (← cellAfter start (← elementPlace name found))

/-- The most arguments that a call may have. -/
def maxArguments : Nat := 256

/-- The arguments after the first `count` ones. Returns the number of all of them. -/
def furtherArguments (expression : Generate Unit) (limit count : Nat) : Generate Nat :=
  repeatWhile (atWord? ",") (fun count => do
    shift 1
    expression
    return count + 1) limit count

/-- The arguments of a call of a function with the given number of parameters. -/
def arguments (expression : Generate Unit) (limit : Nat) (parameters : Int) : Generate Unit := do
  enter .arguments 1
  expression
  let count ← furtherArguments expression limit 1
  if parameters ≠ count ∨ maxArguments < count then fail .arguments .argumentCount

/-- What stands in the parentheses of a call of a function with the given number of parameters. -/
def givenArguments (expression : Generate Unit) (limit : Nat) (parameters : Int) :
    Generate Unit := do
  if ← atWord? ")" then
    if parameters ≠ 0 then fail .call .argumentCount
  else arguments expression limit parameters

/-- The call of a function. -/
def call (expression : Generate Unit) (limit : Nat) : Generate Unit := do
  enter .call 2
  let name ← argument
  let found ← entry name
  if found.category ≠ .function then fail .call (.notFunction name)
  let parameters ← part found.size
  shift 2
  givenArguments expression limit parameters
  pass ")" 1
  perform .call (← addressText found.address)

/-- An operand. -/
def factor (expression : Generate Unit) (limit : Nat) : Generate Unit := do
  enter .factor 1
  let label ← label
  if label = .word "(" then
    shift 1
    expression
    pass ")" 1
  else if label.beginsWith "NUM" then
    perform .push (← argument)
    shift 1
  else if label = .rule .call then call expression limit
  else if label = .rule .variable then perform .load (← cellOf)
  else throw (.unknownOperand label)

/-- Writes the command for a sign. -/
def operate (sign : String) : Generate Unit := do
  match Operation.ofSign? sign with
  | some operation => act operation
  | none => throw .unknownSign

/-- The operands after the first one, each with a sign from a list before it. -/
def further (signs : List String) (operand : Generate Unit) (limit : Nat) : Generate Unit :=
  repeatWhile (return signs.contains (← label).text) (fun _ => do
    let sign := (← label).text
    shift 1
    operand
    operate sign) limit ()

/-- Operands joined by signs from a list. -/
def joined (signs : List String) (operand : Generate Unit) (limit : Nat) : Generate Unit := do
  operand
  further signs operand limit

/-- Operands joined by multiplication and division. -/
def product (expression : Generate Unit) (limit : Nat) : Generate Unit := do
  enter .product 1
  joined ["*", "/"] (factor expression limit) limit

/-- Products joined by addition and subtraction. -/
def sum (expression : Generate Unit) (limit : Nat) : Generate Unit := do
  enter .sum 1
  joined ["+", "-"] (product expression limit) limit

/-- A sum, or two sums joined by a comparison or a logical operator. -/
def logical (expression : Generate Unit) (limit : Nat) : Generate Unit := do
  enter .logical 1
  sum expression limit
  let sign := (← label).text
  if Kind.opensLogic sign then
    shift 1
    sum expression limit
    operate sign

/-- An assignment, or an expression without one. The value that is assigned stays on the stack. -/
def assignment (expression : Generate Unit) (limit : Nat) : Generate Unit := do
  enter .expression 1
  if ← atRule? .variable then
    let cell ← cellOf
    if ← atWord? "=" then
      shift 1
      logical expression limit
      perform .store cell
  else logical expression limit

/-- An expression with at most `depth` levels of parentheses and arguments. Every level takes at
least one node, so that `depth` may be the number of nodes that are left. -/
def expression : Nat → Generate Unit
  | 0 => throw .exhausted
  | depth + 1 => assignment (expression depth) (depth + 1)

end ScoreLang.Generate
