import ScoreLang.Code.Statement

/-!
# Code of Programs

The code of a program begins with that of the global declarations and a branch to the main function,
followed by the functions and the main function. `generate` writes the code of a syntax tree.
-/

namespace ScoreLang

namespace Generate

/-! ### Declarations -/

/-- One of the initial values of an array, which is stored in the element with the given index. A
surplus value is dropped. Returns the next index. -/
def initialValue (limit : Nat) (address : String) (size : Int) (index : Nat) : Generate Nat := do
  shift 1
  logical (expression limit) limit
  if index < size then
    performMoved Operation.store.mnemonic address index
    act .pop
  else
    act .pop
    warn .surplusValue
  return index + 1

/-- The initial values of an array, which are stored one after the other. Elements without a value
are set to zero. -/
def initializer (limit : Nat) (array : String) : Generate Unit := do
  enter .initializer 1
  let found ← entry array
  let size ← part found.size
  let address ← addressText found.address
  let count ←
    repeatWhile (return !(← atWord? "\x7d")) (initialValue limit address size) limit 0
  shift 1
  fillZeros address count (size - count).toNat

/-- The declaration of one name. Returns the number of cells that it takes. -/
def declarator (limit : Nat) : Generate Int := do
  enter .declarator 1
  let name ← argument
  shift 1
  if ← atWord? "=" then
    declare name .variable 0
    shift 1
    logical (expression limit) limit
    perform .store (← addressText (← entry name).address)
    act .pop
    return 1
  else if ← atWord? "[" then
    shift 1
    let size ← ofInteger (Text.readInteger (← argument))
    declare name .array size
    shift 2
    if ← atWord? "=" then
      shift 1
      initializer limit name
    return size
  else
    declare name .variable 0
    return 1

/-- A declaration. Returns the number of cells that its names take. -/
def declaration (limit : Nat) : Generate Int := do
  enter .declaration 2
  let first ← declarator limit
  let size ← repeatWhile (return !(← atWord? ";")) (fun size => do
    shift 1
    return size + (← declarator limit)) limit first
  shift 1
  return size

/-- A sequence of declarations. Returns the number of cells that its names take. -/
def declarations (limit : Nat) : Generate Int := do
  enter .declarations 1
  if !(← atRule? .declaration) then warn .noDeclarations
  repeatWhile (atRule? .declaration) (fun size => return size + (← declaration limit)) limit 0

/-! ### Functions -/

/-- The inside of a body. Returns the number of cells that its names take. -/
def bodyParts (limit : Nat) : Generate Int := do
  let size ← declarations limit
  statements (statement limit) limit
  shift 1
  return size

/-- The body of a function, in the scope of its parameters. -/
def functionBody (limit : Nat) : Generate Int := do
  enter .body 2
  bodyParts limit

/-- The body of the main function, in a scope of its own whose cells begin at `start`. -/
def mainBody (limit : Nat) (start : Int) : Generate Int := do
  enter .body 2
  openScope false start
  let size ← bodyParts limit
  closeScope
  return size

/-- A parameter. Returns the commands that take its value from the stack. -/
def parameter : Generate (List CodeLine) := do
  enter .parameter 2
  let name ← argument
  declare name .variable 0
  let cell ← addressText (← entry name).address
  shift 1
  return [.command Operation.store.mnemonic cell, .bare Operation.pop.mnemonic]

/-- The parameters of a function. Their values are taken from the stack, the last one first. Returns
their number. -/
def parameters (limit : Nat) : Generate Nat := do
  enter .parameters 1
  let first ← if ← atRule? .parameter then pure [← parameter] else pure []
  let taken ← repeatWhile (atWord? ",") (fun taken => do
    shift 1
    return (← parameter) :: taken) limit first
  taken.forM emit
  return taken.length

/-- A function. Its commands are held back until the size of its frame is known: the cell for its
result, its parameters and its variables. -/
def function (limit : Nat) : Generate Unit := do
  enter .function 2
  let name ← argument
  let start ← newLabel
  place start
  hold true
  shift 2
  openScope true 0
  declare "return" .result 0
  let resultCell ← addressText (← entry "return").address
  modify fun generator => { generator with resultCell := resultCell }
  let count ← parameters limit
  let outer ← put (← get).scopes.tail name .function count start
  modify fun generator => { generator with scopes := generator.scopes.take 1 ++ outer }
  pass ")" 1
  let size ← functionBody limit
  hold false
  perform .allocate (← ofInteger (Text.writeInteger (count + size + 1)))
  perform .leave (← addressText (← entry "return").address)
  closeScope

/-- The main function. Its frame holds the global variables, too, and has at least one cell. -/
def mainFunction (limit : Nat) (start : Int) : Generate Unit := do
  enter .main 4
  hold true
  let size ← mainBody limit start
  hold false
  let total := size + start
  perform .allocate (← ofInteger (Text.writeInteger (if total = 0 then 1 else total)))

/-- A program. -/
def program (limit : Nat) : Generate Unit := do
  enter .program 1
  let start ← if ← atRule? .declarations then declarations limit else pure 0
  let mainLabel ← newLabel
  perform .branch mainLabel
  repeatWhile (atRule? .function) (fun _ => function limit) limit ()
  place mainLabel
  if ← atRule? .main then mainFunction limit start
  emit [.command stopWord ""]

end Generate

/-- The code of a syntax tree. The labels are numbered on from `labels`. Returns the state of the
generator at the end, also if it fails. -/
def generate (tree : SyntaxTree) (labels : Nat) : Except CodeFault Unit × Generator :=
  ((Generate.program (tree.listing.length + 1)).run).run (.initial tree labels)

/-- What the console shows while code is generated. -/
def generateReport (result : Except CodeFault Unit × Generator) : String :=
  result.2.warningsReport ++
    match result.1 with
    | .ok _ => compiledReport
    | .error _ => ""

end ScoreLang
