import ScoreLang.Code.Fault
import ScoreLang.Code.Line
import ScoreLang.Scope

/-!
# The Code Generator

The generator walks through the nodes of a syntax tree in preorder. It has a current node and moves
on by `shift`; after the last node there is none, and after that the walk is at the root again. The
nodes that the walk has left are remembered.

While it walks it writes code. Code can be held back: the space that a function needs is known only
at its end, but allocated before its first command. Held code follows the next lines that are
written without being held.

The state is kept when the generator fails, since the labels that it has used up are not used again.
-/

namespace ScoreLang

/-- The state of the code generator. -/
structure Generator where
  /-- The current node, if there is one. -/
  current : Option Node
  /-- The nodes after the current one. -/
  ahead : List Node
  /-- The nodes that have been left, the latest one first. -/
  passed : List Node
  /-- The root of the tree. -/
  root : Node
  /-- The scopes around the current node. -/
  scopes : Scopes
  /-- The number of scopes opened so far. -/
  scopeCount : Nat
  /-- The number of the label used last. -/
  labels : Nat
  /-- The label at which `break` goes on. -/
  breakLabel : Option String
  /-- The label at which `continue` goes on. -/
  continueLabel : Option String
  /-- The cell for the result of the function, as it is written. -/
  resultCell : String
  /-- The lines written last. -/
  last : List CodeLine
  /-- The lines that are held back. -/
  held : Array CodeLine
  /-- Whether lines are held back. -/
  holding : Bool
  /-- The lines that are written. -/
  written : Array CodeLine
  /-- The warnings, each with its line. -/
  warnings : List (Nat × Warning)
  deriving Repr

namespace Generator

/-- The generator at the root of a tree, with the outermost scope open. `labels` labels have been
used up. -/
def initial (tree : SyntaxTree) (labels : Nat) : Generator where
  current := some tree.value
  ahead := tree.listing.tail
  passed := []
  root := tree.value
  scopes := [.empty 0 false 0]
  scopeCount := 1
  labels := labels
  breakLabel := none
  continueLabel := none
  resultCell := ""
  last := []
  held := #[]
  holding := false
  written := #[]
  warnings := []

/-- The code that has been written. -/
def code (generator : Generator) : String :=
  CodeLine.listText generator.written.toList

/-- The warnings as the console shows them. -/
def warningsReport (generator : Generator) : String :=
  String.join (generator.warnings.map fun warning => warningReport warning.1 warning.2.message)

/-- Moves on to the next node. -/
def next (generator : Generator) : Generator :=
  let passed := generator.current.toList ++ generator.passed
  match generator.ahead, generator.current with
  | node :: rest, _ => { generator with current := some node, ahead := rest, passed := passed }
  | [], some _ => { generator with current := none, passed := passed }
  | [], none => { generator with current := some generator.root }

/-- Writes or holds back some lines. -/
def write (generator : Generator) (lines : List CodeLine) : Generator :=
  if generator.holding then { generator with last := lines, held := generator.held ++ lines }
  else
    { generator with
      last := lines
      held := #[]
      written := generator.written ++ lines ++ generator.held }

end Generator

/-- A cell of a frame moved by an offset. Only the first digit of the cell is looked at. -/
def movedInFrame (operand : List Char) (offset : Int) : Except CodeFault String :=
  match operand with
  | [] | [':'] => .error .missingPart
  | ':' :: digit :: _ => do
    let cell ← (Text.readInteger (String.singleton digit)).mapError .integer
    return ":" ++ (← (Text.writeInteger (cell + offset)).mapError .integer)
  | _ => do
    let cell ← (Text.readInteger (String.ofList operand)).mapError .integer
    (Text.writeInteger (cell + offset)).mapError .integer

/-- An operand moved by an offset. Only a plain number can be moved; the operand of a store in the
scope of a function is moved twice. -/
def movedOperand (inFrame : Bool) (command operand : String) (offset : Int) :
    Except CodeFault String :=
  if offset = 0 then .ok operand
  else do
    let start ←
      if command = Operation.store.mnemonic ∧ inFrame then movedInFrame operand.toList offset
      else .ok operand
    let number ← (Text.readInteger start).mapError .integer
    (Text.writeInteger (number + offset)).mapError .integer

/-- An action of the code generator. -/
abbrev Generate := ExceptT CodeFault (StateM Generator)

namespace Generate

/-- The value of a computation on numbers and their spellings. -/
def ofInteger {α : Type} : Except Text.IntegerFault α → Generate α
  | .ok value => return value
  | .error fault => throw (.integer fault)

/-- A part that may be missing. -/
def part {α : Type} : Option α → Generate α
  | some value => return value
  | none => throw .missingPart

/-! ### The walk -/

/-- Moves on by some nodes. -/
def shift (count : Nat) : Generate Unit :=
  modify fun generator => count.repeat Generator.next generator

/-- The current node. -/
def node : Generate Node := do
  match (← get).current with
  | some node => return node
  | none => throw .noNode

/-- The label of the current node. -/
def label : Generate Label := return (← node).label

/-- Whether the current node stands for a rule. -/
def atRule? (rule : Rule) : Generate Bool := return (← label) == .rule rule

/-- Whether the current node has the given word for its label. -/
def atWord? (word : String) : Generate Bool := return (← label) == .word word

/-- The second word of the current label. -/
def argument : Generate String := do part (← label).argument?

/-- Insists on the current node standing for a rule, and moves on. -/
def enter (rule : Rule) (count : Nat) : Generate Unit := do
  if ← atRule? rule then shift count else throw .unexpectedNode

/-- Insists on the beginning of the current label, and moves on. -/
def pass (start : String) (count : Nat) : Generate Unit := do
  if (← label).beginsWith start then shift count else throw .unexpectedNode

/-- Rejects the program at the line of the current node. -/
def fail {α : Type} (place : Rule) (cause : SemanticCause) : Generate α := do
  throw (.error ⟨(← node).line, place, cause⟩)

/-- Warns about something near the line of the current node. -/
def warn (warning : Warning) : Generate Unit := do
  let line := (← node).line
  modify fun generator => { generator with warnings := generator.warnings ++ [(line, warning)] }

/-! ### Scopes -/

/-- Opens a scope. -/
def openScope (relative : Bool) (start : Int) : Generate Unit :=
  modify fun generator =>
    { generator with
      scopes := .empty generator.scopeCount relative start :: generator.scopes
      scopeCount := generator.scopeCount + 1 }

/-- Closes the innermost scope, unless it is the outermost one. -/
def closeScope : Generate Unit := do
  match (← get).scopes with
  | _ :: scope :: outer => modify fun generator => { generator with scopes := scope :: outer }
  | _ => throw .outermostScope

/-- Enters a name into the first of some scopes. A name that the scope holds already keeps its
entry. -/
def put (scopes : Scopes) (name : String) (category : Category) (size : Int) (label : String) :
    Generate Scopes := do
  let _ ← ofInteger (Text.writeInteger ((scopes.head?.map (·.next)).getD 0))
  return (scopes.put? name category size label).getD scopes

/-- Declares a name in the innermost scope. -/
def declare (name : String) (category : Category) (size : Int) : Generate Unit := do
  let scopes ← put (← get).scopes name category size ""
  modify fun generator => { generator with scopes := scopes }

/-- The entry of a name. -/
def entry (name : String) : Generate Entry := do
  match (← get).scopes.find? name with
  | some entry => return entry
  | none => throw .undeclared

/-- The text of an address. -/
def addressText : Address → Generate String
  | .absolute cell => ofInteger (Text.writeInteger cell)
  | .relative cell => return ":" ++ (← ofInteger (Text.writeInteger cell))
  | .label name => return name

/-! ### Writing -/

/-- Writes some lines. -/
def emit (lines : List CodeLine) : Generate Unit :=
  modify (·.write lines)

/-- Writes a label. -/
def place (name : String) : Generate Unit := emit [.label name]

/-- Writes a command with an operand. -/
def perform (operation : Operation) (operand : String) : Generate Unit :=
  emit [.command operation.mnemonic operand]

/-- Writes a command without operand. -/
def act (operation : Operation) : Generate Unit := perform operation ""

/-- Holds lines back, or stops doing so. -/
def hold (holding : Bool) : Generate Unit :=
  modify fun generator => { generator with holding := holding }

/-- A label that has not been used. -/
def newLabel : Generate String := do
  modify fun generator => { generator with labels := generator.labels + 1 }
  return labelName (← get).labels

/-- The operand of a command moved by an offset. -/
def moved (command operand : String) (offset : Int) : Generate String := do
  let inFrame := ((← get).scopes.head?.map (·.relative)).getD false
  match movedOperand inFrame command operand offset with
  | .ok text => return text
  | .error fault => throw fault

/-- Writes a command whose operand is moved by an offset. -/
def performMoved (command operand : String) (offset : Int) : Generate Unit := do
  emit [.command command (← moved command operand offset)]

/-- Stores zero in the cells of an array from the given offset on. -/
def fillZeros (address : String) (offset : Int) : Nat → Generate Unit
  | 0 => return
  | count + 1 => do
    perform .push "0"
    performMoved Operation.store.mnemonic address offset
    act .pop
    fillZeros address (offset + 1) count

/-- Repeats `round` as long as `continues` says so; a round turns the result of those before it into
the next one. Every round moves on by at least one node, so that the limit may be the number of
nodes that are left. -/
def repeatWhile {α : Type} (continues : Generate Bool) (round : α → Generate α) :
    Nat → α → Generate α
  | 0, done => do if ← continues then throw .exhausted else return done
  | limit + 1, done => do
    if ← continues then repeatWhile continues round limit (← round done)
    else return done

end Generate

end ScoreLang
