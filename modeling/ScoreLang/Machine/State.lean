import ScoreLang.Console
import ScoreLang.Machine.Code
import ScoreLang.Machine.Value

/-!
# States of the Machine

The machine has a stack of values and a memory of `memorySize` cells. A function that is called
claims a frame of cells above those of its callers; `base` is where the active frame begins. Cells
are numbered from the start of the memory or, with a colon, from the base; a negative number counts
from the end of the memory.

The actions of this module are what the operations are made of. What an operation has done before it
fails stays done.
-/

namespace ScoreLang.Machine

/-- The number of memory cells. -/
def memorySize : Nat := 1000

/-- The state of the machine. -/
structure State where
  /-- The line that is read next; `none` after a jump to a label that does not exist. -/
  next : Option Nat
  /-- The stack, top first. -/
  stack : List Value
  /-- The memory. -/
  cells : Vector Value memorySize
  /-- Where the active frame begins. -/
  base : Int
  /-- Where the frames end, the innermost one first. -/
  frames : List Int
  /-- The lines of the calls that have not returned, the innermost one first. -/
  returns : List Nat
  /-- The lines of input that are left. -/
  input : List String
  /-- What the console shows. -/
  console : String
  deriving DecidableEq, Repr

/-- The state before the first instruction. -/
def State.initial (input : List String) : State where
  next := some 0
  stack := []
  cells := Vector.replicate memorySize (.integer 0)
  base := 0
  frames := []
  returns := []
  input := input
  console := ""

/-- The lines of a text that is typed in. The last one need not be ended. -/
def inputLines (text : String) : List String :=
  let (lines, rest) := Text.splitLines text.toList
  if rest.isEmpty then lines else lines ++ [rest]

/-- Why the machine stops before the end of the program. -/
inductive Fault where
  /-- A value is stored beyond the memory. -/
  | overflow
  /-- A division by zero. -/
  | divisionByZero
  /-- A value is taken from the empty stack. -/
  | emptyStack
  /-- A cell that does not exist is read, or one too far before the start of the memory written. -/
  | noCell
  /-- An operation lacks its operand. -/
  | noOperand
  /-- No frame is open. -/
  | noFrame
  /-- No call has been made. -/
  | noCall
  /-- The code ends without the command that ends the program. -/
  | endOfCode
  /-- A line of the code is empty. -/
  | blankLine
  /-- The last jump was to a label that does not exist. -/
  | lost
  /-- The input has ended. -/
  | noInput
  /-- No operation has this name. -/
  | unknownInstruction (word : String)
  /-- An operation on values fails. -/
  | value (fault : ValueFault)
  /-- The machine has made as many steps as it is allowed to. -/
  | stepLimit
  deriving DecidableEq, Repr

/-- The wording of a fault, if it has one. -/
def Fault.message? : Fault → Option String
  | .overflow => some "内存栈溢出"
  | .divisionByZero => some "除数为0"
  | .unknownInstruction word => some ("无法识别的指令, " ++ word)
  | .value (.integer fault) => some fault.message
  | .value .notANumber => some "cannot convert float NaN to integer"
  | _ => none

/-- The complaint about a fault, if it is one of the running program. -/
def Fault.complaint? (fault : Fault) : Option Complaint :=
  match fault with
  | .overflow | .divisionByZero => fault.message?.map .runtime
  | _ => none

/-- An action of the machine. -/
abbrev Action := ExceptT Fault (StateM State)

/-- The result of an operation on values. -/
def ofValue {α : Type} : Except ValueFault α → Action α
  | .ok value => return value
  | .error fault => throw (.value fault)

/-- The result of a conversion between numbers and texts. -/
def ofInteger {α : Type} : Except Text.IntegerFault α → Action α
  | .ok value => return value
  | .error fault => throw (.value (.integer fault))

/-- An operand, which must be there. -/
def needed (operand : Option String) : Action String :=
  match operand with
  | some text => return text
  | none => throw .noOperand

/-! ### The stack -/

/-- Pushes a value. -/
def push (value : Value) : Action Unit :=
  modify fun state => { state with stack := value :: state.stack }

/-- Pushes one for true and zero for false. -/
def pushFlag (flag : Bool) : Action Unit :=
  push (.integer (if flag then 1 else 0))

/-- The value on top. -/
def top : Action Value := do
  match (← get).stack with
  | value :: _ => return value
  | [] => throw .emptyStack

/-- Drops the value on top and returns it. -/
def pop : Action Value := do
  match (← get).stack with
  | value :: rest =>
    modify fun state => { state with stack := rest }
    return value
  | [] => throw .emptyStack

/-- Puts a value in the place of the one on top. -/
def replaceTop (value : Value) : Action Unit :=
  modify fun state => { state with stack := value :: state.stack.tail }

/-! ### The memory -/

/-- The cell with the given number; a negative number counts from the end of the memory. -/
def cell? (number : Int) : Option (Fin memorySize) :=
  let number := if number < 0 then number + memorySize else number
  if number < 0 then none
  else if h : number.toNat < memorySize then some ⟨number.toNat, h⟩ else none

/-- The value of the cell with the given number. -/
def read (number : Int) : Action Value := do
  match cell? number with
  | some cell => return (← get).cells.get cell
  | none => throw .noCell

/-- Puts a value into the cell with the given number. -/
def write (number : Int) (value : Value) : Action Unit := do
  if memorySize ≤ number then throw .overflow
  match cell? number with
  | some cell => modify fun state => { state with cells := state.cells.set cell value }
  | none => throw .noCell

/-- The number of the cell that an operand names. -/
def address (operand : String) : Action Int := do
  match operand.toList with
  | ':' :: digits => return (← get).base + (← ofInteger (Text.readInteger (String.ofList digits)))
  | _ => ofInteger (Text.readInteger operand)

/-! ### The code -/

/-- Goes on after a label. -/
def jump (code : Code) (label : String) : Action Unit :=
  modify fun state => { state with next := (code.find? label).map (· + 1) }

/-- Reads the next command. -/
def fetch (code : Code) : Action (List String) := do
  match (← get).next with
  | none => throw .lost
  | some next =>
    let place := code.skipLabels code.rows.size next
    modify fun state => { state with next := some (place + 1) }
    match code.rows[place]? with
    | some (.command words) => return words
    | _ => throw .endOfCode

/-- Adds to what the console shows. -/
def report (text : String) : Action Unit :=
  modify fun state => { state with console := state.console ++ text }

end ScoreLang.Machine
