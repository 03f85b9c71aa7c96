import ScoreLang.Machine.State

/-!
# Running Code

`perform` gives the meaning of the operations, `step` reads and performs one instruction, and `run`
repeats this until the program ends, the machine fails, or a number of steps has been made.
-/

namespace ScoreLang.Machine

/-! ### Operations -/

/-- Takes a value from the stack and combines the one below with it. -/
def arithmetic (combine : Value → Value → Except ValueFault Value) : Action Unit := do
  let right ← pop
  let left ← top
  replaceTop (← ofValue (combine left right))

/-- Takes two values from the stack and pushes whether they compare; the upper one comes first. -/
def comparison (compare : Value → Value → Bool) : Action Unit := do
  let upper ← pop
  let lower ← pop
  pushFlag (compare upper lower)

/-- Pushes a number that has been typed in. -/
def accept (line : String) : Action Unit := do
  push (.integer (← ofInteger (Text.readInteger line)))

/-- Asks for a number and pushes it. -/
def input : Action Unit := do
  report inputPrompt
  match (← get).input with
  | line :: rest =>
    modify fun state => { state with input := rest }
    accept line
  | [] => throw .noInput

/-- Opens a frame of the given size. The first one begins at the start of the memory, but is not
named from its base: the base is where it ends. -/
def allocate (size : String) : Action Unit := do
  if (← get).base = 0 then
    let size ← ofInteger (Text.readInteger size)
    modify fun state => { state with base := size, frames := size :: 0 :: state.frames }
  else
    match (← get).frames with
    | [] => throw .noFrame
    | frameEnd :: _ =>
      modify fun state => { state with base := frameEnd }
      let size ← ofInteger (Text.readInteger size)
      modify fun state => { state with frames := (frameEnd + size) :: state.frames }

/-- Where the active frame begins if the frames end at the given places. -/
def baseOf : List Int → Int
  | _ :: base :: _ => base
  | _ => 0

/-- Leaves a function: pushes its result, which is in the first cell of its frame, closes the frame
and goes on after the call. -/
def leave : Action Unit := do
  push (← read (← get).base)
  match (← get).frames with
  | [] => throw .noFrame
  | _ :: frames =>
    modify fun state => { state with frames := frames, base := baseOf frames }
    match (← get).returns with
    | [] => throw .noCall
    | place :: returns =>
      modify fun state => { state with returns := returns, next := some (place + 1) }

/-- Performs an operation. The second operand of a logical operator is taken from the stack only if
the first one does not decide. -/
def perform (code : Code) (operation : Operation) (operand : Option String) : Action Unit := do
  match operation with
  | .branch => jump code (← needed operand)
  | .branchFalse => if (← pop).isZero then jump code (← needed operand)
  | .store =>
    let number ← address (← needed operand)
    write number (← top)
  | .load =>
    let value ← read (← address (← needed operand))
    push (.integer (← ofValue value.truncate))
  | .push => push (.integer (← ofInteger (Text.readInteger (← needed operand))))
  | .pop => let _ ← pop
  | .input => input
  | .output => report (outputReport (← ofInteger (← pop).text))
  | .add => arithmetic Value.add
  | .subtract => arithmetic Value.sub
  | .multiply => arithmetic Value.mul
  | .divide =>
    let right ← pop
    if right.isZero then throw .divisionByZero
    replaceTop (← ofValue (Value.div (← top) right))
  | .equal => comparison Value.same
  | .notEqual => comparison fun upper lower => !upper.same lower
  | .greater => comparison Value.isLess
  | .less => comparison fun upper lower => lower.isLess upper
  | .greaterEqual => comparison Value.isAtMost
  | .lessEqual => comparison fun upper lower => lower.isAtMost upper
  | .both => if (← pop).isZero then pushFlag false else pushFlag !(← pop).isZero
  | .either => if (← pop).isZero then pushFlag !(← pop).isZero else pushFlag true
  | .negate => pushFlag (← pop).isZero
  | .allocate => allocate (← needed operand)
  | .leave => leave
  | .call =>
    modify fun state => { state with returns := state.next.toList.map (· - 1) ++ state.returns }
    jump code (← needed operand)

/-! ### Steps -/

/-- Reads an instruction and performs it. Returns whether the program has ended. -/
def stepAction (code : Code) : Action Bool := do
  match Instruction.ofWords (← fetch code) with
  | .blank => throw .blankLine
  | .stop =>
    report finishedReport
    return true
  | .unknown word => throw (.unknownInstruction word)
  | .perform operation operand =>
    perform code operation operand
    return false

/-- What becomes of the machine in a step. -/
def step (code : Code) (state : State) : Except Fault Bool × State :=
  (stepAction code).run.run state

/-- What is about to happen in a step. -/
structure Moment where
  /-- The line of the command. -/
  place : Nat
  /-- The words of the command. -/
  words : List String
  /-- The stack, top first. -/
  stack : List Value
  /-- Where the active frame begins. -/
  base : Int
  deriving DecidableEq, Repr

/-- What is about to happen in a state, if there is a command. -/
def moment? (code : Code) (state : State) : Option Moment :=
  match (fetch code).run.run state with
  | (.ok words, ready) => some ⟨(ready.next.getD 1) - 1, words, state.stack, state.base⟩
  | (.error _, _) => none

/-- What has become of a run. -/
structure Outcome where
  /-- The last state. -/
  state : State
  /-- Why the machine has stopped, if not at the end of the program. -/
  fault : Option Fault
  /-- What has happened. -/
  moments : List Moment
  deriving DecidableEq, Repr

/-- Runs code for a number of steps. `past` has happened before, the latest moment first. -/
def runFrom (code : Code) : Nat → State → List Moment → Outcome
  | 0, state, past => ⟨state, some .stepLimit, past.reverse⟩
  | budget + 1, state, past =>
    let past := (moment? code state).toList ++ past
    match step code state with
    | (.ok false, state) => runFrom code budget state past
    | (.ok true, state) => ⟨state, none, past.reverse⟩
    | (.error fault, state) => ⟨state, some fault, past.reverse⟩

/-- Runs code from its start with some lines of input, for at most a number of steps. -/
def run (code : Code) (input : List String) (budget : Nat) : Outcome :=
  runFrom code budget (.initial input) []

end ScoreLang.Machine
