/-!
# Code

The code of a program is a text of lines: labels, which stand at the start of their line and end
with a colon, and commands, which are indented and padded so that their operands form a column.

`Operation` lists the operations that a command can name; `stopWord` is the command that ends a
program.
-/

namespace ScoreLang

/-- The operations of the machine. -/
inductive Operation where
  /-- Go on at a label. -/
  | branch
  /-- Go on at a label if the value on top is zero. -/
  | branchFalse
  /-- Copy the value on top into a cell. -/
  | store
  /-- Push the value of a cell. -/
  | load
  /-- Push a number. -/
  | push
  /-- Drop the value on top. -/
  | pop
  /-- Push a number that the user types. -/
  | input
  /-- Show the value on top and drop it. -/
  | output
  | add
  | subtract
  | multiply
  | divide
  | equal
  | notEqual
  | greater
  | less
  | greaterEqual
  | lessEqual
  | both
  | either
  | negate
  /-- Open a frame. -/
  | allocate
  /-- Leave a function. -/
  | leave
  /-- Call a function. -/
  | call
  deriving DecidableEq, Repr

namespace Operation

/-- The word for an operation in the code. -/
def mnemonic : Operation → String
  | .branch => "BR"
  | .branchFalse => "BRF"
  | .store => "STO"
  | .load => "LOAD"
  | .push => "LOADI"
  | .pop => "POP"
  | .input => "IN"
  | .output => "OUT"
  | .add => "ADD"
  | .subtract => "SUB"
  | .multiply => "MULT"
  | .divide => "DIV"
  | .equal => "EQ"
  | .notEqual => "NOTEQ"
  | .greater => "GT"
  | .less => "LES"
  | .greaterEqual => "GE"
  | .lessEqual => "LE"
  | .both => "AND"
  | .either => "OR"
  | .negate => "NOT"
  | .allocate => "ALLOCATE"
  | .leave => "RET"
  | .call => "JSR"

/-- All operations. -/
def all : List Operation :=
  [.branch, .branchFalse, .store, .load, .push, .pop, .input, .output, .add, .subtract, .multiply,
    .divide, .equal, .notEqual, .greater, .less, .greaterEqual, .lessEqual, .both, .either, .negate,
    .allocate, .leave, .call]

/-- The operation that a sign of the language stands for. -/
def ofSign? : String → Option Operation
  | ">" => some .greater
  | ">=" => some .greaterEqual
  | "<" => some .less
  | "<=" => some .lessEqual
  | "==" => some .equal
  | "!=" => some .notEqual
  | "||" => some .either
  | "&&" => some .both
  | "+" => some .add
  | "-" => some .subtract
  | "*" => some .multiply
  | "/" => some .divide
  | _ => none

end Operation

/-- The word for the command that ends a program. -/
def stopWord : String := "STOP"

/-- What the name of a label begins with. -/
def labelMark : String := "LABEL"

/-- The name of the label with the given number. -/
def labelName (number : Nat) : String := labelMark ++ toString number

/-- A line of code. -/
inductive CodeLine where
  /-- A place in the code. -/
  | label (name : String)
  /-- A command with its operand, which may be empty. -/
  | command (name operand : String)
  /-- A command that is not padded. -/
  | bare (name : String)
  /-- Any other text. -/
  | verbatim (text : String)
  deriving DecidableEq, Repr

namespace CodeLine

/-- The width of the column of commands. -/
def commandWidth : Nat := 10

/-- The blanks before a command. -/
def indent : String := "    "

/-- The name of a command, padded to the width of its column. -/
def padded (name : String) : String :=
  name ++ String.ofList (List.replicate (commandWidth - name.length) ' ')

/-- The text of a line. -/
def text : CodeLine → String
  | .label name => name ++ ":\n"
  | .command name operand => indent ++ padded name ++ operand ++ "\n"
  | .bare name => indent ++ name ++ "\n"
  | .verbatim text => text

/-- The text of some lines. -/
def listText (lines : List CodeLine) : String :=
  lines.foldl (fun shown line => shown ++ line.text) ""

end CodeLine

end ScoreLang
