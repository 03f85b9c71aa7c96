import ScoreLang.Code.Line
import ScoreLang.Text.Blank

/-!
# Loaded Code

The machine reads a code text line by line. A line that begins like a label is one, and its name is
the line without its last character; every other line is a command and its operands, separated by
blanks. Text after the last line end is not part of the code.

What a command means is looked up by `Instruction.ofWords`. Upper and lower case letters are not
told apart, except in the command that ends the program.
-/

namespace ScoreLang

/-- What the machine does for a command. -/
inductive Instruction where
  /-- The line is empty. -/
  | blank
  /-- The end of the program. -/
  | stop
  /-- An operation with its operand, if there is one. -/
  | perform (operation : Operation) (operand : Option String)
  /-- The word is not the name of an operation. -/
  | unknown (word : String)
  deriving DecidableEq, Repr

/-- The operation with the given name, in upper or lower case letters. -/
def Operation.ofWord? (word : String) : Option Operation :=
  let name := String.ofList (word.toList.map Char.toUpper)
  Operation.all.find? fun operation => operation.mnemonic == name

/-- The instruction that some words stand for. -/
def Instruction.ofWords : List String → Instruction
  | [] => .blank
  | word :: operands =>
    if word = stopWord then .stop
    else
      match Operation.ofWord? word with
      | some operation => .perform operation operands.head?
      | none => .unknown word

namespace Machine

/-- A line of loaded code. -/
inductive Row where
  /-- A label, which does nothing. -/
  | label
  | command (words : List String)
  deriving DecidableEq, Repr

/-- Loaded code. -/
structure Code where
  /-- The lines. -/
  rows : Array Row
  /-- The labels, each with the number of its last line. -/
  labels : List (String × Nat)
  deriving DecidableEq, Repr

namespace Code

/-- Whether a line is a label. -/
def isLabel (line : String) : Bool :=
  labelMark.toList.isPrefixOf line.toList

/-- A line of code. -/
def row (line : String) : Row :=
  if isLabel line then .label else .command (Text.words line)

/-- Enters a label, which takes the place of an earlier one of the same name. -/
def enter (labels : List (String × Nat)) (name : String) (place : Nat) : List (String × Nat) :=
  (name, place) :: labels.filter (·.1 ≠ name)

/-- Enters the labels among some lines, the first of which has the given number. -/
def enterLabels (labels : List (String × Nat)) (place : Nat) : List String → List (String × Nat)
  | [] => labels
  | line :: lines =>
    let labels :=
      if isLabel line then enter labels (String.ofList line.toList.dropLast) place else labels
    enterLabels labels (place + 1) lines

/-- The code in a text. -/
def ofText (text : String) : Code :=
  let lines := (Text.splitLines (Text.unifyLineEnds text.toList)).1
  ⟨(lines.map row).toArray, enterLabels [] 0 lines⟩

/-- The line of a label. -/
def find? (code : Code) (label : String) : Option Nat :=
  code.labels.lookup label

/-- The first line from the given one on that is not a label; `count` lines are looked at. -/
def skipLabels (code : Code) : Nat → Nat → Nat
  | 0, place => place
  | count + 1, place =>
    match code.rows[place]? with
    | some .label => skipLabels code count (place + 1)
    | _ => place

end Code

end Machine

end ScoreLang
