import ScoreLang.Console
import ScoreLang.Token.Basic
import ScoreLang.Token.Keyword

/-!
# From Characters to Tokens

The lexer looks at one character after the other. What it has to remember between two characters is
its `Mode`: that it stands between tokens, or the part of a token or a comment that it has seen. A
step takes a mode to the next one and may write a line of the token list or note a fault.

A line end is written to the token list and counted at the moment it is read, even if a token has
still to be finished; after that it is taken for a space. A faulty character is dropped together
with the token it stands in, and the lexer goes on with the next one; if none is left, it stops.

A NUL between two tokens ends the text, and past the end of the text there is nothing else to be
read. Any mode but that of a comment ends with the first NUL; a comment that is never closed goes on
for ever, so that the lexer gives up after `patience` of them.

* `Lexer.step` — the effect of one character;
* `Lexer.run` — the effect of a text and of the end behind it;
* `tokenize` — the token list of a text.
-/

namespace ScoreLang

/-- What is wrong with a text. -/
inductive LexicalCause where
  /-- A character that begins no token. -/
  | strayCharacter (c : Char)
  /-- A character that ends a number but cannot follow it. -/
  | afterNumber (c : Char)
  /-- A sign that must stand twice is followed by another character. -/
  | unpaired (sign next : Char)
  /-- A comment inside a comment. -/
  | nestedComment
  deriving DecidableEq, Repr

/-- The wording of the cause. -/
def LexicalCause.message : LexicalCause → String
  | .strayCharacter c =>
    "非法字符：[" ++ String.ofList [c] ++ "]，code：[" ++ toString c.toNat ++ "]"
  | .afterNumber c => "非法字符：[" ++ String.ofList [c] ++ "]"
  | .unpaired sign next => "非法的分界符：" ++ String.ofList [sign, next]
  | .nestedComment => "注释不允许嵌套"

/-- A fault in a text and the line it was found in. -/
structure LexicalFault where
  line : Nat
  /-- What is wrong. -/
  cause : LexicalCause
  deriving DecidableEq, Repr

/-- The complaint about a fault. -/
def LexicalFault.complaint (fault : LexicalFault) : Complaint :=
  .lexical fault.line fault.cause.message

namespace Lexer

/-! ### Character classes -/

/-- An ASCII letter. -/
def isLetter (c : Char) : Bool := c.isAlpha

/-- An ASCII digit. -/
def isDigit (c : Char) : Bool := c.isDigit

/-- A sign that can stand for itself. -/
def isSingle (c : Char) : Bool :=
  ['+', '-', '*', '=', '(', ')', '{', '}', ':', ';', ',', '<', '>', '!', '[', ']'].contains c

/-- A sign that can be followed by an equality sign. -/
def isComparison (c : Char) : Bool := ['<', '>', '!', '='].contains c

/-- A sign that must stand twice. -/
def isTwin (c : Char) : Bool := ['&', '|'].contains c

/-- A character that may follow a number: a space, a tabulator or an operator other than the
division sign. -/
def endsNumber (c : Char) : Bool :=
  c = ' ' || c = '\t' || isSingle c || isTwin c

/-! ### Modes -/

/-- What the lexer has seen of the token or comment it is in; characters are kept last one
first. -/
inductive Mode where
  /-- Between two tokens. -/
  | between
  /-- After a fault. -/
  | faulted
  /-- In a word. -/
  | word (seen : List Char)
  /-- In a number. -/
  | number (seen : List Char)
  /-- After a sign that can be followed by an equality sign. -/
  | comparison (sign : Char)
  /-- After a sign that must stand twice. -/
  | twin (sign : Char)
  /-- After a slash. -/
  | slash
  /-- In a comment, of which the opening has been left out. -/
  | comment (seen : List Char)
  /-- After the end. -/
  | stopped
  deriving DecidableEq, Repr

/-- The state of the lexer. -/
structure State where
  mode : Mode
  /-- The number of the current line. -/
  line : Nat
  /-- The lines written so far, last one first. -/
  written : List TokenLine
  /-- The faults found so far, last one first. -/
  faults : List LexicalFault
  deriving DecidableEq, Repr

namespace State

/-- The state before the first character. -/
def initial : State := ⟨.between, 1, [], []⟩

/-- Writes a token; the lexer stands after it. -/
def emit (state : State) (kind : Kind) (spelling : String) : State :=
  { state with mode := .between, written := .token ⟨kind, spelling⟩ :: state.written }

/-- Writes an operator. -/
def emitOperator (state : State) (signs : List Char) : State :=
  let spelling := String.ofList signs
  state.emit (.ofText spelling) spelling

/-- Writes a word: it is a reserved word if its lower-case form is, and a name otherwise. -/
def emitWord (state : State) (seen : List Char) : State :=
  let spelling := String.ofList seen.reverse
  let lower := String.ofList (seen.reverse.map Char.toLower)
  state.emit (if isReserved lower then .ofText lower else .name) spelling

/-- Notes a fault. -/
def complain (state : State) (cause : LexicalCause) : State :=
  { state with mode := .faulted, faults := ⟨state.line, cause⟩ :: state.faults }

/-- Writes and counts a line end. -/
def enterLine (state : State) : State :=
  { state with line := state.line + 1, written := .enter :: state.written }

/-- Stops after a fault, for which there must be nothing left to be read. -/
def settle (state : State) : State :=
  if state.mode = .faulted then { state with mode := .stopped } else state

end State

/-! ### Steps -/

/-- How often the first character is directly followed by the second one. -/
def countPairs (first second : Char) : List Char → Nat
  | a :: b :: rest =>
    (if a = first ∧ b = second then 1 else 0) + countPairs first second (b :: rest)
  | _ => 0

/-- Whether a comment, of which `seen` is what stands between its opening and its last slash,
contains the opening or the closing of another one. -/
def isNested (seen : List Char) : Bool :=
  let comment := '/' :: '*' :: seen.reverse ++ ['/']
  2 < countPairs '/' '*' comment + countPairs '*' '/' comment

/-- The effect of a character between two tokens. -/
def begin (state : State) (c : Char) : State :=
  if c = ' ' || c = '\t' then { state with mode := .between }
  else if isLetter c then { state with mode := .word [c] }
  else if isComparison c then { state with mode := .comparison c }
  else if isTwin c then { state with mode := .twin c }
  else if isSingle c then state.emitOperator [c]
  else if isDigit c then { state with mode := .number [c] }
  else if c = '/' then { state with mode := .slash }
  else if c = '\x00' then { state with mode := .stopped }
  else state.complain (.strayCharacter c)

/-- The effect of a character that is not a line end. -/
def advance (state : State) (c : Char) : State :=
  match state.mode with
  | .stopped => state
  | .between => begin state c
  | .faulted => begin state c
  | .word seen =>
    if isLetter c || isDigit c then { state with mode := .word (c :: seen) }
    else begin (state.emitWord seen) c
  | .number seen =>
    if isDigit c then { state with mode := .number (c :: seen) }
    else if endsNumber c then begin (state.emit .number (String.ofList seen.reverse)) c
    else state.complain (.afterNumber c)
  | .comparison sign =>
    if c = '=' then state.emitOperator [sign, '='] else begin (state.emitOperator [sign]) c
  | .twin sign =>
    if c = sign then state.emitOperator [sign, sign] else state.complain (.unpaired sign c)
  | .slash =>
    if c = '*' then { state with mode := .comment [] } else begin (state.emitOperator ['/']) c
  | .comment seen =>
    if seen.head? = some '*' ∧ c = '/' then
      if isNested seen then state.complain .nestedComment else { state with mode := .between }
    else { state with mode := .comment (c :: seen) }

/-- The effect of a character. -/
def step (state : State) (c : Char) : State :=
  if state.mode = .stopped then state
  else if c = '\n' then advance state.enterLine ' '
  else advance state c

/-- The effect of a text. -/
def feed (state : State) (text : List Char) : State :=
  text.foldl step state

/-- The effect of a NUL that is read past the end of a text. -/
def readNul (state : State) : State := (step state '\x00').settle

/-- The effect of a text and of at most `patience` NULs that are read past its end. -/
def run (patience : Nat) (text : List Char) : State :=
  Nat.repeat readNul patience (feed .initial text).settle

end Lexer

/-! ### Token lists -/

/-- The outcome of the lexer. -/
structure Tokens where
  /-- The lines of the token list. -/
  lines : List TokenLine
  /-- The number of the last line. -/
  lastLine : Nat
  /-- The faults, in the order in which they were found. -/
  faults : List LexicalFault
  /-- Whether the end was reached; if not, the text ends inside a comment. -/
  complete : Bool
  deriving DecidableEq, Repr

/-- How often the lexer reads past the end of a text before it gives up. -/
def patience : Nat := 50

/-- The token list of a text. -/
def tokenize (text : List Char) : Tokens :=
  let state := Lexer.run patience text
  ⟨state.written.reverse, state.line, state.faults.reverse, state.mode = .stopped⟩

/-- What the console shows of the faults. -/
def Tokens.report (tokens : Tokens) : String :=
  tokens.faults.foldl (fun shown fault => shown ++ fault.complaint.report) ""

end ScoreLang
