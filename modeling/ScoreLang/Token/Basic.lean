import ScoreLang.Text.Blank

/-!
# Tokens

A token has a kind, which is what the grammar looks at, and a spelling. A token list is a text with
a line for each token, its kind padded to fifteen characters and then its spelling, and a line mark
for each line end of the program.

* `Kind.text` and `Kind.ofText` — a kind and the word that names it;
* `Line.text` — a line of a token list as it is written;
* `Line.ofText` — the lines of a token list that need not come from the lexer: words that name no
  kind are kept as they are, and a line may lack its spelling or be blank.
-/

namespace ScoreLang

/-- The kinds of tokens. -/
inductive Kind where
  /-- A name that is not reserved. -/
  | name
  /-- A run of digits. -/
  | number
  /-- The reserved words. -/
  | kwIf | kwElse | kwFor | kwWhile | kwDo | kwInt | kwWrite | kwRead | kwSwitch
  | kwCase | kwDefault | kwCall | kwFunction | kwMain | kwReturn | kwBreak | kwContinue
  /-- Operators and punctuation. -/
  | plus | minus | times | slash | assign | leftParen | rightParen | leftBrace | rightBrace | colon
      | semicolon
  | comma | less | greater | bang | leftBracket | rightBracket | lessEqual | greaterEqual
      | notEqual | equal | both | either
  /-- A word that names no kind. -/
  | other (word : String)
  deriving DecidableEq, Repr

namespace Kind

/-- The word that names a kind. -/
def text : Kind → String
  | .name => "ID"
  | .number => "NUM"
  | .kwIf => "if"
  | .kwElse => "else"
  | .kwFor => "for"
  | .kwWhile => "while"
  | .kwDo => "do"
  | .kwInt => "int"
  | .kwWrite => "write"
  | .kwRead => "read"
  | .kwSwitch => "switch"
  | .kwCase => "case"
  | .kwDefault => "default"
  | .kwCall => "call"
  | .kwFunction => "function"
  | .kwMain => "main"
  | .kwReturn => "return"
  | .kwBreak => "break"
  | .kwContinue => "continue"
  | .plus => "+"
  | .minus => "-"
  | .times => "*"
  | .slash => "/"
  | .assign => "="
  | .leftParen => "("
  | .rightParen => ")"
  | .leftBrace => "\x7b"
  | .rightBrace => "\x7d"
  | .colon => ":"
  | .semicolon => ";"
  | .comma => ","
  | .less => "<"
  | .greater => ">"
  | .bang => "!"
  | .leftBracket => "["
  | .rightBracket => "]"
  | .lessEqual => "<="
  | .greaterEqual => ">="
  | .notEqual => "!="
  | .equal => "=="
  | .both => "&&"
  | .either => "||"
  | .other word => word

/-- All kinds that have a name. -/
def named : List Kind :=
  [.name, .number, .kwIf, .kwElse, .kwFor, .kwWhile, .kwDo, .kwInt, .kwWrite, .kwRead, .kwSwitch,
  .kwCase,
    .kwDefault, .kwCall, .kwFunction, .kwMain, .kwReturn, .kwBreak, .kwContinue, .plus, .minus,
    .times, .slash, .assign, .leftParen, .rightParen, .leftBrace, .rightBrace, .colon,
    .semicolon, .comma, .less, .greater, .bang, .leftBracket, .rightBracket, .lessEqual,
    .greaterEqual, .notEqual, .equal, .both, .either  ]

/-- The kind that a word names. -/
def ofText (word : String) : Kind :=
  (named.find? fun kind => kind.text == word).getD (.other word)

/-- The four comparisons that are spelled with an equality sign. -/
def comparisons : List String := ["<=", ">=", "!=", "=="]

/-- Whether a word begins like a comparison or a logical operator. A single comparison sign must
stand alone. -/
def opensLogic (word : String) : Bool :=
  (comparisons ++ ["&&", "||"]).any (·.toList.isPrefixOf word.toList) ||
    ["<", ">", "<\n", ">\n"].contains word

/-- Whether a kind is that of a comparison or a logical operator. -/
def isLogic : Kind → Bool
  | .less | .greater | .lessEqual | .greaterEqual | .notEqual | .equal | .both | .either => true
  | .other word => opensLogic word
  | _ => false

end Kind

/-- A token: its kind and its spelling. -/
structure Token where
  kind : Kind
  spelling : String
  deriving DecidableEq, Repr

/-- A line of a token list. -/
inductive TokenLine where
  /-- The mark of a line end. -/
  | enter
  | token (word : Token)
  /-- A kind without a spelling. -/
  | bare (kind : Kind)
  /-- A line without a word. -/
  | blank
  deriving DecidableEq, Repr

namespace TokenLine

/-- The mark of a line end. -/
def enterMark : String := "[enter]"

/-- A word with blanks after it, up to the given width. -/
def padded (width : Nat) (word : String) : String :=
  word ++ String.ofList (List.replicate (width - word.length) ' ')

/-- A line as it is written, with its line feed. -/
def text : TokenLine → String
  | .enter => enterMark ++ "\n"
  | .token word => padded 15 word.kind.text ++ " " ++ word.spelling ++ "\n"
  | .bare kind => kind.text ++ "\n"
  | .blank => "\n"

/-- A token list as it is written. -/
def listText (lines : List TokenLine) : String :=
  lines.foldl (fun written line => written ++ line.text) ""

/-- The line that the words of a written line form; words after the second are not looked at. -/
def ofWords : List String → TokenLine
  | [] => .blank
  | [kind] => .bare (.ofText kind)
  | kind :: spelling :: _ => .token ⟨.ofText kind, spelling⟩

/-- The lines of a written token list. Only a line that ends in a line feed can be a line mark. -/
def ofText (written : String) : List TokenLine :=
  let lines := Text.splitLines (Text.unifyLineEnds written.toList)
  let finished := lines.1.map fun line =>
    if line = enterMark then .enter else ofWords (Text.words line)
  if lines.2.isEmpty then finished else finished ++ [ofWords (Text.words lines.2)]

end TokenLine

end ScoreLang
