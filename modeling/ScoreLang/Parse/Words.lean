import ScoreLang.Parse.Fault
import ScoreLang.Scope

/-!
# The Words of a Program

The parser looks at one word at a time, a token or the end of the list. It moves on by `readWord`,
which counts the line marks that it passes, and can take words back, which are then read again. A
left brace opens a scope at the moment it is read from the list, a right brace closes one; words
that were taken back do neither a second time.

The other actions of this module are what the grammar rules are made of: looking at the current
word, insisting on a kind, making leaves and branches, and declaring and looking up names.
-/

namespace ScoreLang

namespace Parse

/-- The state of the parser. -/
structure State where
  /-- The current word, `none` at the end of the list. -/
  word : Option Token
  /-- Words that were taken back, in the order in which they are read again. -/
  pending : List (Option Token)
  /-- The lines of the token list that are left. -/
  lines : List TokenLine
  /-- The number of the current line. -/
  line : Nat
  /-- The scopes around the current word. -/
  scopes : Scopes
  /-- The number of scopes opened so far. -/
  scopeCount : Nat
  deriving DecidableEq, Repr

/-- The state before the first word. The outermost scope is open. -/
def State.initial (lines : List TokenLine) : State :=
  ⟨none, [], lines, 1, [.empty 0 false 0], 1⟩

/-- The state with a scope opened. -/
def State.openScope (state : State) : State :=
  { state with
    scopes := .empty state.scopeCount false 0 :: state.scopes
    scopeCount := state.scopeCount + 1 }

end Parse

/-- An action of the parser. -/
abbrev Parse := StateT Parse.State (Except ParseFault)

namespace Parse

/-- Rejects the program at the current line. -/
def fail {α : Type} (place : String) (cause : GrammarCause) : Parse α := do
  throw (.error ⟨(← get).line, place, cause⟩)

/-- The scopes around the current word, of which there must be one. -/
def openScopes : Parse Scopes := do
  match (← get).scopes with
  | [] => throw .noScope
  | scope :: outer => return scope :: outer

/-- Closes the innermost scope. -/
def leaveScope : Parse Unit := do
  let scopes ← openScopes
  modify fun state => { state with scopes := scopes.tail }

/-! ### Reading -/

/-- What stands for the word at fault if a right brace has no counterpart. -/
def braceMark : String := "\x7b0\x7d"

/-- The effect of a word on the scopes at the moment it is read from the list. -/
def braceScope (kind : Kind) : Parse Unit := do
  if kind = .leftBrace then modify State.openScope
  else if kind = .rightBrace then
    match ← openScopes with
    | _ :: scope :: outer => modify fun state => { state with scopes := scope :: outer }
    | _ => fail Rule.program.text (.unexpectedEnd braceMark)

/-- Skips line marks. Returns the number of the line reached and the lines that are left. -/
def skipEnters (line : Nat) : List TokenLine → Nat × List TokenLine
  | .enter :: lines => skipEnters (line + 1) lines
  | lines => (line, lines)

/-- Reads the next word from the list. -/
def readLine : Parse Unit := do
  let state ← get
  let (line, lines) := skipEnters state.line state.lines
  match lines with
  | [] => set { state with word := none, lines := [], line := line }
  | .token token :: rest =>
    set { state with lines := rest, line := line }
    braceScope token.kind
    modify fun state => { state with word := some token }
  | .bare kind :: rest =>
    set { state with lines := rest, line := line }
    braceScope kind
    throw .missingWord
  | _ => throw .missingWord

/-- Moves on to the next word: one that was taken back, or the next one of the list. -/
def readWord : Parse Unit := do
  let state ← get
  match state.pending with
  | word :: rest => set { state with word := word, pending := rest }
  | [] => readLine

/-- Takes words back: `token` becomes the current word, and `words` and then the word that was
current follow it. -/
def takeBack (token : Token) (words : List Token) : Parse Unit :=
  modify fun state =>
    { state with word := some token, pending := state.pending ++ words.map some ++ [state.word] }

/-! ### Looking at the current word -/

/-- Whether the current word is of the given kind. -/
def at? (kind : Kind) : Parse Bool := do
  return (← get).word.any fun token => token.kind == kind

/-- Whether the current word is of one of the given kinds. -/
def atAny? (kinds : List Kind) : Parse Bool := do
  return (← get).word.any fun token => kinds.contains token.kind

/-- The current word, which must be of the given kind. -/
def expect (kind : Kind) (cause : GrammarCause) (rule : Rule) : Parse Token := do
  match (← get).word with
  | some token => if token.kind = kind then return token else fail rule.text cause
  | none => fail rule.text cause

/-- The spelling of the current word. -/
def spelling : Parse String := do
  return ((← get).word.map (·.spelling)).getD ""

/-! ### Leaves and branches -/

/-- A leaf at the current line. -/
def leaf (label : Label) : Parse SyntaxTree := do
  return .leaf label (← get).line

/-- A leaf for the current word as it is spelled. -/
def spelledLeaf : Parse SyntaxTree := do
  leaf (.ofText (← spelling))

/-- A leaf for a sign or a reserved word. -/
def kindLeaf (kind : Kind) : Parse SyntaxTree :=
  leaf (.word kind.text)

/-- A leaf for the current word, which must be of the given kind. -/
def expectLeaf (kind : Kind) (cause : GrammarCause) (rule : Rule) : Parse SyntaxTree := do
  let _ ← expect kind cause rule
  kindLeaf kind

/-- Reads a word, which must be of the given kind, and makes a leaf for it. -/
def nextLeaf (kind : Kind) (cause : GrammarCause) (rule : Rule) : Parse SyntaxTree := do
  readWord
  expectLeaf kind cause rule

/-- Reads a number and makes a leaf for it. Returns the number as it is spelled, too. -/
def nextNumber (rule : Rule) : Parse (String × SyntaxTree) := do
  readWord
  let token ← expect .number .lackNumber rule
  return (token.spelling, ← leaf (.number token.spelling))

/-- Reads a name and makes a leaf for it. Returns the name, too. -/
def nextName (cause : GrammarCause) (rule : Rule) : Parse (String × SyntaxTree) := do
  readWord
  let token ← expect .name cause rule
  return (token.spelling, ← leaf (.name token.spelling))

/-- A branch at the line that is current before its sons are read. -/
def branch (rule : Rule) (sons : Parse (List SyntaxTree)) : Parse SyntaxTree := do
  let line := (← get).line
  return .branch rule line (← sons)

/-- Repeats `round` as long as `continues` says so, and joins the results. Every round reads at
least one word, so that `limit` may be the number of words that are left. -/
def many (continues : Parse Bool) (round : Parse (List SyntaxTree)) :
    Nat → Parse (List SyntaxTree)
  | 0 => do if ← continues then throw .exhausted else return []
  | limit + 1 => do
    if ← continues then
      let first ← round
      return first ++ (← many continues round limit)
    else return []

/-- A list with commas between its elements, the first of which begins at the current word. -/
def separated (limit : Nat) (element : Parse SyntaxTree) : Parse (List SyntaxTree) := do
  let first ← element
  let rest ← many (at? .comma) (do
    let comma ← kindLeaf .comma
    readWord
    return [comma, ← element]) limit
  return first :: rest

/-! ### Names -/

/-- Declares a name in the innermost scope. -/
def declare (name : String) (category : Category) (rule : Rule) : Parse Unit := do
  match (← openScopes).put? name category 0 "" with
  | some scopes => modify fun state => { state with scopes := scopes }
  | none => fail rule.text (.redeclared name)

/-- Insists on a name being declared. -/
def checkDeclared (name : String) (place : String) : Parse Unit := do
  if ((← openScopes).find? name).isNone then fail place (.undeclared name)

end Parse

end ScoreLang
