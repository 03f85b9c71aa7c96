import ScoreLang.Code.Program
import ScoreLang.Machine.Run
import ScoreLang.Parse.Program
import ScoreLang.Score
import ScoreLang.Token.Lexer

/-!
# Performances

To perform a score is to read its text, compile it and run the code. Every stage leaves a listing:
the tokens, the outline of the syntax tree and the code.

Errors of the program, in its text or while it runs, are shown on the console, and that is the end
of the performance. Everything else that goes wrong is a breakdown.
-/

namespace ScoreLang

/-- The tokens of a score. -/
def Score.tokens (score : Score) : Tokens :=
  tokenize (score.codes.map Char.ofNat)

/-- Why a performance breaks down. -/
inductive Breakdown where
  /-- The file is not a score. -/
  | score (fault : ScoreFault)
  /-- The text ends inside a comment. -/
  | openComment
  /-- The parser fails. -/
  | parse (fault : ParseFault)
  /-- The code generator fails. -/
  | code (fault : CodeFault)
  /-- The machine fails. -/
  | machine (fault : Machine.Fault)
  deriving DecidableEq, Repr

/-- The wording of a breakdown, if it has one. -/
def Breakdown.message? : Breakdown → Option String
  | .score (.file fault) => fault.message?
  | .code fault => fault.message?
  | .machine fault => fault.message?
  | _ => none

/-- The listings that the stages have left. -/
structure Listings where
  tokens : Option String
  /-- The outline of the syntax tree. -/
  outline : Option String
  /-- The code, as far as it has been written. -/
  code : Option String
  deriving DecidableEq, Repr

/-- What has become of a score when it has been compiled. -/
structure Compilation where
  /-- What the console shows. -/
  console : String
  listings : Listings
  /-- The code. Otherwise the breakdown, if the console does not tell what is wrong. -/
  code : Except (Option Breakdown) String
  deriving Repr

namespace Compilation

/-- Generates the code of a program; `console` and `listings` are those of the stages before. -/
def ofTree (console : String) (listings : Listings) (tree : SyntaxTree) : Compilation :=
  let result := generate tree 0
  let console := console ++ generateReport result
  let listings := { listings with code := some result.2.code }
  match result.1 with
  | .ok _ => ⟨console, listings, .ok result.2.code⟩
  | .error (.error error) => ⟨console ++ error.complaint.report, listings, .error none⟩
  | .error fault => ⟨console, listings, .error (some (.code fault))⟩

/-- Parses tokens and generates the code. -/
def ofTokens (tokens : Tokens) : Compilation :=
  let listings := ⟨some (TokenLine.listText tokens.lines), none, none⟩
  if tokens.complete then
    match parse tokens.lines with
    | .ok program =>
      ofTree tokens.report { listings with outline := some program.tree.outline } program.tree
    | .error (.error error) => ⟨tokens.report ++ error.complaint.report, listings, .error none⟩
    | .error fault => ⟨tokens.report, listings, .error (some (.parse fault))⟩
  else ⟨tokens.report, listings, .error (some .openComment)⟩

/-- Compiles the score that the bytes of a file hold. -/
def ofBytes (bytes : List UInt8) : Compilation :=
  match Score.ofBytes bytes with
  | .ok score => ofTokens score.tokens
  | .error fault => ⟨"", ⟨none, none, none⟩, .error (some (.score fault))⟩

end Compilation

/-- What has become of a score when it has been performed. -/
structure Performance where
  /-- What the console shows. -/
  console : String
  listings : Listings
  /-- The breakdown, if there is one. -/
  breakdown : Option Breakdown
  deriving DecidableEq, Repr

/-- Performs the score that the bytes of a file hold, with some lines of input. The machine makes at
most `budget` steps. -/
def Performance.ofBytes (bytes : List UInt8) (input : List String) (budget : Nat) : Performance :=
  let compilation := Compilation.ofBytes bytes
  match compilation.code with
  | .error breakdown => ⟨compilation.console, compilation.listings, breakdown⟩
  | .ok code =>
    let outcome := Machine.run (Machine.Code.ofText code) input budget
    let console := compilation.console ++ outcome.state.console
    match outcome.fault with
    | none => ⟨console, compilation.listings, none⟩
    | some fault =>
      match fault.complaint? with
      | some complaint => ⟨console ++ complaint.report, compilation.listings, none⟩
      | none => ⟨console, compilation.listings, some (.machine fault)⟩

end ScoreLang
