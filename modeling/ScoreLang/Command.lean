import ScoreLang.Files
import ScoreLang.Performance

/-!
# Commands

The two commands of the program: `play` performs a score, `transcribe` makes a score of a text. A
command is given arguments and files; it shows something on the console, changes the files, and may
fail.
-/

namespace ScoreLang

/-- Why a command fails. -/
inductive CommandFault where
  /-- An argument is missing. -/
  | noArgument
  /-- The command has said what is wrong and gives up; its exit status. -/
  | exit (status : Nat)
  /-- The score does not exist. -/
  | noScore
  /-- A file cannot be read or written. -/
  | file (fault : Files.Fault)
  /-- The performance breaks down. -/
  | breakdown (cause : Breakdown)
  deriving DecidableEq, Repr

/-- What has become of a command. -/
structure CommandResult where
  /-- What the console shows. -/
  console : String
  files : Files
  /-- Why the command has failed, if it has. -/
  fault : Option CommandFault
  deriving DecidableEq, Repr

namespace Command

/-- The exit status of a command that gives up. -/
def failureStatus : Nat := 1

/-- What the console shows if a score is not a file. -/
def noFileReport (path : String) : String := "错误：文件 '" ++ path ++ "' 不存在\n"

/-- What the console shows if the name of a file is not that of a score. -/
def noScoreReport (path : String) : String := "错误：文件 '" ++ path ++ "' 不是MIDI文件\n"

/-- What is said if a score does not exist. -/
def noScoreMessage : String := "找不到指定的文件"

/-- What the console shows if arguments are missing. -/
def usageReport : String :=
  "Usage: python -m src.midi.midi_writer input_file output_file\n"

/-- Whether the name of a file is that of a score. -/
def isScoreName (path : String) : Bool := path.endsWith ".mid"

/-- The names of the files for the listings, and the listings. -/
def listingFiles (listings : Listings) : List (String × Option String) :=
  [("lexical.o", listings.tokens), ("grammar.o", listings.outline), ("semantic.o", listings.code)]

/-- Files with the listings of a performance among them. -/
def keepListings (files : Files) (listings : Listings) : Files :=
  (listingFiles listings).foldl (fun files listing => files.setListing listing.1 listing.2) files

/-- Performs the score at a path. -/
def playFile (files : Files) (path : String) (input : List String) (budget : Nat) :
    CommandResult :=
  match files.find path with
  | .nothing => ⟨"", files, some .noScore⟩
  | .directory => ⟨"", files, some (.file .directory)⟩
  | .file bytes =>
    let performance := Performance.ofBytes bytes input budget
    ⟨performance.console, keepListings files performance.listings,
      performance.breakdown.map .breakdown⟩

/-- Performs the score that the first argument names. -/
def play (files : Files) (arguments : List String) (input : List String) (budget : Nat) :
    CommandResult :=
  match arguments with
  | [] => ⟨"", files, some .noArgument⟩
  | path :: _ =>
    match files.find path with
    | .file _ =>
      if isScoreName path then playFile files path input budget
      else ⟨noScoreReport path, files, some (.exit failureStatus)⟩
    | _ => ⟨noFileReport path, files, some (.exit failureStatus)⟩

/-- Makes a score of the text in the file that the first argument names, and writes it to the file
that the second one names. -/
def transcribe (files : Files) (arguments : List String) : CommandResult :=
  match arguments with
  | source :: target :: _ =>
    let written := do
      let text ← files.readText source
      files.write target (Score.fileOfText text)
    match written with
    | .ok files => ⟨"", files, none⟩
    | .error fault => ⟨"", files, some (.file fault)⟩
  | _ => ⟨usageReport, files, some (.exit failureStatus)⟩

end Command

end ScoreLang
