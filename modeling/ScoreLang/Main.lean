import ScoreLang.Command

/-!
# The Command Line

With `--write`, a text file and a score file, the text is transcribed into the score. Otherwise the
argument is a score, which is performed; its input is read when the program asks for it.
-/

namespace ScoreLang

/-- Writes the listings of a compilation to their files. -/
def writeListings (listings : Listings) : IO Unit := do
  for (name, text) in Command.listingFiles listings do
    if let some text := text then
      IO.FS.writeFile (Files.listingsDirectory ++ "/" ++ name) text

/-- Shows a text on the console. -/
def display (text : String) : IO Unit := do
  let console ← IO.getStdout
  console.putStr text
  console.flush

/-- Ends a command that has broken down. -/
def breakDown (message : Option String) : IO UInt32 := do
  IO.eprintln (message.getD "breakdown")
  return 1

/-- Runs code and shows what it writes as it is written. -/
partial def runCode (code : Machine.Code) (state : Machine.State) : IO UInt32 := do
  let (result, next) := Machine.step code state
  display next.console
  let next := { next with console := "" }
  match result with
  | .ok false => runCode code next
  | .ok true => return 0
  | .error .noInput =>
    let line ← (← IO.getStdin).getLine
    if line.isEmpty then breakDown none
    else
      let typed := String.ofList (line.toList.reverse.dropWhile (· == '\n')).reverse
      match (Machine.accept typed).run.run next with
      | (.ok _, next) => runCode code next
      | (.error fault, _) => breakDown fault.message?
  | .error fault =>
    match fault.complaint? with
    | some complaint =>
      display complaint.report
      return 0
    | none => breakDown fault.message?

/-- Performs a score. -/
def performFile (bytes : ByteArray) : IO UInt32 := do
  let compilation := Compilation.ofBytes bytes.toList
  writeListings compilation.listings
  display compilation.console
  match compilation.code with
  | .ok code => runCode (.ofText code) (.initial [])
  | .error none => return 0
  | .error (some breakdown) => breakDown breakdown.message?

/-- Performs the score at a path. -/
def playPath (path : String) : IO UInt32 := do
  match ← (IO.FS.readBinFile path).toBaseIO with
  | .error _ =>
    display (Command.noFileReport path)
    return 1
  | .ok bytes =>
    if Command.isScoreName path then performFile bytes
    else
      display (Command.noScoreReport path)
      return 1

/-- Transcribes a text file into a score file. -/
def transcribePath (source target : String) : IO UInt32 := do
  let text ← IO.FS.readFile source
  IO.FS.writeBinFile target ⟨(Score.fileOfText text).toArray⟩
  return 0

end ScoreLang

open ScoreLang in
/-- The command line. -/
def main (arguments : List String) : IO UInt32 :=
  match arguments with
  | "--write" :: source :: target :: _ => transcribePath source target
  | "--write" :: _ => do
    display Command.usageReport
    return 1
  | path :: _ => playPath path
  | [] => breakDown none
