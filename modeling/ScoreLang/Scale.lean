/-!
# Keys, Scales and Chords

A piece is written in one of thirty keys. The key's signature fixes eight scale notes, and each of
them stands for one bit of a character code, the lowest note for the lowest bit: a chord of scale
notes is the code whose bits are the sounding notes.

* `Key.scale` — the eight scale notes of a key, from low to high;
* `Key.chord` — the scale notes that spell a code;
* `Key.bit` — the bit that one note stands for, zero for a note outside the scale;
* `Key.code` — the code that a list of notes spells.

Notes are MIDI note numbers, with 60 for the middle C; notes outside the scale are silent in all
three directions.
-/

namespace ScoreLang

/-- Major and minor keys. -/
inductive Mode where
  | major
  | minor
  deriving DecidableEq, Repr

/-- A key: the number of sharps of its signature, from seven flats (`0`) over none (`7`) to seven
sharps (`14`), and its mode. -/
structure Key where
  /-- The number of sharps, plus seven. -/
  signature : Fin 15
  mode : Mode
  deriving DecidableEq, Repr

namespace Key

/-- The number of sharps of the signature; flats count as negative. -/
def sharps (key : Key) : Int :=
  (key.signature : Int) - 7

/-- The names of the major keys, from seven flats to seven sharps. -/
def majorNames : Vector String 15 :=
  #v["Cb", "Gb", "Db", "Ab", "Eb", "Bb", "F", "C", "G", "D", "A", "E", "B", "F#", "C#"]

/-- The names of the minor keys, from seven flats to seven sharps. -/
def minorNames : Vector String 15 :=
  #v["Abm", "Ebm", "Bbm", "Fm", "Cm", "Gm", "Dm", "Am", "Em", "Bm", "F#m", "C#m", "G#m", "D#m",
    "A#m"]

/-- The name of a key. -/
def name (key : Key) : String :=
  match key.mode with
  | .major => majorNames[key.signature]
  | .minor => minorNames[key.signature]

/-- All keys. -/
def all : List Key :=
  (List.finRange 15).map (⟨·, .major⟩) ++ (List.finRange 15).map (⟨·, .minor⟩)

/-- The key of the given name. -/
def ofName? (name : String) : Option Key :=
  all.find? fun key => key.name == name

/-- The key with the given number of sharps and mode. -/
def ofSharps? (sharps : Int) (mode : Mode) : Option Key :=
  all.find? fun key => key.sharps == sharps && key.mode == mode

/-- The key of C major, which has neither sharps nor flats. -/
def cMajor : Key := ⟨7, .major⟩

/-- How far the signature moves a note whose letter comes `place`-th among the sharps, in the
order F C G D A E B; the flats come in the opposite order. -/
def accidental (key : Key) (place : Int) : Int :=
  if place ≤ key.sharps then 1
  else if 8 - place ≤ -key.sharps then -1
  else 0

/-- The natural notes from the middle C to the C above it, each with the place of its letter among
the sharps. -/
def naturals : List (Int × Int) :=
  [(60, 2), (62, 4), (64, 6), (65, 1), (67, 3), (69, 5), (71, 7), (72, 2)]

/-- The eight scale notes of a key, from low to high. -/
def scale (key : Key) : List Int :=
  naturals.map fun natural => natural.1 + key.accidental natural.2

/-- The scale notes that spell the low eight bits of a code. -/
def chord (key : Key) (code : Nat) : List Int :=
  (key.scale.zipIdx.filter fun step => code.testBit step.2).map (·.1)

/-- The bit that a note stands for: that of its place in the scale, and zero outside. -/
def bit (key : Key) (note : Int) : Nat :=
  match key.scale.idxOf? note with
  | some place => Nat.pow 2 place
  | none => 0

/-- The code that a list of notes spells: a bit is set if its scale note is in the list. -/
def code (key : Key) (notes : List Int) : Nat :=
  key.scale.zipIdx.foldl
    (fun code step => if step.1 ∈ notes then code ||| Nat.pow 2 step.2 else code) 0

end Key

/-! ### Access by name -/

/-- Why a request for a chord or a code is refused. -/
inductive ScaleFault where
  /-- No key has this name. -/
  | unknownKey (name : String)
  /-- The text is not exactly one character. -/
  | notOneCharacter (text : String)
  /-- There are more notes than bits. -/
  | tooManyNotes (notes : List Int)
  /-- No key has the name that a signature gives. -/
  | unknownSignature
  deriving DecidableEq, Repr

/-- A list of notes in brackets. -/
def notesText (notes : List Int) : String :=
  "[" ++ ", ".intercalate (notes.map toString) ++ "]"

/-- The wording of the fault. -/
def ScaleFault.message : ScaleFault → String
  | .unknownKey name => "Invalid key: " ++ name
  | .notOneCharacter text => "Invalid character: " ++ text
  | .tooManyNotes notes => "Invalid notes: " ++ notesText notes
  | .unknownSignature => "Invalid key signature"

/-- The chord that spells a one-character text in the key of the given name. -/
def chordOf (keyName text : String) : Except ScaleFault (List Int) :=
  match Key.ofName? keyName, text.toList with
  | none, _ => .error (.unknownKey keyName)
  | some key, [c] => .ok (key.chord c.toNat)
  | some _, _ => .error (.notOneCharacter text)

/-- The character code that at most eight notes spell in the key of the given name. -/
def codeOf (keyName : String) (notes : List Int) : Except ScaleFault Nat :=
  match Key.ofName? keyName with
  | none => .error (.unknownKey keyName)
  | some key => if 8 < notes.length then .error (.tooManyNotes notes) else .ok (key.code notes)

/-- The bit that a note stands for in the key of the given name. -/
def bitOf (keyName : String) (note : Int) : Except ScaleFault Nat :=
  match Key.ofName? keyName with
  | none => .error .unknownSignature
  | some key => .ok (key.bit note)

end ScoreLang
