import ScoreLang.Smf.Decode
import ScoreLang.Text.Blank

/-!
# Scores

A score is a track that is read as a text. Its key is stated by the first key signature; its text
is the sequence of chords. Only messages that let a note sound count: a chord is such a message and
those after it whose own delta is zero, whatever stands between them.

* `Score.ofTracks?` — the score of a file: its first track, which must state a key;
* `Score.Cursor` — a place in the track, with `Cursor.seek` and `Cursor.next` to move on by a note
  and by a chord;
* `Score.codes` — the codes of all chords;
* `Score.ofText` — the track that plays a text in C major.
-/

namespace ScoreLang

open Smf (Event Message)

/-- A track with its key. -/
structure Score where
  /-- The key that the first key signature states. -/
  key : Key
  /-- The place of that key signature in the track. -/
  keyPlace : Nat
  /-- The events of the track. -/
  track : List Event
  deriving DecidableEq, Repr

namespace Score

/-- The first key signature at or after the given place. -/
def findKey? (place : Nat) : List Event → Option (Key × Nat)
  | [] => none
  | event :: events =>
    match event.message with
    | .keySignature key => some (key, place)
    | _ => findKey? (place + 1) events

/-- The score of a file: its first track, if there is one and it states a key. -/
def ofTracks? : List (List Event) → Option Score
  | [] => none
  | track :: _ => (findKey? 0 track).map fun found => ⟨found.1, found.2, track⟩

/-! ### Reading chords -/

/-- A place in a track: how many events have been passed, and those that are left. -/
structure Cursor where
  /-- The number of events passed. -/
  place : Nat
  /-- The events that are left. -/
  rest : List Event
  deriving DecidableEq, Repr

/-- The start of the track. -/
def start (score : Score) : Cursor := ⟨0, score.track⟩

/-- The place of the key signature, where a score is opened. -/
def atKey (score : Score) : Cursor := ⟨score.keyPlace, score.track.drop score.keyPlace⟩

/-- Moves on to the next event that lets a note sound, or to the end. -/
def seekFrom (place : Nat) : List Event → Cursor
  | [] => ⟨place, []⟩
  | event :: events =>
    match event.message.audible? with
    | some _ => ⟨place, event :: events⟩
    | none => seekFrom (place + 1) events

/-- Moves on to the next event that lets a note sound, or to the end. -/
def Cursor.seek (cursor : Cursor) : Cursor :=
  seekFrom cursor.place cursor.rest

/-- Whether a note is left. -/
def Cursor.hasNote (cursor : Cursor) : Bool :=
  !cursor.seek.rest.isEmpty

/-- Gathers the notes of a chord: `code` holds the bits of its notes so far, and `begun` says
whether there is one. A note that does not begin together with the chord is left for the next. -/
def gather (key : Key) (begun : Bool) (code place : Nat) : List Event → Nat × Cursor
  | [] => (code, ⟨place, []⟩)
  | event :: events =>
    match event.message.audible? with
    | none => gather key begun code (place + 1) events
    | some note =>
      if begun && event.delta ≠ 0 then (code, ⟨place, event :: events⟩)
      else gather key true (code ||| key.bit note.toNat) (place + 1) events

/-- The code of the next chord, zero if there is none, and the place of the note after it. -/
def Cursor.next (key : Key) (cursor : Cursor) : Nat × Cursor :=
  gather key false 0 cursor.place cursor.rest

/-- The codes of the chords that are left, and the end of the track; `done` holds the codes already
read, last one first. A chord takes at least one event, so that `fuel` may be the number of events
that are left. -/
def Cursor.remaining (key : Key) : Nat → List Nat → Cursor → List Nat × Cursor
  | 0, done, cursor => (done.reverse, cursor.seek)
  | fuel + 1, done, cursor =>
    if cursor.hasNote then
      let chord := cursor.next key
      remaining key fuel (chord.1 :: done) chord.2
    else (done.reverse, cursor.seek)

/-- The codes of all chords that are left, and the end of the track. -/
def Cursor.all (key : Key) (cursor : Cursor) : List Nat × Cursor :=
  cursor.remaining key cursor.rest.length []

/-- The codes of all chords of a score. -/
def codes (score : Score) : List Nat :=
  (score.start.all score.key).1

/-! ### Writing a text -/

/-- The messages that open a track: its name, time signature, key and tempo, and the settings of
the instrument. -/
def opening (key : Key) : List Message :=
  [.trackName "Piano", .timeSignature 4 2 32 8, .keySignature key, .tempo 0x0c 0x35 0x00,
    .control 121 0, .program 0, .control 7 100, .control 10 64, .control 91 0, .control 93 0]

/-- The velocity of the notes that are written. -/
def velocity : UInt8 := 80

/-- The ticks of a note. -/
def noteTicks : Nat := 227

/-- The ticks between two notes. -/
def restTicks : Nat := 13

/-- The notes of a chord set to the given velocity at the same time, `delta` ticks after the event
before. -/
def strike (velocity : UInt8) (delta : Nat) : List Int → List Event
  | [] => []
  | note :: notes =>
    ⟨delta, .noteOn (UInt8.ofInt note) velocity⟩ ::
      notes.map fun note => ⟨0, .noteOn (UInt8.ofInt note) velocity⟩

/-- The events that play a chord: its notes begin `delta` ticks after the event before, and end
together. -/
def play (delta : Nat) (chord : List Int) : List Event :=
  strike velocity delta chord ++ strike 0 noteTicks chord

/-- The events that play the given chords, the first after `delta` ticks. An empty chord plays
nothing. -/
def playAll (delta : Nat) : List (List Int) → List Event
  | [] => []
  | chord :: chords => play delta chord ++
      playAll (if chord.isEmpty then delta else restTicks) chords

/-- The track that plays a text in C major, a chord for each character. -/
def ofText (text : List Char) : List Event :=
  ((opening .cMajor).map fun message => ⟨0, message⟩) ++ [⟨0, .port 0⟩] ++
    playAll 0 (text.map fun c => Key.cMajor.chord c.toNat) ++ [⟨1, .endOfTrack⟩]

/-- The bytes of the file that plays a text; its line ends are unified first. -/
def fileOfText (text : String) : List UInt8 :=
  Smf.encode (ofText (Text.unifyLineEnds text.toList))

end Score

/-! ### Opening a file -/

/-- Why a file is not a score. -/
inductive ScoreFault where
  /-- The bytes are not those of a standard MIDI file. -/
  | file (fault : Smf.Fault)
  /-- There is no track, or the first one states no key. -/
  | noKey
  deriving DecidableEq, Repr

/-- The score that the bytes of a file hold. -/
def Score.ofBytes (bytes : List UInt8) : Except ScoreFault Score :=
  match Smf.decode bytes with
  | .error fault => .error (.file fault)
  | .ok tracks =>
    match Score.ofTracks? tracks with
    | some score => .ok score
    | none => .error .noKey

/-- The bytes of the messages that open a track in the key of the given name. -/
def Score.openingOf (keyName : String) : Except String (List (List UInt8)) :=
  match Key.ofName? keyName with
  | some key => .ok ((Score.opening key).map Message.bytes)
  | none => .error ("invalid key " ++ Text.quoted keyName)

end ScoreLang
