import ScoreLang.Scale

/-!
# Messages of a Standard MIDI File

A track is a list of events: a message and the number of ticks since the event before it. Messages
of a channel and of the system carry a status byte and data bytes; meta messages carry a kind and
data. Of the meta messages only the key signature has a form of its own, because the key of a score
is read from it.
-/

namespace ScoreLang.Smf

/-- A message of a track. -/
inductive Message where
  /-- A channel or system message: its status byte and its data bytes. -/
  | voice (status : UInt8) (data : List UInt8)
  /-- A system exclusive message, without the bytes that enclose it. -/
  | exclusive (data : List UInt8)
  /-- The meta message that states the key. -/
  | keySignature (key : Key)
  /-- Any other meta message. -/
  | metadata (kind : UInt8) (data : List UInt8)
  deriving DecidableEq, Repr

/-- A message and the ticks since the event before it. -/
structure Event where
  /-- The ticks since the event before. -/
  delta : Nat
  message : Message
  deriving DecidableEq, Repr

namespace Message

/-- A note of the first channel begins; with velocity zero it ends. -/
def noteOn (note velocity : UInt8) : Message := .voice 0x90 [note, velocity]

/-- A controller of the first channel is set. -/
def control (controller value : UInt8) : Message := .voice 0xb0 [controller, value]

/-- The first channel changes its instrument. -/
def program (number : UInt8) : Message := .voice 0xc0 [number]

/-- The name of the track, one byte for each character. -/
def trackName (name : String) : Message :=
    .metadata 0x03 (name.toList.map fun c => UInt8.ofNat c.toNat)

/-- The time signature: numerator, binary logarithm of the denominator, clocks per click, and
thirty-second notes per beat. -/
def timeSignature (numerator log2Denominator clocks thirtySeconds : UInt8) : Message :=
  .metadata 0x58 [numerator, log2Denominator, clocks, thirtySeconds]

/-- The tempo, in microseconds per beat as three bytes. -/
def tempo (high middle low : UInt8) : Message := .metadata 0x51 [high, middle, low]

/-- The port of the track. -/
def port (number : UInt8) : Message := .metadata 0x21 [number]

/-- The end of the track. -/
def endOfTrack : Message := .metadata 0x2f []

/-- The note that a message lets sound: that of a note-on of any channel with a velocity that is
not zero. -/
def audible? : Message → Option UInt8
  | .voice status [note, velocity] =>
    if status >>> 4 = 9 && velocity ≠ 0 then some note else none
  | _ => none

end Message

end ScoreLang.Smf
