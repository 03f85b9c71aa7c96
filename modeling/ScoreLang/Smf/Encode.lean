import ScoreLang.Smf.Message

/-!
# Writing a Standard MIDI File

A file is a header chunk followed by track chunks. An event is its delta, as a variable-length
quantity, and its message; a channel message whose status byte equals that of the message before
it is written without the status byte.
-/

namespace ScoreLang.Smf

/-- The bytes of a variable-length quantity that are followed by another one: seven bits each, most
significant first, all with the high bit set. -/
def leadingGroups (n : Nat) : List UInt8 :=
  if n = 0 then [] else leadingGroups (n / 128) ++ [UInt8.ofNat (n % 128 + 128)]
termination_by n
decreasing_by omega

/-- A number as a variable-length quantity. -/
def quantity (n : Nat) : List UInt8 :=
  leadingGroups (n / 128) ++ [UInt8.ofNat (n % 128)]

/-- The four bytes of a number, most significant first. -/
def bytes32 (n : Nat) : List UInt8 :=
  [UInt8.ofNat (n / 0x1000000), UInt8.ofNat (n / 0x10000), UInt8.ofNat (n / 0x100), UInt8.ofNat n]

/-- The two bytes of a number, most significant first. -/
def bytes16 (n : Nat) : List UInt8 :=
  [UInt8.ofNat (n / 0x100), UInt8.ofNat n]

/-- The data of a key signature: the number of sharps, as a signed byte, and the mode. -/
def keyData (key : Key) : List UInt8 :=
  [UInt8.ofInt key.sharps, match key.mode with | .major => 0 | .minor => 1]

/-- The bytes of a meta message. -/
def metaBytes (kind : UInt8) (data : List UInt8) : List UInt8 :=
  0xff :: kind :: quantity data.length ++ data

/-- The bytes of a message, with its status byte. -/
def Message.bytes : Message → List UInt8
  | .voice status data => status :: data
  | .exclusive data => 0xf0 :: quantity (data.length + 1) ++ data ++ [0xf7]
  | .keySignature key => metaBytes 0x59 (keyData key)
  | .metadata kind data => metaBytes kind data

/-- The status byte that a later message may leave out after this one. -/
def Message.running? : Message → Option UInt8
  | .voice status _ => if status < 0xf0 then some status else none
  | _ => none

/-- The bytes of a message after the status byte `running`, if there is one to be left out. -/
def Message.bytesAfter (running : Option UInt8) (message : Message) : List UInt8 :=
  match message with
  | .voice status data => if running = some status then data else status :: data
  | _ => message.bytes

/-- The bytes of a list of events, the first of which comes after the status byte `running`. -/
def eventBytes (running : Option UInt8) : List Event → List UInt8
  | [] => []
  | event :: events =>
    quantity event.delta ++ event.message.bytesAfter running ++
      eventBytes event.message.running? events

/-- The name of the header chunk, `MThd`. -/
def headerName : List UInt8 := [0x4d, 0x54, 0x68, 0x64]

/-- The name of a track chunk, `MTrk`. -/
def trackName : List UInt8 := [0x4d, 0x54, 0x72, 0x6b]

/-- The chunk of a track. -/
def trackChunk (track : List Event) : List UInt8 :=
  let body := eventBytes none track
  trackName ++ bytes32 body.length ++ body

/-- The ticks of a beat in the files that are written. -/
def ticksPerBeat : Nat := 480

/-- The bytes of a file that holds one track. -/
def encode (track : List Event) : List UInt8 :=
  headerName ++ bytes32 6 ++ bytes16 1 ++ bytes16 1 ++ bytes16 ticksPerBeat ++
    trackChunk track

end ScoreLang.Smf
