import ScoreLang.Number.Logarithm
import ScoreLang.Smf.Encode
import ScoreLang.Text.Quoted

/-!
# Reading a Standard MIDI File

The bytes of a file are read from left to right by actions of the `Reading` monad, which know what
is left and how many bytes have been read, and fail with the first `Fault`.

A track chunk ends where exactly as many bytes have been read as it announces. An event that runs
over this mark is not cut short; reading then goes on to the end of the file, which is a fault. All
tracks are read, so that a fault in a later track is found too; what follows the last track is not
looked at.

A byte below 128 in the place of a status byte is the first data byte of a message with the status
byte of the last message that was not a meta message.
-/

namespace ScoreLang.Smf

/-- What is wrong with the bytes of a file. -/
inductive Fault where
  /-- The file ends too early. -/
  | truncated
  /-- The file does not begin with a header chunk. -/
  | noHeader
  /-- A track does not begin with a track chunk. -/
  | noTrackHeader
  /-- A status byte is left out before any was given. -/
  | noRunningStatus
  /-- No message has this status byte. -/
  | undefinedStatus (status : UInt8)
  /-- A data byte has its high bit set. -/
  | dataByte
  /-- A data byte of a system exclusive message has its high bit set. -/
  | exclusiveDataByte
  /-- A data byte follows a status byte that takes none. -/
  | unexpectedData (status : UInt8)
  /-- A message is longer than `maxLength`. -/
  | tooLong (length : Nat)
  /-- A meta message lacks a field. -/
  | missingField
  /-- A field of a meta message is above its greatest value. -/
  | fieldRange (greatest : Nat)
  /-- The denominator of a time signature is not taken for a power of two. -/
  | denominator
  /-- A frame rate that no code stands for. -/
  | frameRate
  /-- No key has this many sharps in this mode. -/
  | keySignature (sharps : Int) (mode : UInt8)
  deriving DecidableEq, Repr

/-- The greatest length of a message with a length of its own. -/
def maxLength : Nat := 1000000

/-- The names of the system messages that carry no data. -/
def bareName (status : UInt8) : String :=
  if status = 0xf6 then "tune_request"
  else if status = 0xf8 then "clock"
  else if status = 0xfa then "start"
  else if status = 0xfb then "continue"
  else if status = 0xfc then "stop"
  else "active_sensing"

/-- The wording of a fault; a fault of the bare structure has none. -/
def Fault.message? : Fault → Option String
  | .truncated | .missingField | .frameRate => none
  | .noHeader => some "MThd not found. Probably not a MIDI file"
  | .noTrackHeader => some "no MTrk header at start of track"
  | .noRunningStatus => some "running status without last_status"
  | .undefinedStatus status => some ("undefined status byte 0x" ++ Text.hexDigits 2 status.toNat)
  | .dataByte | .exclusiveDataByte => some "data byte must be in range 0..127"
  | .unexpectedData status => some ("wrong number of bytes for " ++ bareName status ++ " message")
  | .tooLong length =>
    some ("Message length " ++ toString length ++ " exceeds maximum length " ++ toString maxLength)
  | .fieldRange greatest => some ("attribute must be in range 0.." ++ toString greatest)
  | .denominator => some "denominator must be a power of 2"
  | .keySignature sharps mode =>
    let count := if sharps < 7 then toString sharps.natAbs ++ " flats" else toString sharps ++
      " sharps"
    some ("Could not decode key with " ++ count ++ " and mode " ++ toString mode.toNat)

/-! ### Bytes -/

/-- The bytes that are left, and the number of those already read. -/
structure Input where
  /-- The bytes that are left. -/
  rest : List UInt8
  /-- The number of bytes read. -/
  position : Nat
  deriving DecidableEq, Repr

/-- An action that reads from the input, or fails. -/
abbrev Reading := StateT Input (Except Fault)

namespace Reading

/-- Reads one byte. -/
def byte : Reading UInt8 := fun input =>
  match input.rest with
  | [] => .error .truncated
  | b :: rest => .ok (b, ⟨rest, input.position + 1⟩)

/-- Reads up to the given number of bytes, and fewer if the input ends. -/
def upTo (n : Nat) : Reading (List UInt8) := fun input =>
  let taken := input.rest.take n
  .ok (taken, ⟨input.rest.drop n, input.position + taken.length⟩)

/-- Reads the given number of bytes. -/
def bytes (n : Nat) : Reading (List UInt8) := do
  let taken ← upTo n
  if taken.length < n then throw .truncated
  return taken

/-- Reads the data of a message that states its length. -/
def data (length : Nat) : Reading (List UInt8) :=
  if maxLength < length then throw (.tooLong length) else bytes length

/-- The number that a variable-length quantity spells, after groups that spell `high`. -/
def quantityFrom (high : Nat) : List UInt8 → Nat → Except Fault (Nat × Input)
  | [], _ => .error .truncated
  | b :: rest, position =>
    let n := high * 128 + b.toNat % 128
    if b < 128 then .ok (n, ⟨rest, position + 1⟩) else quantityFrom n rest (position + 1)

/-- Reads a variable-length quantity. -/
def quantity : Reading Nat := fun input =>
  quantityFrom 0 input.rest input.position

end Reading

/-- The number that bytes spell, most significant first. -/
def natOfBytes (bytes : List UInt8) : Nat :=
  bytes.foldl (fun n b => n * 256 + b.toNat) 0

/-- The signed number that two bytes spell. -/
def signed16 (bytes : List UInt8) : Int :=
  Int.bmod (natOfBytes bytes) 0x10000

/-! ### Messages -/

/-- The number of data bytes after a status byte. -/
def dataLength? (status : UInt8) : Option Nat :=
  let high := status >>> 4
  if high = 0xc || high = 0xd then some 1
  else if 8 ≤ high && high ≤ 0xe then some 2
  else if status = 0xf2 then some 2
  else if status = 0xf1 || status = 0xf3 then some 1
  else if status = 0xf6 || status = 0xf8 || status = 0xfa || status = 0xfb || status = 0xfc ||
    status = 0xfe then some 0
  else none

/-- A field of a meta message: the byte at the given place. -/
def field (data : List UInt8) (place : Nat) : Except Fault UInt8 :=
  match data[place]? with
  | some b => .ok b
  | none => .error .missingField

/-- A field of a meta message that may not exceed the given value. -/
def boundedField (data : List UInt8) (place greatest : Nat) : Except Fault UInt8 := do
  let b ← field data place
  if greatest < b.toNat then throw (.fieldRange greatest) else return b

/-- The key that the data of a key signature states. -/
def keyOfData (data : List UInt8) : Except Fault Key := do
  let sharps := Int.bmod (← field data 0).toNat 256
  let mode ← field data 1
  let key? :=
    if mode = 0 then Key.ofSharps? sharps .major
    else if mode = 1 then Key.ofSharps? sharps .minor
    else none
  match key? with
  | some key => return key
  | none => throw (.keySignature sharps mode)

/-- Whether the data of a sequence number are complete and in range. They may be left out. -/
def checkSequenceNumber (data : List UInt8) : Except Fault Unit := do
  if !data.isEmpty then
    let number := natOfBytes [← field data 0, ← field data 1]
    if 255 < number then throw (.fieldRange 255)

/-- Whether the data of a time offset are complete and in range. -/
def checkTimeOffset (data : List UInt8) : Except Fault Unit := do
  let rate ← field data 0
  if 3 < rate.toNat / 32 then throw .frameRate
  let _ ← boundedField data 1 59
  let _ ← boundedField data 2 59
  let _ ← field data 3
  let _ ← boundedField data 4 99

/-- Whether the data of a time signature are complete. The denominator is given by the exponent of a
power of two, and is refused if its logarithm does not come out as that exponent. -/
def checkTimeSignature (data : List UInt8) : Except Fault Unit := do
  let _ ← field data 0
  let exponent ← field data 1
  if !Binary64.isExactPower exponent.toNat then throw .denominator
  let _ ← field data 2
  let _ ← field data 3

/-- Whether a meta message has the fields that its kind asks for, in their ranges. Kinds that are
not listed may hold any data. -/
def checkMeta (kind : UInt8) (data : List UInt8) : Except Fault Unit := do
  if kind = 0x00 then checkSequenceNumber data
  else if kind = 0x20 then let _ ← field data 0
  else if kind = 0x51 then let _ ← field data 2
  else if kind = 0x54 then checkTimeOffset data
  else if kind = 0x58 then checkTimeSignature data

/-- The meta message of the given kind with the given data. -/
def metaMessage (kind : UInt8) (data : List UInt8) : Except Fault Message := do
  if kind = 0x59 then return .keySignature (← keyOfData data)
  checkMeta kind data
  return .metadata kind data

/-- The data of a system exclusive message without the bytes that may enclose it. -/
def stripExclusive (data : List UInt8) : List UInt8 :=
  let opened := if data.head? = some 0xf0 then data.tail else data
  if opened.getLast? = some 0xf7 then opened.dropLast else opened

/-- Reads a system exclusive message after its status byte. -/
def readExclusive : Reading Message := do
  let length ← Reading.quantity
  let data := stripExclusive (← Reading.data length)
  if data.any (127 < ·) then throw .exclusiveDataByte
  return .exclusive data

/-- Reads a meta message after its status byte. -/
def readMeta : Reading Message := do
  let kind ← Reading.byte
  let length ← Reading.quantity
  let data ← Reading.data length
  metaMessage kind data

/-- Reads a channel or system message after its status byte and the data bytes `begun`. -/
def readVoice (status : UInt8) (begun : List UInt8) : Reading Message := do
  match dataLength? status with
  | none => throw (.undefinedStatus status)
  | some length =>
    let data := begun ++ (← Reading.bytes (length - begun.length))
    if data.any (127 < ·) then throw .dataByte
    if length < data.length then throw (.unexpectedData status)
    return .voice status data

/-- Reads a message with the given status byte; `begun` holds the data byte that stood in the
place of a status byte that was left out. -/
def readMessage (status : UInt8) (begun : List UInt8) : Reading Message :=
  if status = 0xff then readMeta
  else if status = 0xf0 || status = 0xf7 then readExclusive
  else readVoice status begun

/-- Reads an event; `running` is the status byte that may be left out. Returns the event and the
status byte that the next event may leave out. -/
def readEvent (running : Option UInt8) : Reading (Event × Option UInt8) := do
  let delta ← Reading.quantity
  let first ← Reading.byte
  if first < 0x80 then
    match running with
    | none => throw .noRunningStatus
    | some status => return (⟨delta, ← readMessage status [first]⟩, running)
  else
    let message ← readMessage first []
    return (⟨delta, message⟩, if first = 0xff then running else some first)

/-! ### Chunks -/

/-- Reads events until exactly `stop` bytes of the file have been read; `done` are the events
already read, last one first. Every event takes at least one byte, so that `fuel` may be the number
of bytes that are left. -/
def readEvents (stop : Nat) : Nat → List Event → Option UInt8 → Reading (List Event)
  | fuel, done, running => do
    if (← get).position = stop then return done.reverse
    match fuel with
    | 0 => throw .truncated
    | fuel + 1 =>
      let (event, running) ← readEvent running
      readEvents stop fuel (event :: done) running

/-- Reads the name and the size of a chunk. -/
def readChunkHeader : Reading (List UInt8 × Nat) := do
  let name ← Reading.bytes 4
  let size ← Reading.bytes 4
  return (name, natOfBytes size)

/-- Reads a track chunk. -/
def readTrack : Reading (List Event) := do
  let (name, size) ← readChunkHeader
  if name ≠ trackName then throw .noTrackHeader
  let input ← get
  readEvents (input.position + size) input.rest.length [] none

/-- Reads the given number of tracks. -/
def readTracks : Nat → Reading (List (List Event))
  | 0 => return []
  | count + 1 => do
    let track ← readTrack
    return track :: (← readTracks count)

/-- Reads the header chunk; returns the number of tracks. A header may be longer than the six bytes
that are looked at, also longer than the file. -/
def readHeader : Reading Nat := do
  let (name, size) ← readChunkHeader
  if name ≠ headerName then throw .noHeader
  let header ← Reading.upTo size
  if header.length < 6 then throw .truncated
  return (signed16 ((header.drop 2).take 2)).toNat

/-- The tracks of a file. -/
def decode (bytes : List UInt8) : Except Fault (List (List Event)) := do
  let (tracks, _) ← (do readTracks (← readHeader) : Reading (List (List Event))) ⟨bytes, 0⟩
  return tracks

end ScoreLang.Smf
