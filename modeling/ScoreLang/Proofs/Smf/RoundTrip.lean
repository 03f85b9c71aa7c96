import Mathlib
import ScoreLang.Smf.Decode

/-!
# Reading What Was Written

A file that `Smf.encode` writes is read back by `Smf.decode` as the one track it was made from, for
every track whose messages are well formed and whose chunk fits the 32 bits of its length field.

The two sides keep different accounts of the status byte that may be left out. The writer forgets it
at every meta message; the reader keeps it. So a byte that is left out by the writer is always known
to the reader (`Known`), but not the other way round, and the induction over the events carries that
one implication.

## Main results

* `quantity_quantity`: a variable-length quantity is read back, at any position and with any bytes
  after it.
* `readEvent_bytesAfter`: so is an event, with or without its status byte.
* `decode_encode`: so is a file.
-/

namespace ScoreLang.Smf

open List

/-! ### Reading in steps -/

variable {data : List UInt8} {message : Message} {α : Type} {status : UInt8}

/-- A first action that succeeds hands its result and what is left to the second one. -/
theorem Reading.bind_of_ok {β : Type} {action : Reading α} {next : α → Reading β}
    {input rest : Input} {a : α} (h : action input = .ok (a, rest)) :
    (action >>= next) input = next a rest := by
  simp only [bind, StateT.bind, h, Except.bind]

@[simp] theorem Reading.pure_apply (a : α) (input : Input) :
    (pure a : Reading α) input = .ok (a, input) := rfl

@[simp] theorem Reading.get_bind (next : Input → Reading α) (input : Input) :
    (get >>= next) input = next input input := rfl

/-- The next byte. -/
theorem Reading.byte_cons (b : UInt8) (rest : List UInt8) (position : Nat) :
    Reading.byte ⟨b :: rest, position⟩ = .ok (b, ⟨rest, position + 1⟩) := rfl

/-- As many bytes as asked for, if they are there. -/
theorem Reading.bytes_append (taken rest : List UInt8) (position : Nat) :
    Reading.bytes taken.length ⟨taken ++ rest, position⟩ =
      .ok (taken, ⟨rest, position + taken.length⟩) := by
  simp [Reading.bytes, Reading.upTo, bind, StateT.bind, Except.bind, pure, StateT.pure, Except.pure]

/-- The data of a message that is not too long. -/
theorem Reading.data_append {taken : List UInt8} (h : taken.length ≤ maxLength)
    (rest : List UInt8) (position : Nat) :
    Reading.data taken.length ⟨taken ++ rest, position⟩ =
      .ok (taken, ⟨rest, position + taken.length⟩) := by
  rw [Reading.data, if_neg (by omega)]
  exact Reading.bytes_append taken rest position

/-! ### Variable-length quantities -/

/-- A group with the high bit set contributes its seven bits and does not end the quantity. -/
theorem quantityFrom_group (high n : Nat) (rest : List UInt8) (position : Nat) :
    Reading.quantityFrom high (UInt8.ofNat (n % 128 + 128) :: rest) position =
      Reading.quantityFrom (high * 128 + n % 128) rest (position + 1) := by
  have hvalue : (UInt8.ofNat (n % 128 + 128)).toNat = n % 128 + 128 := by
    rw [UInt8.toNat_ofNat']
    omega
  have hhigh : ¬ UInt8.ofNat (n % 128 + 128) < 128 := by
    rw [UInt8.lt_iff_toNat_lt, hvalue]
    simp
  rw [Reading.quantityFrom, if_neg hhigh, hvalue]
  congr 2
  omega

/-- The leading groups of a number spell it. Induction along the groups, which are written from the
last one backwards. -/
theorem quantityFrom_leadingGroups (n : Nat) : ∀ (rest : List UInt8) (position : Nat),
    Reading.quantityFrom 0 (leadingGroups n ++ rest) position =
      Reading.quantityFrom n rest (position + (leadingGroups n).length) := by
  induction n using leadingGroups.induct with
  | case1 =>
    intro rest position
    rw [leadingGroups]
    simp
  | case2 n hn ih =>
    intro rest position
    rw [leadingGroups, if_neg hn, append_assoc, ih, singleton_append,
      quantityFrom_group, length_append, Nat.div_add_mod']
    rfl

/-- A variable-length quantity is read back. -/
theorem quantity_quantity (n : Nat) (rest : List UInt8) (position : Nat) :
    Reading.quantity ⟨quantity n ++ rest, position⟩ =
      .ok (n, ⟨rest, position + (quantity n).length⟩) := by
  have hvalue : (UInt8.ofNat (n % 128)).toNat = n % 128 := by
    rw [UInt8.toNat_ofNat']
    omega
  have hlow : UInt8.ofNat (n % 128) < 128 := by
    rw [UInt8.lt_iff_toNat_lt, hvalue]
    exact Nat.mod_lt n (by decide)
  have hsum : n / 128 * 128 + n % 128 % 128 = n := by omega
  rw [Reading.quantity, quantity, append_assoc, quantityFrom_leadingGroups,
    singleton_append, Reading.quantityFrom, if_pos hlow, hvalue, hsum, length_append]
  rfl

/-- A quantity takes at least one byte. -/
theorem quantity_length_pos (n : Nat) : 0 < (quantity n).length := by
  simp [quantity]

/-! ### Messages -/

/-- A message that can be written and read back: its status byte is one and takes as many data bytes
as there are, no data byte has its high bit set, and the data of a meta message are not too long and
fit its kind. The key signature has a form of its own. -/
def Message.WellFormed : Message → Prop
  | .voice status data =>
    128 ≤ status ∧ dataLength? status = some data.length ∧ data.all (· ≤ 127) = true
  | .exclusive data => data.length < maxLength ∧ data.all (· ≤ 127) = true
  | .keySignature _ => True
  | .metadata kind data => data.length ≤ maxLength ∧ kind ≠ 0x59 ∧ checkMeta kind data = .ok ()

instance (message : Message) : Decidable message.WellFormed := by
  cases message <;> unfold Message.WellFormed <;> infer_instance

/-- No data byte of a message is refused. -/
theorem any_eq_false_of_all (h : data.all (· ≤ 127) = true) :
    data.any (127 < ·) = false := by
  rw [any_eq_false]
  intro b hb
  have hle : b ≤ 127 := by simpa using all_eq_true.mp h b hb
  simpa using hle

/-- The data bytes of a channel or system message are read back, whether or not the first ones have
been read before. -/
theorem readMessage_voice (begun more : List UInt8)
    (hlength : dataLength? status = some (begun ++ more).length)
    (hdata : (begun ++ more).all (· ≤ 127) = true) (rest : List UInt8) (position : Nat) :
    readMessage status begun ⟨more ++ rest, position⟩ =
      .ok (.voice status (begun ++ more), ⟨rest, position + more.length⟩) := by
  have hnot : ∀ special : UInt8, dataLength? special = none → status ≠ special := by
    rintro _ hnone rfl
    rw [hnone] at hlength
    simp at hlength
  have hmeta : status ≠ 0xff := hnot _ rfl
  have hopen : status ≠ 0xf0 := hnot _ rfl
  have hclose : status ≠ 0xf7 := hnot _ rfl
  have hmore : (begun ++ more).length - begun.length = more.length := by simp
  rw [readMessage, if_neg hmeta, if_neg (by simp [hopen, hclose]), readVoice, hlength]
  simp only [hmore]
  rw [Reading.bind_of_ok (Reading.bytes_append more rest position),
    any_eq_false_of_all hdata]
  simp

/-- The data of a key signature state the key. -/
theorem keyOfData_keyData (key : Key) : keyOfData (keyData key) = .ok key := by
  obtain ⟨signature, mode⟩ := key
  cases mode <;> revert signature <;> decide +kernel

/-- The data of a meta message are read back. -/
theorem readMeta_metaBytes {kind : UInt8} (hlength : data.length ≤ maxLength)
    (hmessage : metaMessage kind data = .ok message) (rest : List UInt8) (position : Nat) :
    readMeta ⟨kind :: (quantity data.length ++ data ++ rest), position⟩ =
      .ok (message, ⟨rest, position + 1 + (quantity data.length).length + data.length⟩) := by
  rw [readMeta, Reading.bind_of_ok (Reading.byte_cons kind _ position), append_assoc,
    Reading.bind_of_ok (quantity_quantity data.length _ _),
    Reading.bind_of_ok (Reading.data_append hlength rest _), hmessage]
  rfl

/-- The data of a system exclusive message are read back without the byte that closes it. -/
theorem readExclusive_data (hlength : data.length < maxLength) (hdata : data.all (· ≤ 127) = true)
    (rest : List UInt8) (position : Nat) :
    readExclusive ⟨quantity (data.length + 1) ++ data ++ [0xf7] ++ rest, position⟩ =
      .ok (.exclusive data,
        ⟨rest, position + (quantity (data.length + 1)).length + (data.length + 1)⟩) := by
  have hhead : (data ++ [(0xf7 : UInt8)]).head? ≠ some 0xf0 := by
    cases data with
    | nil => simp
    | cons b data =>
      have hb : b ≤ 127 := by simpa using all_eq_true.mp hdata b (by simp)
      intro h
      obtain rfl : b = 0xf0 := by simpa using h
      exact absurd hb (by decide)
  have hstrip : stripExclusive (data ++ [0xf7]) = data := by
    simp only [stripExclusive, if_neg hhead]
    simp
  have hclosed : (data ++ [(0xf7 : UInt8)]).length ≤ maxLength := by
    rw [length_append, length_singleton]
    omega
  have hread := Reading.data_append hclosed rest
    (position + (quantity (data.length + 1)).length)
  rw [length_append, length_singleton] at hread
  rw [readExclusive, append_assoc, append_assoc,
    Reading.bind_of_ok (quantity_quantity _ _ _), ← append_assoc, Reading.bind_of_ok hread,
    hstrip, any_eq_false_of_all hdata]
  simp

/-! ### Events -/

/-- A status byte that the writer may leave out is one that the reader knows, and opens a channel
message. -/
def Known (writer reader : Option UInt8) : Prop :=
  ∀ status, writer = some status → reader = some status ∧ status < 0xf0

theorem known_none (reader : Option UInt8) : Known none reader := by
  intro status h
  simp at h

/-- A channel message takes at least one data byte. -/
theorem dataLength?_ne_zero (hlow : 128 ≤ status) (hhigh : status < 0xf0) :
    dataLength? status ≠ some 0 := by
  have hall : ∀ i : Fin 256, 128 ≤ i.val → i.val < 240 →
      dataLength? (UInt8.ofNat i.val) ≠ some 0 := by decide +kernel
  have h := hall ⟨status.toNat, status.toNat_lt⟩ (UInt8.le_iff_toNat_le.mp hlow)
    (UInt8.lt_iff_toNat_lt.mp hhigh)
  rwa [UInt8.ofNat_toNat] at h

/-- The status byte that an event makes known to the reader is the one that the writer may leave out
after it. -/
theorem known_running? :
    Known (Message.voice status data).running? (some status) := by
  intro other h
  simp only [Message.running?] at h
  split at h
  · next hlow =>
      obtain rfl := Option.some.inj h
      exact ⟨rfl, hlow⟩
  · simp at h

/-- An event that begins with its status byte is read by reading the message after that byte. -/
theorem readEvent_opened {first : UInt8} {more rest : List UInt8} {next : Input}
    (reader : Option UInt8) (delta position : Nat) (hfirst : 128 ≤ first)
    (hread : readMessage first [] ⟨more ++ rest, position + (quantity delta).length + 1⟩ =
      .ok (message, next)) :
    readEvent reader ⟨quantity delta ++ first :: more ++ rest, position⟩ =
      .ok ((⟨delta, message⟩, if first = 0xff then reader else some first), next) := by
  rw [readEvent, append_assoc, Reading.bind_of_ok (quantity_quantity delta _ position),
    cons_append, Reading.bind_of_ok (Reading.byte_cons first _ _),
    if_neg (by simpa using hfirst), Reading.bind_of_ok hread]
  rfl

/-- A meta event is read back, and the status byte that may be left out stays as it was. -/
theorem readEvent_metaBytes {kind : UInt8} (hlength : data.length ≤ maxLength)
    (hmessage : metaMessage kind data = .ok message) (reader : Option UInt8) (delta : Nat)
    (rest : List UInt8) (position : Nat) :
    readEvent reader ⟨quantity delta ++ metaBytes kind data ++ rest, position⟩ =
      .ok ((⟨delta, message⟩, reader),
        ⟨rest, position + (quantity delta ++ metaBytes kind data).length⟩) := by
  have hend : position + (quantity delta ++ metaBytes kind data).length =
      position + (quantity delta).length + 1 + 1 + (quantity data.length).length + data.length := by
    simp only [metaBytes, length_append, length_cons]
    omega
  rw [hend]
  exact readEvent_opened reader delta position (by decide)
    (readMeta_metaBytes hlength hmessage rest (position + (quantity delta).length + 1))

/-- A channel or system event is read back with its status byte. -/
theorem readEvent_voice (hstatus : 128 ≤ status) (hlength : dataLength? status = some data.length)
    (hdata : data.all (· ≤ 127) = true) (reader : Option UInt8) (delta : Nat) (rest : List UInt8)
    (position : Nat) :
    readEvent reader ⟨quantity delta ++ status :: data ++ rest, position⟩ =
      .ok ((⟨delta, .voice status data⟩, some status),
        ⟨rest, position + (quantity delta ++ status :: data).length⟩) := by
  have hmeta : status ≠ 0xff := by
    rintro rfl
    have hnone : dataLength? 0xff = none := rfl
    rw [hnone] at hlength
    simp at hlength
  have hend : position + (quantity delta ++ status :: data).length =
      position + (quantity delta).length + 1 + data.length := by
    simp only [length_append, length_cons]
    omega
  have hread := readMessage_voice [] data hlength hdata rest
    (position + (quantity delta).length + 1)
  rw [readEvent_opened reader delta position hstatus hread, if_neg hmeta, hend]
  rfl

/-- A channel event is read back without its status byte, if the reader knows it. -/
theorem readEvent_running {b : UInt8} (hlength : dataLength? status = some (b :: data).length)
    (hdata : (b :: data).all (· ≤ 127) = true) (delta : Nat) (rest : List UInt8) (position : Nat) :
    readEvent (some status) ⟨quantity delta ++ b :: data ++ rest, position⟩ =
      .ok ((⟨delta, .voice status (b :: data)⟩, some status),
        ⟨rest, position + (quantity delta ++ b :: data).length⟩) := by
  have hb : b < 128 := by
    have hle : b ≤ 127 := by simpa using all_eq_true.mp hdata b (by simp)
    rw [UInt8.lt_iff_toNat_lt]
    exact Nat.lt_succ_of_le (UInt8.le_iff_toNat_le.mp hle)
  have hend : position + (quantity delta ++ b :: data).length =
      position + (quantity delta).length + 1 + data.length := by
    simp only [length_append, length_cons]
    omega
  have hread := readMessage_voice [b] data hlength hdata rest
    (position + (quantity delta).length + 1)
  rw [readEvent, append_assoc, Reading.bind_of_ok (quantity_quantity delta _ position),
    cons_append, Reading.bind_of_ok (Reading.byte_cons b _ _), if_pos hb, hend]
  exact Reading.bind_of_ok hread

/-- An event is read back, with the status byte left out or not. -/
theorem readEvent_bytesAfter {writer reader : Option UInt8} (hknown : Known writer reader)
    (hwell : message.WellFormed) (delta : Nat) (rest : List UInt8) (position : Nat) :
    ∃ next, Known message.running? next ∧
      readEvent reader ⟨quantity delta ++ message.bytesAfter writer ++ rest, position⟩ =
        .ok ((⟨delta, message⟩, next),
          ⟨rest, position + (quantity delta ++ message.bytesAfter writer).length⟩) := by
  cases message with
  | voice status data =>
    obtain ⟨hstatus, hlength, hdata⟩ := hwell
    refine ⟨some status, known_running?, ?_⟩
    by_cases hleft : writer = some status
    · obtain ⟨rfl, hlow⟩ := hknown status hleft
      rw [Message.bytesAfter, if_pos hleft]
      cases data with
      | nil => exact absurd hlength (dataLength?_ne_zero hstatus hlow)
      | cons b data => exact readEvent_running hlength hdata delta rest position
    · rw [Message.bytesAfter, if_neg hleft]
      exact readEvent_voice hstatus hlength hdata reader delta rest position
  | exclusive data =>
    obtain ⟨hlength, hdata⟩ := hwell
    refine ⟨some 0xf0, known_none _, ?_⟩
    have hend : position + (quantity delta ++ (Message.exclusive data).bytesAfter writer).length =
        position + (quantity delta).length + 1 + (quantity (data.length + 1)).length +
          (data.length + 1) := by
      simp only [Message.bytesAfter, Message.bytes, length_append, length_cons,
        length_nil]
      omega
    rw [hend]
    exact readEvent_opened reader delta position (by decide)
      (readExclusive_data hlength hdata rest (position + (quantity delta).length + 1))
  | keySignature key =>
    refine ⟨reader, known_none _, ?_⟩
    have hmessage : metaMessage 0x59 (keyData key) = .ok (.keySignature key) := by
      rw [metaMessage, if_pos rfl, keyOfData_keyData]
      rfl
    exact readEvent_metaBytes (by simp [keyData, maxLength]) hmessage reader delta rest position
  | metadata kind data =>
    obtain ⟨hlength, hkind, hcheck⟩ := hwell
    refine ⟨reader, known_none _, ?_⟩
    have hmessage : metaMessage kind data = .ok (.metadata kind data) := by
      rw [metaMessage, if_neg hkind, hcheck]
      rfl
    exact readEvent_metaBytes hlength hmessage reader delta rest position

/-! ### Tracks -/

/-- A track ends at its mark. -/
theorem readEvents_stop (stop fuel : Nat) (done : List Event) (reader : Option UInt8)
    (rest : List UInt8) :
    readEvents stop fuel done reader ⟨rest, stop⟩ = .ok (done.reverse, ⟨rest, stop⟩) := by
  unfold readEvents
  simp

/-- Before its mark, a track goes on with an event. -/
theorem readEvents_succ {stop position : Nat} (h : position ≠ stop) (fuel : Nat)
    (done : List Event) (reader : Option UInt8) (rest : List UInt8) :
    readEvents stop (fuel + 1) done reader ⟨rest, position⟩ =
      (readEvent reader >>= fun read => readEvents stop fuel (read.1 :: done) read.2)
        ⟨rest, position⟩ := by
  rw [readEvents]
  simp only [Reading.get_bind, if_neg h]

/-- The events of a track are read back, after those read before. Every event takes at least one
byte, so the mark is not met before its end. -/
theorem readEvents_eventBytes (stop : Nat) (rest : List UInt8) : ∀ (events : List Event)
    (fuel : Nat) (done : List Event) (writer reader : Option UInt8) (position : Nat),
    Known writer reader → (∀ event ∈ events, event.message.WellFormed) → events.length ≤ fuel →
    position + (eventBytes writer events).length = stop →
    readEvents stop fuel done reader ⟨eventBytes writer events ++ rest, position⟩ =
      .ok (done.reverse ++ events, ⟨rest, stop⟩) := by
  intro events
  induction events with
  | nil =>
    intro fuel done writer reader position _ _ _ hstop
    obtain rfl : position = stop := by simpa [eventBytes] using hstop
    rw [eventBytes, nil_append, readEvents_stop, append_nil]
  | cons event events ih =>
    intro fuel done writer reader position hknown hwell hfuel hstop
    obtain ⟨fuel, rfl⟩ : ∃ k, fuel = k + 1 := ⟨fuel - 1, by simp at hfuel; omega⟩
    have hpos := quantity_length_pos event.delta
    simp only [eventBytes, length_append] at hstop
    obtain ⟨next, hnext, hread⟩ := readEvent_bytesAfter hknown (hwell event (by simp)) event.delta
      (eventBytes event.message.running? events ++ rest) position
    rw [readEvents_succ (by omega), eventBytes, append_assoc, Reading.bind_of_ok hread,
      ih fuel (event :: done) _ next _ hnext (fun e he => hwell e (by simp [he]))
        (by simpa using hfuel) (by simp only [length_append]; omega)]
    simp

/-- There are at least as many bytes as events. -/
theorem length_le_eventBytes (events : List Event) : ∀ writer : Option UInt8,
    events.length ≤ (eventBytes writer events).length := by
  induction events with
  | nil => simp
  | cons event events ih =>
    intro writer
    have hpos := quantity_length_pos event.delta
    have hrest := ih event.message.running?
    simp only [eventBytes, length_append, length_cons]
    omega

/-! ### Files -/

/-- The four bytes of a number below `2 ^ 32` spell it. -/
theorem natOfBytes_bytes32 {n : Nat} (h : n < 2 ^ 32) : natOfBytes (bytes32 n) = n := by
  simp only [natOfBytes, bytes32, foldl_cons, foldl_nil, UInt8.toNat_ofNat']
  omega

/-- The name and the size of a chunk are read back. -/
theorem readChunkHeader_append {name : List UInt8} (hname : name.length = 4) {size : Nat}
    (hsize : size < 2 ^ 32) (rest : List UInt8) (position : Nat) :
    readChunkHeader ⟨name ++ bytes32 size ++ rest, position⟩ =
      .ok ((name, size), ⟨rest, position + 8⟩) := by
  have hread := Reading.bytes_append name (bytes32 size ++ rest) position
  rw [hname] at hread
  have hsizes : Reading.bytes 4 ⟨bytes32 size ++ rest, position + 4⟩ =
      .ok (bytes32 size, ⟨rest, position + 8⟩) :=
    Reading.bytes_append (bytes32 size) rest (position + 4)
  rw [readChunkHeader, append_assoc, Reading.bind_of_ok hread, Reading.bind_of_ok hsizes,
    natOfBytes_bytes32 hsize]
  rfl

/-- The chunk of a track is read back. -/
theorem readTrack_trackChunk {track : List Event}
    (hwell : ∀ event ∈ track, event.message.WellFormed)
    (hsize : (eventBytes none track).length < 2 ^ 32) (position : Nat) :
    ∃ input, readTrack ⟨trackChunk track, position⟩ = .ok (track, input) := by
  have hname : trackName.length = 4 := rfl
  have hheader := readChunkHeader_append hname hsize (eventBytes none track) position
  have hevents := readEvents_eventBytes (position + 8 + (eventBytes none track).length) [] track
    (eventBytes none track).length [] none none (position + 8) (known_none none) hwell
    (length_le_eventBytes track none) rfl
  rw [append_nil, reverse_nil, nil_append] at hevents
  refine ⟨⟨[], position + 8 + (eventBytes none track).length⟩, ?_⟩
  rw [readTrack, trackChunk, Reading.bind_of_ok hheader]
  exact hevents

/-- The header announces one track. -/
theorem readHeader_encode (track : List Event) :
    readHeader ⟨encode track, 0⟩ = .ok (1, ⟨trackChunk track, 14⟩) := by
  have hlength : headerName.length = 4 := rfl
  have hsix : 6 < 2 ^ 32 := by decide
  have hname := readChunkHeader_append hlength hsix
    (bytes16 1 ++ bytes16 1 ++ bytes16 ticksPerBeat ++ trackChunk track) 0
  have hbody : Reading.upTo 6
      ⟨bytes16 1 ++ bytes16 1 ++ bytes16 ticksPerBeat ++ trackChunk track, 0 + 8⟩ =
        .ok (bytes16 1 ++ bytes16 1 ++ bytes16 ticksPerBeat, ⟨trackChunk track, 14⟩) := by
    simp [Reading.upTo, bytes16]
  have hcount : (signed16 (((bytes16 1 ++ bytes16 1 ++ bytes16 ticksPerBeat).drop 2).take
    2)).toNat =
      1 := by decide
  simp only [encode, append_assoc] at hname hbody hcount ⊢
  rw [readHeader, Reading.bind_of_ok hname]
  simp only [ne_eq, not_true, if_false]
  rw [Reading.bind_of_ok hbody, hcount]
  rfl

/-- **A file is read back** as the one track it was made from. -/
theorem decode_encode {track : List Event} (hwell : ∀ event ∈ track, event.message.WellFormed)
    (hsize : (eventBytes none track).length < 2 ^ 32) : decode (encode track) = .ok [track] := by
  have hheader := readHeader_encode track
  obtain ⟨input, htrack⟩ := readTrack_trackChunk hwell hsize 14
  have htracks : readTracks 1 ⟨trackChunk track, 14⟩ = .ok ([track], input) := by
    rw [readTracks, Reading.bind_of_ok htrack]
    rfl
  have hall : (do readTracks (← readHeader) : Reading (List (List Event))) ⟨encode track, 0⟩ =
      .ok ([track], input) := by
    rw [Reading.bind_of_ok hheader, htracks]
  simp only [decode, hall]
  rfl

end ScoreLang.Smf
