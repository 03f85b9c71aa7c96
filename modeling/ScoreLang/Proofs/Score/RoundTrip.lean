import ScoreLang.Proofs.Smf.RoundTrip
import ScoreLang.Score

/-!
# A Text Is Read Back from Its Score

The track that plays a text has a chord for each character, and the boundary between two chords
shows only in the delta of a chord's first note. The reader puts a note into the chord before it if
that delta is zero. So the text can be read back because of three facts:

* the events between the notes of two chords are silent, and silent events are passed without
  looking at their deltas (`gather_silent`);
* within a chord every note but the first has delta zero (`gather_notes`);
* the first note of a chord has a delta that is not zero if a chord was played before
  (`gather_playAll`); a character without notes plays nothing and leaves that delta to the next one.

The delta of the very first note is zero, which does no harm, since a chord that has not begun takes
its first note whatever its delta.

## Main results

* `remaining_playAll`: the codes read from the events that play some codes are their low bytes, less
  those that are zero.
* `ofBytes_fileOfText`: the file that is written for a text is read back as a score in C major
  whose codes are the low bytes of the characters, less those that are zero.
-/

namespace ScoreLang

open List

open Smf (Event Message eventBytes)

namespace Key

/-- The code that the notes of a chord add up to. -/
def sounding (key : Key) (notes : List Int) : Nat :=
  notes.foldl (fun code note => code ||| key.bit (UInt8.ofInt note).toNat) 0

/-- A chord depends only on the low byte of its code. -/
theorem chord_mod (key : Key) (code : Nat) : key.chord (code % 256) = key.chord code := by
  have hbit : ∀ step ∈ key.scale.zipIdx, (code % 256).testBit step.2 = code.testBit step.2 := by
    intro step hstep
    have hplace : step.2 < 8 := by
      have := snd_lt_of_mem_zipIdx hstep
      simpa [scale, naturals] using this
    rw [show (256 : Nat) = 2 ^ 8 from rfl, Nat.testBit_mod_two_pow]
    simp [hplace]
  rw [chord, chord, filter_congr hbit]

/-- In C major the notes of a chord sound as the low byte of its code. -/
theorem sounding_chord (code : Nat) : cMajor.sounding (cMajor.chord code) = code % 256 := by
  have hall : ∀ i : Fin 256, cMajor.sounding (cMajor.chord i.val) = i.val := by decide +kernel
  have h := hall ⟨code % 256, Nat.mod_lt code (by decide)⟩
  rwa [chord_mod] at h

/-- In C major a chord is empty if the low byte of its code is zero. -/
theorem chord_eq_nil_iff (code : Nat) : cMajor.chord code = [] ↔ code % 256 = 0 := by
  have hall : ∀ i : Fin 256, cMajor.chord i.val = [] ↔ i.val = 0 := by decide +kernel
  have h := hall ⟨code % 256, Nat.mod_lt code (by decide)⟩
  rwa [chord_mod] at h

end Key

namespace Score

/-- A list of events none of which lets a note sound. -/
def Silent (events : List Event) : Prop :=
  ∀ event ∈ events, event.message.audible? = none

theorem audible?_struck (note : UInt8) : (Message.noteOn note velocity).audible? = some note := by
  have hsounds : ((0x90 : UInt8) >>> 4 = 9 && velocity ≠ 0) = true := by decide
  simp only [Message.noteOn, Message.audible?, hsounds, if_true]

theorem silent_released (delta : Nat) (notes : List Int) : Silent (strike 0 delta notes) := by
  intro event hmem
  cases notes with
  | nil => simp [strike] at hmem
  | cons note notes =>
    simp only [strike, mem_cons, mem_map] at hmem
    obtain rfl | ⟨_, _, rfl⟩ := hmem <;> simp [Message.noteOn, Message.audible?]

/-! ### Empty chords -/

/-- Empty chords play nothing, and leave the delta to the chord after them. -/
theorem playAll_filter (delta : Nat) (chords : List (List Int)) :
    playAll delta (chords.filter (!·.isEmpty)) = playAll delta chords := by
  induction chords generalizing delta with
  | nil => rfl
  | cons chord chords ih =>
    cases chord with
    | nil =>
      have hnone : play delta [] = [] := rfl
      simpa [playAll, hnone] using ih delta
    | cons note notes =>
      simpa [playAll] using ih restTicks

/-! ### Gathering a chord -/

variable {silent : List Event}

/-- Silent events are passed whatever their deltas are. -/
theorem gather_silent (key : Key) (begun : Bool) (code : Nat) (hsilent : Silent silent)
    (place : Nat) (rest : List Event) :
    gather key begun code place (silent ++ rest)
      = gather key begun code (place + silent.length) rest := by
  induction silent generalizing place with
  | nil => rfl
  | cons event silent ih =>
    have hnone : event.message.audible? = none := hsilent event mem_cons_self
    have hrest : Silent silent := fun e he => hsilent e (mem_cons_of_mem _ he)
    rw [cons_append, gather, hnone]
    simp only
    rw [ih hrest, length_cons, Nat.add_right_comm, Nat.add_assoc]

/-- Notes that sound together with a chord that has begun are added to it. -/
theorem gather_notes (key : Key) (notes : List Int) (code place : Nat) (rest : List Event) :
    gather key true code place
        ((notes.map fun note => ⟨0, .noteOn (UInt8.ofInt note) velocity⟩) ++ rest)
      = gather key true
          (notes.foldl (fun code note => code ||| key.bit (UInt8.ofInt note).toNat) code)
          (place + notes.length) rest := by
  induction notes generalizing code place with
  | nil => rfl
  | cons note notes ih =>
    rw [map_cons, cons_append, gather, audible?_struck]
    simp only [ne_eq, not_true_eq_false, decide_false, Bool.and_false, Bool.false_eq_true,
      if_false]
    rw [ih, foldl_cons, length_cons, Nat.add_right_comm, Nat.add_assoc]

/-- A chord that is played is gathered whole, with the silence at its end. -/
theorem gather_play (key : Key) (place delta : Nat) {chord : List Int} (hchord : chord ≠ [])
    (rest : List Event) :
    ∃ after, gather key false 0 place (play delta chord ++ rest)
      = gather key true (key.sounding chord) after rest := by
  obtain ⟨note, notes, rfl⟩ := exists_cons_of_ne_nil hchord
  refine ⟨place + 1 + notes.length + (strike 0 noteTicks (note :: notes)).length, ?_⟩
  rw [play, append_assoc, strike, cons_append, gather, audible?_struck]
  simp only [Bool.false_and, Bool.false_eq_true, if_false]
  rw [gather_notes, gather_silent key true _ (silent_released _ _)]
  rfl

/-- A chord that has begun ends before the next chord, or at the end of the track: the first note
of the next chord has a delta that is not zero. -/
theorem gather_playAll (key : Key) (code place : Nat) {chords : List (List Int)}
    (hchords : ∀ chord ∈ chords, chord ≠ []) {tail : List Event} (htail : Silent tail) :
    ∃ after tail', Silent tail' ∧
      gather key true code place (playAll restTicks chords ++ tail)
        = (code, ⟨after, playAll restTicks chords ++ tail'⟩) := by
  cases chords with
  | nil =>
    have hend := gather_silent key true code htail place []
    rw [append_nil] at hend
    exact ⟨_, [], by simp [Silent], hend⟩
  | cons chord chords =>
    obtain ⟨note, notes, rfl⟩ := exists_cons_of_ne_nil (hchords chord mem_cons_self)
    refine ⟨place, tail, htail, ?_⟩
    simp only [playAll, play, strike, cons_append]
    rw [gather, audible?_struck]
    simp [restTicks]

/-! ### Reading all chords -/

theorem seekFrom_silent (hsilent : Silent silent) (place : Nat) (rest : List Event) :
    seekFrom place (silent ++ rest) = seekFrom (place + silent.length) rest := by
  induction silent generalizing place with
  | nil => rfl
  | cons event silent ih =>
    have hnone : event.message.audible? = none := hsilent event mem_cons_self
    have hrest : Silent silent := fun e he => hsilent e (mem_cons_of_mem _ he)
    rw [cons_append, seekFrom, hnone]
    simp only
    rw [ih hrest, length_cons, Nat.add_right_comm, Nat.add_assoc]

theorem hasNote_silent (hsilent : Silent silent) (place : Nat) :
    Cursor.hasNote ⟨place, silent⟩ = false := by
  have hend := seekFrom_silent hsilent place []
  rw [append_nil] at hend
  simp [Cursor.hasNote, Cursor.seek, hend, seekFrom]

theorem hasNote_play (hsilent : Silent silent) (place delta : Nat) {chord : List Int}
    (hchord : chord ≠ []) (rest : List Event) :
    Cursor.hasNote ⟨place, silent ++ (play delta chord ++ rest)⟩ = true := by
  obtain ⟨note, notes, rfl⟩ := exists_cons_of_ne_nil hchord
  rw [Cursor.hasNote, Cursor.seek, seekFrom_silent hsilent, play, strike, cons_append,
    cons_append, seekFrom, audible?_struck]
  rfl

/-- **The chords that are played are the chords that are read**, between silent events, if there is
fuel for each of them. -/
theorem remaining_playAll (key : Key) {chords : List (List Int)}
    (hchords : ∀ chord ∈ chords, chord ≠ []) {fuel : Nat} (hfuel : chords.length ≤ fuel)
    {tail : List Event} (hsilent : Silent silent) (htail : Silent tail) (delta place : Nat)
    (done : List Nat) :
    (Cursor.remaining key fuel done ⟨place, silent ++ (playAll delta chords ++ tail)⟩).1
      = done.reverse ++ chords.map key.sounding := by
  induction chords generalizing fuel silent tail delta place done with
  | nil =>
    have hquiet : Silent (silent ++ (playAll delta [] ++ tail)) := by
      intro event hmem
      rcases mem_append.mp hmem with h | h
      · exact hsilent event h
      · exact htail event h
    cases fuel with
    | zero => simp [Cursor.remaining]
    | succ fuel => simp [Cursor.remaining, hasNote_silent hquiet]
  | cons chord chords ih =>
    obtain ⟨fuel, rfl⟩ : ∃ n, fuel = n + 1 := ⟨fuel - 1, by simp at hfuel; omega⟩
    have hchord : chord ≠ [] := hchords chord List.mem_cons_self
    have hrest : ∀ c ∈ chords, c ≠ [] := fun c hc => hchords c (List.mem_cons_of_mem _ hc)
    have hplay : playAll delta (chord :: chords) ++ tail
        = play delta chord ++ (playAll restTicks chords ++ tail) := by
      simp [playAll, List.isEmpty_iff, hchord]
    -- The chord is gathered up to the next one, before which only silent events are left.
    obtain ⟨middle, hmiddle⟩ := gather_play key (place + silent.length) delta hchord
      (playAll restTicks chords ++ tail)
    obtain ⟨after, tail', htail', hafter⟩ :=
      gather_playAll key (key.sounding chord) middle hrest htail
    rw [hplay, Cursor.remaining, if_pos (hasNote_play hsilent place delta hchord _)]
    simp only [Cursor.next, gather_silent key false 0 hsilent, hmiddle, hafter]
    have hleft : chords.length ≤ fuel := by simpa using hfuel
    have hnil : Silent [] := by simp [Silent]
    have hnext := ih hrest hleft hnil htail' restTicks after (key.sounding chord :: done)
    rw [nil_append] at hnext
    rw [hnext]
    simp

/-! ### The track of a text -/

/-- The low bytes of the characters of a text, less those that are zero. -/
def lowBytes (text : List Char) : List Nat :=
  (text.map fun c => c.toNat % 256).filter (· ≠ 0)

/-- The chords of a text that are not empty sound as its low bytes that are not zero. -/
theorem map_sounding_chords (text : List Char) :
    ((text.map fun c => Key.cMajor.chord c.toNat).filter (!·.isEmpty)).map Key.cMajor.sounding
      = lowBytes text := by
  induction text with
  | nil => rfl
  | cons c text ih =>
    by_cases hzero : c.toNat % 256 = 0
    · have hchord : Key.cMajor.chord c.toNat = [] := (Key.chord_eq_nil_iff _).mpr hzero
      simpa [lowBytes, hzero, hchord] using ih
    · have hchord : Key.cMajor.chord c.toNat ≠ [] := mt (Key.chord_eq_nil_iff _).mp hzero
      simpa [lowBytes, hzero, hchord, Key.sounding_chord] using ih

/-- The events before the notes of a text. -/
def lead : List Event :=
  ((opening .cMajor).map fun message => ⟨0, message⟩) ++ [⟨0, .port 0⟩]

theorem silent_lead : Silent lead := by
  unfold Silent
  decide

theorem ofText_eq (text : List Char) :
    ofText text = lead ++ (playAll 0 ((text.map fun c => Key.cMajor.chord c.toNat).filter
      (!·.isEmpty)) ++ [⟨1, .endOfTrack⟩]) := by
  rw [playAll_filter, ofText, lead]
  simp only [append_assoc]

theorem length_playAll_ge (delta : Nat) (chords : List (List Int))
    (hchords : ∀ chord ∈ chords, chord ≠ []) : chords.length ≤ (playAll delta chords).length := by
  induction chords generalizing delta with
  | nil => simp
  | cons chord chords ih =>
    have hrest := ih (if chord.isEmpty then delta else restTicks)
      fun c hc => hchords c (mem_cons_of_mem _ hc)
    obtain ⟨note, notes, rfl⟩ := exists_cons_of_ne_nil (hchords chord mem_cons_self)
    simp only [playAll, play, strike, length_append, length_cons] at hrest ⊢
    omega

/-- The notes of a chord in C major are data bytes. -/
theorem chord_le (code : Nat) : ∀ note ∈ Key.cMajor.chord code, UInt8.ofInt note ≤ 127 := by
  have hall : ∀ i : Fin 256, ∀ note ∈ Key.cMajor.chord i.val, UInt8.ofInt note ≤ 127 := by
    decide +kernel
  rw [← Key.chord_mod]
  exact hall ⟨code % 256, Nat.mod_lt code (by decide)⟩

theorem wellFormed_strike {level : UInt8} (hlevel : level ≤ 127) (delta : Nat) {notes : List Int}
    (hnotes : ∀ note ∈ notes, UInt8.ofInt note ≤ 127) :
    ∀ event ∈ strike level delta notes, event.message.WellFormed := by
  have hnote : ∀ note ∈ notes, (Message.noteOn (UInt8.ofInt note) level).WellFormed := by
    intro note hmem
    refine ⟨by decide, rfl, ?_⟩
    simp [hnotes note hmem, hlevel]
  intro event hmem
  cases notes with
  | nil => simp [strike] at hmem
  | cons first notes =>
    simp only [strike, mem_cons, mem_map] at hmem
    obtain rfl | ⟨note, hin, rfl⟩ := hmem
    · exact hnote first mem_cons_self
    · exact hnote note (mem_cons_of_mem _ hin)

theorem wellFormed_playAll (delta : Nat) (codes : List Nat) :
    ∀ event ∈ playAll delta (codes.map Key.cMajor.chord), event.message.WellFormed := by
  induction codes generalizing delta with
  | nil => simp [playAll]
  | cons code codes ih =>
    intro event hmem
    simp only [map_cons, playAll, play, mem_append] at hmem
    rcases hmem with (hmem | hmem) | hmem
    · exact wellFormed_strike (by decide) _ (chord_le code) event hmem
    · exact wellFormed_strike (by decide) _ (chord_le code) event hmem
    · exact ih _ event hmem

/-- Every message of the track of a text is one that the file format can write. -/
theorem wellFormed_ofText (text : List Char) :
    ∀ event ∈ ofText text, event.message.WellFormed := by
  have hlead : ∀ event ∈ lead, event.message.WellFormed := by decide
  have hplay := wellFormed_playAll 0 (text.map Char.toNat)
  rw [map_map] at hplay
  intro event hmem
  have hsplit : ofText text =
      lead ++ playAll 0 (text.map (Key.cMajor.chord ∘ Char.toNat)) ++ [⟨1, .endOfTrack⟩] := rfl
  rw [hsplit, mem_append, mem_append, mem_singleton] at hmem
  rcases hmem with (hmem | hmem) | rfl
  · exact hlead event hmem
  · exact hplay event hmem
  · decide

/-- The track of a text is a score in C major. -/
theorem ofTracks?_ofText (text : List Char) :
    ofTracks? [ofText text] = some ⟨.cMajor, 2, ofText text⟩ := rfl

/-- The codes of the track of a text are its low bytes. -/
theorem codes_ofText (text : List Char) :
    codes ⟨.cMajor, 2, ofText text⟩ = lowBytes text := by
  have hchords : ∀ chord ∈ (text.map fun c => Key.cMajor.chord c.toNat).filter (!·.isEmpty),
      chord ≠ [] := by
    intro chord hmem
    simpa using (mem_filter.mp hmem).2
  have hend : Silent [⟨1, .endOfTrack⟩] := by simp [Silent, Message.endOfTrack, Message.audible?]
  rw [codes, start, Cursor.all]
  simp only [ofText_eq text]
  rw [remaining_playAll .cMajor hchords _ silent_lead hend 0 0 []]
  · exact map_sounding_chords text
  · have hlength := length_playAll_ge 0 _ hchords
    simp only [length_append]
    omega

/-- **A text is read back from its score.** The file that is written for a text, whose line ends are
unified, is read as a score in C major. Its chords are the low bytes of the characters, in order,
and a character whose low byte is zero has none. The only limit is that the track fits the length
field of its chunk. -/
theorem ofBytes_fileOfText (text : String)
    (hsize : (eventBytes none (ofText (Text.unifyLineEnds text.toList))).length < 2 ^ 32) :
    ∃ score, ofBytes (fileOfText text) = .ok score ∧ score.key = .cMajor ∧
      score.codes = lowBytes (Text.unifyLineEnds text.toList) := by
  have hdecode := Smf.decode_encode (wellFormed_ofText (Text.unifyLineEnds text.toList)) hsize
  refine ⟨⟨.cMajor, 2, ofText (Text.unifyLineEnds text.toList)⟩, ?_, rfl, codes_ofText _⟩
  rw [ofBytes, fileOfText, hdecode]
  simp only [ofTracks?_ofText]

/-- A text with a character of no notes at its start, two equal neighbours, a character beyond one
byte and a full chord. -/
theorem ofBytes_fileOfText_sample :
    ∃ score, ofBytes (fileOfText "\x00aa\r\n\u0161\u01ff\u0100b") = .ok score ∧
      score.key = .cMajor ∧ score.codes = [97, 97, 10, 97, 255, 98] := by
  have hsize : (eventBytes none
      (ofText (Text.unifyLineEnds "\x00aa\r\n\u0161\u01ff\u0100b".toList))).length < 2 ^ 32 := by
    decide +kernel
  have hbytes : lowBytes (Text.unifyLineEnds "\x00aa\r\n\u0161\u01ff\u0100b".toList)
      = [97, 97, 10, 97, 255, 98] := by
    decide +kernel
  have hread := ofBytes_fileOfText _ hsize
  rwa [hbytes] at hread

end Score

end ScoreLang
