import Mathlib.Data.List.SplitBy
import Mathlib.Data.List.TakeWhile
import Mathlib.Tactic.Common
import ScoreLang.Score

/-!
# What a Reader of a Score Is Told

A score is read through a cursor that answers two requests: whether a note is left, and what the
next chord is. Both move the cursor. The first one looks like a mere question, but it passes the
silent events before the next note, so the cursor can rest on any kind of event when the next
request arrives, and the second one asks the first for every note that it takes.

None of this shows in the answers. The notes of a track that sound, in their order, are cut before
every note but the first whose own delta is not zero, and the pieces are the chords. The cursor only
matters through the notes after it (`notes_seek`), and a request for the next chord takes the first
piece of them (`next_chords`). So the answer to a request depends on the number of chords that have
been asked for before it, and on nothing else.

## Main results

* `replies_getElem?`: the answer to each of some requests, from any place in a track;
* `replies_start`: the same from the start of a track that states a key.
-/

namespace ScoreLang

open List

open Smf (Event Message)

/-- The key that a message states. -/
def Smf.Message.key? : Message → Option Key
  | .keySignature key => some key
  | _ => none

namespace Score

/-! ### The chords of a track -/

/-- A note that sounds. -/
structure Note where
  delta : Nat
  pitch : UInt8
  deriving DecidableEq, Repr

/-- The notes that some events let sound. -/
def notes (events : List Event) : List Note :=
  events.filterMap fun event => event.message.audible?.map fun pitch => ⟨event.delta, pitch⟩

/-- The chords of some events: the notes, cut before every note but the first whose own delta is not
zero. -/
def chords (events : List Event) : List (List Note) :=
  (notes events).splitBy fun _ note => note.delta == 0

/-- The code of a chord: the bits of its notes together. -/
def chordCode (key : Key) (chord : List Note) : Nat :=
  chord.foldl (fun code note => code ||| key.bit note.pitch.toNat) 0

/-- The codes of the chords of some events. -/
def chordCodes (key : Key) (events : List Event) : List Nat :=
  (chords events).map (chordCode key)

theorem notes_cons_of_silent {event : Event} (h : event.message.audible? = none)
    (events : List Event) : notes (event :: events) = notes events := by
  simp [notes, h]

theorem notes_cons_of_audible {event : Event} {pitch : UInt8}
    (h : event.message.audible? = some pitch) (events : List Event) :
    notes (event :: events) = ⟨event.delta, pitch⟩ :: notes events := by
  simp [notes, h]

theorem chords_of_notes_eq_nil {events : List Event} (h : notes events = []) :
    chords events = [] := by
  rw [chords, h, splitBy_nil]

/-- The first chord is the first note with those after it that begin together with it. -/
theorem chords_of_notes_eq_cons {events rest : List Event} {note : Note} {others : List Note}
    (h : notes events = note :: others)
    (hrest : notes rest = others.dropWhile (·.delta == 0)) :
    chords events = (note :: others.takeWhile (·.delta == 0)) :: chords rest := by
  have hsplit : notes events = (note :: others.takeWhile (·.delta == 0)) ++ notes rest := by
    rw [h, hrest, cons_append, takeWhile_append_dropWhile]
  have hcut : ∀ first ∈ (note :: others.takeWhile (·.delta == 0)).getLast?,
      ∀ next ∈ (notes rest).head?, (next.delta == 0) = false := by
    intro _ _ next hnext
    have hstop := List.head?_dropWhile_not (·.delta == 0) others
    rw [hrest, Option.mem_def] at hnext
    simpa [hnext] using hstop
  have hzero : ∀ next ∈ others.takeWhile (·.delta == 0), (next.delta == 0) = true := by
    intro next hnext
    have hdelta := mem_takeWhile_imp hnext
    exact hdelta
  have hchain : (note :: others.takeWhile (·.delta == 0)).IsChain
      fun _ next => (next.delta == 0) = true := by
    refine isChain_cons.2 ⟨fun next hnext => hzero next (mem_of_mem_head? hnext), ?_⟩
    exact (pairwise_of_forall_mem_list fun _ _ next hnext => hzero next hnext).isChain
  rw [chords, hsplit, splitBy_append hcut, splitBy_of_isChain (by simp) hchain, chords]
  rfl

/-! ### Moves of the cursor -/

/-- The notes after a cursor are the same after it has passed silent events. -/
theorem notes_seekFrom (place : Nat) (events : List Event) :
    notes (seekFrom place events).rest = notes events := by
  induction events generalizing place with
  | nil => rfl
  | cons event events ih =>
    rw [seekFrom]
    cases haudible : event.message.audible? with
    | none => rw [notes_cons_of_silent haudible, ← ih (place + 1)]
    | some pitch => rfl

theorem notes_seek (cursor : Cursor) : notes cursor.seek.rest = notes cursor.rest :=
  notes_seekFrom cursor.place cursor.rest

/-- After silent events have been passed, the cursor is at a note or at the end. -/
theorem seekFrom_rest_eq_nil_iff (place : Nat) (events : List Event) :
    (seekFrom place events).rest = [] ↔ notes events = [] := by
  induction events generalizing place with
  | nil => simp [seekFrom, notes]
  | cons event events ih =>
    rw [seekFrom]
    cases haudible : event.message.audible? with
    | none => rw [notes_cons_of_silent haudible, ← ih (place + 1)]
    | some pitch => simp [notes_cons_of_audible haudible]

/-- A note is left exactly if a chord is. -/
theorem hasNote_eq (cursor : Cursor) :
    cursor.hasNote = decide (0 < (chords cursor.rest).length) := by
  have hrest : cursor.seek.rest = [] ↔ notes cursor.rest = [] :=
    seekFrom_rest_eq_nil_iff cursor.place cursor.rest
  rw [Cursor.hasNote, Bool.eq_iff_iff]
  simp [length_pos_iff, chords, hrest]

/-- A chord that has begun takes the notes up to the next one whose own delta is not zero. -/
theorem gather_begun (key : Key) (code place : Nat) (events : List Event) :
    (gather key true code place events).1
        = ((notes events).takeWhile (·.delta == 0)).foldl
          (fun code note => code ||| key.bit note.pitch.toNat) code ∧
      notes (gather key true code place events).2.rest
        = (notes events).dropWhile (·.delta == 0) := by
  induction events generalizing code place with
  | nil => exact ⟨rfl, rfl⟩
  | cons event events ih =>
    rw [gather]
    cases haudible : event.message.audible? with
    | none =>
      rw [notes_cons_of_silent haudible]
      exact ih code (place + 1)
    | some pitch =>
      rw [notes_cons_of_audible haudible]
      by_cases hdelta : event.delta = 0
      · simpa [hdelta] using ih (code ||| key.bit pitch.toNat) (place + 1)
      · simp [hdelta, notes_cons_of_audible haudible]

/-- A chord that has not begun takes the first note, whatever its delta is. -/
theorem gather_first (key : Key) (place : Nat) (events : List Event) :
    match notes events with
    | [] => (gather key false 0 place events).1 = 0 ∧
        notes (gather key false 0 place events).2.rest = []
    | note :: others => ∃ after rest, notes rest = others ∧
        gather key false 0 place events = gather key true (key.bit note.pitch.toNat) after
        rest := by
  induction events generalizing place with
  | nil => exact ⟨rfl, rfl⟩
  | cons event events ih =>
    rw [gather]
    cases haudible : event.message.audible? with
    | none =>
      rw [notes_cons_of_silent haudible]
      exact ih (place + 1)
    | some pitch =>
      rw [notes_cons_of_audible haudible]
      exact ⟨place + 1, events, rfl, by simp⟩

/-- **The next chord** is the first of those after the cursor, and the cursor stands before the
others; without a chord the answer is zero. -/
theorem next_chords (key : Key) (cursor : Cursor) :
    (cursor.next key).1 = (chordCodes key cursor.rest).headD 0 ∧
      chordCodes key (cursor.next key).2.rest = (chordCodes key cursor.rest).tail := by
  have hfirst := gather_first key cursor.place cursor.rest
  rw [Cursor.next, chordCodes, chordCodes]
  cases hnotes : notes cursor.rest with
  | nil =>
    rw [hnotes] at hfirst
    rw [chords_of_notes_eq_nil hnotes, chords_of_notes_eq_nil hfirst.2]
    exact ⟨hfirst.1, rfl⟩
  | cons note others =>
    rw [hnotes] at hfirst
    obtain ⟨after, rest, hrest, hgather⟩ := hfirst
    obtain ⟨hcode, hleft⟩ := gather_begun key (key.bit note.pitch.toNat) after rest
    rw [hrest] at hcode hleft
    rw [hgather, chords_of_notes_eq_cons hnotes hleft]
    refine ⟨?_, rfl⟩
    rw [hcode]
    simp [chordCode]

/-! ### Requests -/

/-- What a reader can ask for. -/
inductive Request where
  | hasNote
  | next
  deriving DecidableEq, Repr

/-- What it is told. -/
inductive Reply where
  | flag (left : Bool)
  | code (value : Nat)
  deriving DecidableEq, Repr

/-- The answer of a cursor to a request, and the cursor after it. -/
def Cursor.reply (key : Key) (cursor : Cursor) : Request → Reply × Cursor
  | .hasNote => (.flag cursor.hasNote, cursor.seek)
  | .next =>
    let chord := cursor.next key
    (.code chord.1, chord.2)

/-- The answers of a cursor to some requests, one after the other. -/
def Cursor.replies (key : Key) : List Request → Cursor → List Reply
  | [], _ => []
  | request :: requests, cursor =>
    let answer := cursor.reply key request
    answer.1 :: replies key requests answer.2

/-- The answer that is due to a request if the chords have the given codes and some of them have
been taken: whether there are more, or the next one, and zero after the last one. -/
def Request.due (codes : List Nat) (taken : Nat) : Request → Reply
  | .hasNote => .flag (decide (taken < codes.length))
  | .next => .code (codes[taken]?.getD 0)

/-- The chords after a request are those before it, less the one that was asked for. -/
theorem chordCodes_reply (key : Key) (cursor : Cursor) (request : Request) :
    chordCodes key (cursor.reply key request).2.rest
      = (chordCodes key cursor.rest).drop ([request].count .next) := by
  cases request with
  | hasNote => simp [Cursor.reply, chordCodes, chords, notes_seek]
  | next => simpa [Cursor.reply] using (next_chords key cursor).2

theorem reply_eq_due (key : Key) (cursor : Cursor) (request : Request) :
    (cursor.reply key request).1 = request.due (chordCodes key cursor.rest) 0 := by
  cases request with
  | hasNote => simp [Cursor.reply, Request.due, hasNote_eq, chordCodes]
  | next => simp [Cursor.reply, Request.due, (next_chords key cursor).1, headD_eq_head?_getD,
      List.head?_eq_getElem?]

theorem due_drop (codes : List Nat) (gone taken : Nat) (request : Request) :
    request.due (codes.drop gone) taken = request.due codes (gone + taken) := by
  cases request with
  | hasNote =>
    have hleft : taken < codes.length - gone ↔ gone + taken < codes.length := by omega
    simp [Request.due, hleft]
  | next => simp [Request.due]

/-- **The answers to some requests**: each of them is determined by the number of chords that were
asked for before it. -/
theorem replies_getElem? (key : Key) (requests : List Request) (cursor : Cursor) (i : Nat) :
    (cursor.replies key requests)[i]? = requests[i]?.map
      (Request.due (chordCodes key cursor.rest) ((requests.take i).count .next)) := by
  induction requests generalizing cursor i with
  | nil => rfl
  | cons request requests ih =>
    cases i with
    | zero => simp [Cursor.replies, reply_eq_due]
    | succ i =>
      have hcount : ((request :: requests).take (i + 1)).count .next
          = [request].count .next + (requests.take i).count .next := by
        rw [take_succ_cons, ← singleton_append, count_append]
      rw [Cursor.replies, List.getElem?_cons_succ, List.getElem?_cons_succ, ih, hcount,
        chordCodes_reply]
      exact Option.map_congr fun later _ => due_drop _ _ _ later

/-! ### Scores -/

/-- The score of a track has the key of its first key signature. -/
theorem findKey?_eq (place : Nat) (track : List Event) :
    (findKey? place track).map (·.1) = track.findSome? (·.message.key?) := by
  induction track generalizing place with
  | nil => rfl
  | cons event track ih =>
    rw [findKey?, List.findSome?_cons]
    cases event.message with
    | keySignature key => rfl
    | voice | exclusive | metadata => exact ih (place + 1)

/-- **What a reader is told**: a track that states a key is a score in the first key that it states,
and from its start on a request for the next chord is answered with the codes of the chords, one
after the other, and with zero after the last one; the question whether a note is left is answered
with whether a chord is left, and makes no difference to any other answer. -/
theorem replies_start (track : List Event) (others : List (List Event))
    (hkey : ∃ event ∈ track, event.message.key?.isSome) :
    ∃ score key, ofTracks? (track :: others) = some score ∧
      track.findSome? (·.message.key?) = some key ∧
      ∀ requests : List Request, score.start.replies score.key requests
        = requests.mapIdx fun i request =>
          request.due (chordCodes key track) ((requests.take i).count .next) := by
  obtain ⟨key, hfound⟩ : ∃ key, track.findSome? (·.message.key?) = some key :=
    Option.isSome_iff_exists.1 (List.findSome?_isSome_iff.2 hkey)
  obtain ⟨⟨_, place⟩, hplace, rfl⟩ := Option.map_eq_some_iff.1 ((findKey?_eq 0 track).trans hfound)
  refine ⟨⟨_, place, track⟩, _, by rw [ofTracks?, hplace]; rfl, hfound, ?_⟩
  intro requests
  refine ext_getElem? fun i => ?_
  rw [replies_getElem?, List.getElem?_mapIdx]
  rfl

/-- A track with a second key signature, a silent event between the notes of a chord and a note off
the scale, read with questions in between. -/
theorem replies_start_sample :
    ∃ score, ofTracks? [[⟨0, .noteOn 60 80⟩, ⟨5, .keySignature .cMajor⟩, ⟨3, .noteOn 60 0⟩,
        ⟨0, .noteOn 62 80⟩, ⟨0, .keySignature ⟨0, .major⟩⟩, ⟨7, .noteOn 64 1⟩, ⟨0, .noteOn 61 1⟩,
        ⟨9, .endOfTrack⟩]] = some score ∧
      score.start.replies score.key [.hasNote, .next, .hasNote, .hasNote, .next, .hasNote, .next]
        = [.flag true, .code 3, .flag true, .flag true, .code 4, .flag false, .code 0] := by
  obtain ⟨score, key, hscore, hkey, hreplies⟩ := replies_start
    [⟨0, .noteOn 60 80⟩, ⟨5, .keySignature .cMajor⟩, ⟨3, .noteOn 60 0⟩, ⟨0, .noteOn 62 80⟩,
      ⟨0, .keySignature ⟨0, .major⟩⟩, ⟨7, .noteOn 64 1⟩, ⟨0, .noteOn 61 1⟩, ⟨9, .endOfTrack⟩] []
    ⟨_, mem_cons_of_mem _ mem_cons_self, rfl⟩
  obtain rfl : Key.cMajor = key := Option.some.inj hkey
  refine ⟨score, hscore, (hreplies _).trans ?_⟩
  decide +kernel

end Score

end ScoreLang
