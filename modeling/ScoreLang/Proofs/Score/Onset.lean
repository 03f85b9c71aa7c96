import ScoreLang.Proofs.Score.Chords

/-!
# Notes That Begin Together

The delta of an event counts from the event before, be it a note or not, so the tick at which a
note begins is the sum of all deltas up to it. The reader adds nothing up: it looks at the delta of
the note alone, and forgets the time that has passed in the silent events before it.

Two notes that begin at the same tick are nevertheless in the same chord, since no time passes
between them at all. The converse is not true of every track: if a note begins when the one before
ends, and its end is written first, then the delta of the later note is zero, and the two are taken
for one chord. A track in which this does not happen is *detached*: every note that begins later
than the note before says so by its own delta. In a detached track, and in no other one, the chords
are the groups of notes that begin together. Such a track can be given any other ends of notes, as
long as it stays detached.

## Main results

* `chordNumbers_eq_of_onsets_eq`: notes that begin together are in the same chord;
* `forall_chordNumbers_eq_iff`: the converse holds exactly in detached tracks;
* `chordCodes_of_detached`: the codes of a detached track are determined by its notes and the ticks
  at which they begin;
* `chords_by_onset`: the three of them for the codes of a score.
-/

namespace ScoreLang.Score

open List

open Smf (Event Message)

/-! ### Numbered pieces -/

section Pieces

variable {α β : Type}

/-- For each element of some pieces, the number of its piece. -/
def numbers : List (List α) → List Nat
  | [] => []
  | piece :: pieces => List.replicate piece.length 0 ++ (numbers pieces).map (· + 1)

theorem numbers_splitBy_cons (r : α → α → Bool) (a b : α) (l : List α) :
    numbers ((a :: b :: l).splitBy r)
      = 0 :: (numbers ((b :: l).splitBy r)).map (· + if r a b then 0 else 1) := by
  rw [splitBy_cons_cons]
  split
  case isTrue =>
    cases hpieces : (b :: l).splitBy r with
    | nil => simp at hpieces
    | cons piece pieces => simp [numbers, replicate_succ, Function.comp_def]
  case isFalse => simp [numbers]

theorem exists_numbers_cons (r : α → α → Bool) (a : α) (l : List α) :
    ∃ others, numbers ((a :: l).splitBy r) = 0 :: others := by
  cases l with
  | nil => exact ⟨[], rfl⟩
  | cons b l => exact ⟨_, numbers_splitBy_cons r a b l⟩

theorem length_numbers (pieces : List (List α)) :
    (numbers pieces).length = pieces.flatten.length := by
  induction pieces with
  | nil => rfl
  | cons piece pieces ih => simp [numbers, ih]

theorem numbers_map (f : α → β) (pieces : List (List α)) :
    numbers (pieces.map (List.map f)) = numbers pieces := by
  induction pieces with
  | nil => rfl
  | cons piece pieces ih => simp [numbers, ih]

/-- The number of the piece grows by one at every cut. -/
theorem numbers_splitBy_succ (r : α → α → Bool) (l : List α) (k : Nat) (h : k + 1 < l.length) :
    (numbers (l.splitBy r))[k + 1]?
      = (numbers (l.splitBy r))[k]?.map (· + if r l[k] l[k + 1] then 0 else 1) := by
  induction l generalizing k with
  | nil => simp at h
  | cons a l ih =>
    cases l with
    | nil => simp at h
    | cons b l =>
      rw [numbers_splitBy_cons]
      cases k with
      | zero =>
        obtain ⟨others, hothers⟩ := exists_numbers_cons r b l
        simp [hothers]
      | succ k =>
        have hstep := ih k (by simpa using h)
        simp only [List.getElem?_cons_succ, List.getElem?_map, hstep, getElem_cons_succ,
          Option.map_map]
        congr 1
        funext n
        simp only [Function.comp_apply]
        omega

theorem isChain_numbers (r : α → α → Bool) (l : List α) :
    (numbers (l.splitBy r)).IsChain (· ≤ ·) := by
  refine isChain_iff_getElem.2 fun k hk => ?_
  have hstep := numbers_splitBy_succ r l k (by simpa [length_numbers] using hk)
  simp only [List.getElem?_eq_getElem hk, List.getElem?_eq_getElem (Nat.lt_of_succ_lt hk),
    Option.map_some, Option.some.injEq] at hstep
  omega

theorem getElem_le {x : List Nat} (h : x.IsChain (· ≤ ·)) {i j : Nat} (hij : i ≤ j)
    (hj : j < x.length) : x[i] ≤ x[j] := by
  rcases Nat.eq_or_lt_of_le hij with rfl | hlt
  · exact Nat.le_refl _
  · exact pairwise_iff_getElem.1 (isChain_iff_pairwise.1 h) i j _ hj hlt

/-- In a list that never falls, two values are equal exactly if all values between them are. -/
theorem getElem?_eq_iff {x : List Nat} (h : x.IsChain (· ≤ ·)) {i j : Nat} (hij : i ≤ j)
    (hj : j < x.length) : x[i]? = x[j]? ↔ ∀ k, i ≤ k → k < j → x[k]? = x[k + 1]? := by
  constructor
  · intro heq k hik hkj
    have hbefore : x[i] ≤ x[k] := getElem_le h hik (by omega)
    have hstep : x[k] ≤ x[k + 1] := getElem_le h (by omega) (by omega)
    have hafter : x[k + 1] ≤ x[j] := getElem_le h hkj hj
    simp only [List.getElem?_eq_getElem hj, List.getElem?_eq_getElem (Nat.lt_of_le_of_lt hij hj),
      Option.some.injEq] at heq
    rw [List.getElem?_eq_getElem (by omega), List.getElem?_eq_getElem (by omega)]
    exact congrArg some (by omega)
  · obtain ⟨d, rfl⟩ := Nat.exists_eq_add_of_le hij
    intro hrun
    induction d with
    | zero => rfl
    | succ d ih =>
      have hshorter := ih (by omega) (by omega) fun k hik hkj => hrun k hik (by omega)
      exact hshorter.trans (hrun (i + d) (by omega) (by omega))

/-- If a list that never falls rises wherever another one does, then two of its values differ
wherever those of the other one do. -/
theorem getElem?_eq_of_steps {x y : List Nat} (hx : x.IsChain (· ≤ ·)) (hy : y.IsChain (· ≤ ·))
    (hlength : y.length = x.length)
    (h : ∀ k, k + 1 < x.length → x[k]? = x[k + 1]? → y[k]? = y[k + 1]?) {i j : Nat}
    (hi : i < x.length) (hj : j < x.length) (heq : x[i]? = x[j]?) : y[i]? = y[j]? := by
  have hordered : ∀ i j, i ≤ j → j < x.length → x[i]? = x[j]? → y[i]? = y[j]? := by
    intro i j hij hj heq
    refine (getElem?_eq_iff hy hij (by omega)).2 fun k hik hkj => h k (by omega) ?_
    exact (getElem?_eq_iff hx hij hj).1 heq k hik hkj
  rcases Nat.le_total i j with hij | hij
  · exact hordered i j hij hj heq
  · exact (hordered j i hij hi heq.symm).symm

end Pieces

/-! ### Onsets -/

/-- A note that sounds, with the tick at which it begins. -/
structure Strike extends Note where
  onset : Nat
  deriving DecidableEq, Repr

/-- The notes that some events let sound, with the ticks at which they begin, if `elapsed` ticks
have passed before the events. -/
def strikes (elapsed : Nat) : List Event → List Strike
  | [] => []
  | event :: events =>
    match event.message.audible? with
    | some pitch => ⟨⟨event.delta, pitch⟩, elapsed + event.delta⟩ ::
        strikes (elapsed + event.delta) events
    | none => strikes (elapsed + event.delta) events

theorem map_toNote_strikes (elapsed : Nat) (events : List Event) :
    (strikes elapsed events).map Strike.toNote = notes events := by
  induction events generalizing elapsed with
  | nil => rfl
  | cons event events ih =>
    rw [strikes]
    cases haudible : event.message.audible? with
    | none => rw [notes_cons_of_silent haudible, ih]
    | some pitch => rw [notes_cons_of_audible haudible, map_cons, ih]

/-- The delta of a note is part of the time since the note before. -/
theorem isChain_strikes (elapsed : Nat) (events : List Event) :
    (∀ first ∈ (strikes elapsed events).head?, elapsed + first.delta ≤ first.onset) ∧
      (strikes elapsed events).IsChain
        fun earlier later => earlier.onset + later.delta ≤ later.onset := by
  induction events generalizing elapsed with
  | nil => simp [strikes]
  | cons event events ih =>
    obtain ⟨hfirst, hchain⟩ := ih (elapsed + event.delta)
    rw [strikes]
    cases event.message.audible? with
    | none =>
      refine ⟨fun first hmem => ?_, hchain⟩
      have hlater := hfirst first hmem
      omega
    | some pitch => exact ⟨by simp, isChain_cons.2 ⟨hfirst, hchain⟩⟩

/-- The notes of some events, each with the tick at which it begins. -/
def melody (events : List Event) : List (Nat × UInt8) :=
  (strikes 0 events).map fun strike => (strike.onset, strike.pitch)

/-- The ticks at which the notes of some events begin. -/
def onsets (events : List Event) : List Nat :=
  (melody events).map (·.1)

/-- For each note of some events, the number of its chord. -/
def chordNumbers (events : List Event) : List Nat :=
  numbers (chords events)

/-- Every note that begins later than the note before it says so by its own delta. -/
def Detached (events : List Event) : Prop :=
  (strikes 0 events).IsChain fun earlier later => later.delta = 0 → earlier.onset = later.onset

instance (events : List Event) : Decidable (Detached events) :=
  inferInstanceAs (Decidable (List.IsChain _ _))

variable (events : List Event)

include events

theorem chords_eq_strikes :
    chords events
      = ((strikes 0 events).splitBy fun _ later => later.delta == 0).map
      (List.map Strike.toNote) := by
  rw [chords, ← map_toNote_strikes 0 events, splitBy_map]

theorem chordNumbers_eq :
    chordNumbers events
      = numbers ((strikes 0 events).splitBy fun _ later => later.delta == 0) := by
  rw [chordNumbers, chords_eq_strikes, numbers_map]

theorem onsets_eq : onsets events = (strikes 0 events).map (·.onset) := by
  simp [onsets, melody]

theorem length_onsets :
    (onsets events).length = (chordNumbers events).length := by
  rw [onsets_eq, chordNumbers_eq, length_map, length_numbers, flatten_splitBy]

theorem isChain_onsets : (onsets events).IsChain (· ≤ ·) := by
  rw [onsets_eq, isChain_map]
  exact (isChain_strikes 0 events).2.imp fun earlier later h => by omega

theorem isChain_chordNumbers : (chordNumbers events).IsChain (· ≤ ·) := by
  rw [chordNumbers_eq]
  exact isChain_numbers _ _

/-- A note is in the chord of the note before exactly if its own delta is zero. -/
theorem chordNumbers_succ_eq_iff (k : Nat) (h : k + 1 < (strikes 0 events).length) :
    (chordNumbers events)[k]? = (chordNumbers events)[k + 1]? ↔
      (strikes 0 events)[k + 1].delta = 0 := by
  have hlength : k < (chordNumbers events).length := by
    rw [← length_onsets, onsets_eq, length_map]
    omega
  have hstep := numbers_splitBy_succ (fun _ later => later.delta == 0) (strikes 0 events) k h
  rw [← chordNumbers_eq] at hstep
  rw [hstep, List.getElem?_eq_getElem hlength]
  simp

theorem onsets_succ_eq_iff (k : Nat) (h : k + 1 < (strikes 0 events).length) :
    (onsets events)[k]? = (onsets events)[k + 1]? ↔
      (strikes 0 events)[k].onset = (strikes 0 events)[k + 1].onset := by
  rw [onsets_eq, List.getElem?_map, List.getElem?_map, List.getElem?_eq_getElem h,
    List.getElem?_eq_getElem (Nat.lt_of_succ_lt h)]
  simp

/-- Two notes that begin at the same tick are in the same chord. -/
theorem chordNumbers_eq_of_onsets_eq {i j : Nat} (hi : i < (onsets events).length)
    (hj : j < (onsets events).length) (h : (onsets events)[i]? = (onsets events)[j]?) :
    (chordNumbers events)[i]? = (chordNumbers events)[j]? := by
  refine getElem?_eq_of_steps (isChain_onsets events) (isChain_chordNumbers events)
    (length_onsets events).symm (fun k hk hsame => ?_) hi hj h
  rw [onsets_eq, length_map] at hk
  have hgap := isChain_iff_getElem.1 (isChain_strikes 0 events).2 k hk
  rw [onsets_succ_eq_iff events k hk] at hsame
  rw [chordNumbers_succ_eq_iff events k hk]
  omega

/-- **Onsets decide** which notes are in the same chord exactly if the track is detached. -/
theorem forall_chordNumbers_eq_iff :
    (∀ i j, i < (onsets events).length → j < (onsets events).length →
        ((chordNumbers events)[i]? = (chordNumbers events)[j]? ↔
          (onsets events)[i]? = (onsets events)[j]?)) ↔ Detached events := by
  have hlength : (onsets events).length = (strikes 0 events).length := by
    rw [onsets_eq, length_map]
  rw [Detached, isChain_iff_getElem]
  constructor
  · intro h k hk hdelta
    rw [← onsets_succ_eq_iff events k hk, ← h k (k + 1) (by omega) (by omega)]
    exact (chordNumbers_succ_eq_iff events k hk).2 hdelta
  · intro hdetached i j hi hj
    refine ⟨fun h => ?_, chordNumbers_eq_of_onsets_eq events hi hj⟩
    refine getElem?_eq_of_steps (isChain_chordNumbers events) (isChain_onsets events)
      (length_onsets events) (fun k hk hsame => ?_) (length_onsets events ▸ hi)
      (length_onsets events ▸ hj) h
    have hk' : k + 1 < (strikes 0 events).length := by rwa [← hlength, length_onsets]
    rw [onsets_succ_eq_iff events k hk']
    exact hdetached k hk' ((chordNumbers_succ_eq_iff events k hk').1 hsame)

/-! ### The codes of a score -/

omit events

/-- In a detached track the delta of a note is zero exactly if no time has passed since the note
before. -/
theorem Detached.isChain_delta {events : List Event} (h : Detached events) :
    (strikes 0 events).IsChain fun earlier later =>
      (later.delta == 0) = (earlier.onset == later.onset) := by
  refine isChain_iff_getElem.2 fun k hk => ?_
  have hgap := isChain_iff_getElem.1 (isChain_strikes 0 events).2 k hk
  have hzero := isChain_iff_getElem.1 h k hk
  rw [Bool.eq_iff_iff, beq_iff_eq, beq_iff_eq]
  exact ⟨hzero, fun hsame => by omega⟩

/-- The codes of a detached track are those of the groups of notes that begin together. -/
theorem chordCodes_of_detached {events : List Event} (h : Detached events) (key : Key) :
    chordCodes key events = ((melody events).splitBy fun earlier later => earlier.1 == later.1).map
      fun chord => chord.foldl (fun code note => code ||| key.bit note.2.toNat) 0 := by
  rw [chordCodes, chords_eq_strikes, melody, splitBy_map, splitBy_congr h.isChain_delta,
    map_map, map_map]
  refine map_congr_left fun chord _ => ?_
  simp [chordCode, foldl_map]

/-- **Chords and onsets**: notes of a score that begin at the same tick are in the same chord; the
chords are the groups of notes that begin at the same tick exactly if the track is detached; and if
it is, then another detached track with the same notes at the same ticks, wherever these notes may
end, is read as the same text. -/
theorem chords_by_onset (score : Score) :
    (∀ i j, i < (onsets score.track).length → j < (onsets score.track).length →
        (onsets score.track)[i]? = (onsets score.track)[j]? →
        (chordNumbers score.track)[i]? = (chordNumbers score.track)[j]?) ∧
      ((∀ i j, i < (onsets score.track).length → j < (onsets score.track).length →
          ((chordNumbers score.track)[i]? = (chordNumbers score.track)[j]? ↔
            (onsets score.track)[i]? = (onsets score.track)[j]?)) ↔ Detached score.track) ∧
      ∀ other : Score, other.key = score.key → melody other.track = melody score.track →
        Detached score.track → Detached other.track → other.codes = score.codes := by
  refine ⟨fun i j hi hj => chordNumbers_eq_of_onsets_eq score.track hi hj,
    forall_chordNumbers_eq_iff score.track, ?_⟩
  intro other hkey hmelody hdetached hother
  rw [codes_eq_chordCodes, codes_eq_chordCodes, chordCodes_of_detached hdetached,
    chordCodes_of_detached hother, hkey, hmelody]

/-- Two notes, one after the other: the first one ends `sounding` ticks after its beginning, and the
second one begins at tick 227. -/
def slurred (sounding : Nat) : Score where
  key := .cMajor
  keyPlace := 0
  track := [⟨0, .keySignature .cMajor⟩, ⟨0, .noteOn 60 80⟩, ⟨sounding, .noteOn 60 0⟩,
    ⟨227 - sounding, .noteOn 62 80⟩, ⟨240, .noteOn 62 0⟩]

/-- The end of a note may be moved as long as it does not meet the next beginning. -/
theorem codes_slurred_eq :
    melody (slurred 100).track = melody (slurred 226).track ∧
      (slurred 100).codes = (slurred 226).codes := by
  refine ⟨by decide +kernel, ?_⟩
  exact (chords_by_onset (slurred 226)).2.2 (slurred 100) rfl (by decide +kernel)
    (by decide +kernel) (by decide +kernel)

/-- If it does, then the two notes are taken for one chord. -/
example : melody (slurred 227).track = melody (slurred 226).track ∧
    (slurred 227).codes = [3] ∧ (slurred 226).codes = [1, 2] := by
  decide +kernel

end ScoreLang.Score
