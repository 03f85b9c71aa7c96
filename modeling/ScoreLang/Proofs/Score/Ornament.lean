import ScoreLang.Performance
import ScoreLang.Proofs.Score.Chords
import ScoreLang.Proofs.Token.Lexeme

/-!
# Notes off the Scale

A note off the scale sets no bit, so it can be added to any chord that is there already without
being heard. But it can also begin a chord. If it cuts a chord of scale notes in two, then other
characters are spelled; and if no scale note begins together with it, then it is a chord without
any bit, whose code is zero. A zero is not passed over: for the lexer it is the end of the text, or
a stray character.

The codes after the insertion of such notes are therefore a refinement of those before: each of the
old codes is the union of some of the new ones that follow each other (`Refines`). If every scale
note begins a chord, or joins one, as before, then no code is split up, and the only trace of the
notes off the scale are zeros among the codes.

## Main results

* `Ornamented.refines`: what inserted notes off the scale do to the codes;
* `tokens_ornamented`: the tokens are the same unless there is a new chord without scale notes.
-/

namespace ScoreLang

open List

/-- A note sets a bit exactly if it is on the scale. -/
theorem Key.bit_eq_zero_iff (key : Key) (note : Int) : key.bit note = 0 ↔ note ∉ key.scale := by
  rw [Key.bit]
  cases hplace : key.scale.idxOf? note with
  | none => simpa using List.idxOf?_eq_none_iff.1 hplace
  | some place =>
    have hmem : note ∈ key.scale := by
      by_contra hout
      simp [List.idxOf?_eq_none_iff.2 hout] at hplace
    simp [hmem]

namespace Score

open Smf (Event Message)

/-! ### Codes of notes, from the last note to the first -/

/-- The bits of the notes at the beginning of a list that join the chord of a note before them, and
the codes of the chords after them. -/
def joining (key : Key) : List Note → Nat × List Nat
  | [] => (0, [])
  | note :: notes =>
    let later := joining key notes
    let code := key.bit note.pitch.toNat ||| later.1
    if note.delta = 0 then (code, later.2) else (0, code :: later.2)

theorem chordCode_nil (key : Key) : chordCode key [] = 0 := rfl

theorem foldl_bits (key : Key) (first second : Nat) (chord : List Note) :
    chord.foldl (fun code note => code ||| key.bit note.pitch.toNat) (first ||| second)
      = first ||| chord.foldl (fun code note => code ||| key.bit note.pitch.toNat) second := by
  induction chord generalizing second with
  | nil => rfl
  | cons note chord ih => rw [foldl_cons, Nat.or_assoc, ih, foldl_cons]

theorem chordCode_cons (key : Key) (note : Note) (chord : List Note) :
    chordCode key (note :: chord) = key.bit note.pitch.toNat ||| chordCode key chord := by
  rw [chordCode, foldl_cons, Nat.or_comm, foldl_bits, chordCode]

/-- The first note begins a chord, and the others join it or begin others. -/
theorem map_chordCode_splitBy (key : Key) (note : Note) (others : List Note) :
    ((note :: others).splitBy fun _ next => next.delta == 0).map (chordCode key)
      = (key.bit note.pitch.toNat ||| (joining key others).1) :: (joining key others).2 := by
  induction others generalizing note with
  | nil => simp [joining, chordCode, List.splitBy, List.splitBy.loop]
  | cons next others ih =>
    have hnext := ih next
    rw [splitBy_cons_cons, joining]
    cases hchords : (next :: others).splitBy fun _ next => next.delta == 0 with
    | nil => simp at hchords
    | cons chord chords =>
      rw [hchords, map_cons, List.cons.injEq] at hnext
      by_cases hdelta : next.delta = 0
      · simp [hdelta, chordCode_cons, hnext]
      · simp [hdelta, chordCode_cons, hnext, chordCode_nil]

theorem chordCodes_cons_of_silent {event : Event} (h : event.message.audible? = none) (key : Key)
    (events : List Event) : chordCodes key (event :: events) = chordCodes key events := by
  rw [chordCodes, chords, notes_cons_of_silent h, chordCodes, chords]

theorem chordCodes_cons_of_audible {event : Event} {pitch : UInt8}
    (h : event.message.audible? = some pitch) (key : Key) (events : List Event) :
    chordCodes key (event :: events)
      = (key.bit pitch.toNat ||| (joining key (notes events)).1) ::
        (joining key (notes events)).2 := by
  rw [chordCodes, chords, notes_cons_of_audible h, map_chordCode_splitBy]

/-- Either the first note of some events is said to join a chord before them, or it begins one. -/
theorem chordCodes_eq_joining (key : Key) (events : List Event) :
    chordCodes key events
        = (joining key (notes events)).1 :: (joining key (notes events)).2 ∨
      (joining key (notes events)).1 = 0 ∧ chordCodes key events = (joining key
        (notes events)).2 := by
  rw [chordCodes, chords]
  cases notes events with
  | nil => exact .inr ⟨rfl, rfl⟩
  | cons note others =>
    rw [map_chordCode_splitBy, joining]
    by_cases hdelta : note.delta = 0
    · exact .inl (by simp [hdelta])
    · exact .inr (by simp [hdelta])

/-! ### Refinements of codes -/

/-- The bits of some codes together. -/
def union (codes : List Nat) : Nat :=
  codes.foldr (· ||| ·) 0

/-- Each of the first codes is the union of some of the second ones that follow each other, after
some zeros. -/
def Refines (coarse fine : List Nat) : Prop :=
  ∃ (lead : List Nat) (groups : List (List Nat)), fine = lead ++ groups.flatten ∧
  (∀ code ∈ lead, code = 0) ∧
    coarse = groups.map union ∧ ∀ group ∈ groups, group ≠ []

/-- The number of codes that are not zero. -/
def heard (codes : List Nat) : Nat :=
  codes.countP (· ≠ 0)

theorem heard_append (first second : List Nat) :
    heard (first ++ second) = heard first + heard second :=
  countP_append

theorem heard_eq_zero_iff {codes : List Nat} : heard codes = 0 ↔ ∀ code ∈ codes, code = 0 := by
  simp [heard, countP_eq_zero]

theorem union_eq_zero_iff {codes : List Nat} : union codes = 0 ↔ ∀ code ∈ codes, code = 0 := by
  induction codes with
  | nil => simp [union]
  | cons code codes ih =>
    rw [union, foldr_cons, ← union, Nat.or_eq_zero_iff, ih, forall_mem_cons]

/-- If at most one of some codes is not zero, then their union is one of them. -/
theorem union_mem {codes : List Nat} (hne : codes ≠ []) (h : heard codes ≤ 1) :
    union codes ∈ codes := by
  induction codes with
  | nil => exact absurd rfl hne
  | cons code codes ih =>
    rw [heard, countP_cons, ← heard] at h
    by_cases hcode : code = 0
    · cases codes with
      | nil => simp [union, hcode]
      | cons next codes =>
        have hmem := ih (cons_ne_nil _ _) (by simpa [hcode] using h)
        rw [hcode, union, foldr_cons, ← union, Nat.zero_or]
        exact mem_cons_of_mem _ hmem
    · have hzero : union codes = 0 := by
        rw [union_eq_zero_iff, ← heard_eq_zero_iff]
        simpa [hcode] using h
      rw [union, foldr_cons, ← union, hzero, Nat.or_zero]
      exact mem_cons_self

theorem heard_union_le (codes : List Nat) : heard [union codes] ≤ heard codes := by
  by_cases hzero : union codes = 0
  · simp [heard, hzero]
  · have hpos : heard codes ≠ 0 := fun h => hzero (union_eq_zero_iff.2 (heard_eq_zero_iff.1 h))
    have hone : heard [union codes] ≤ 1 := countP_le_length
    omega

/-- Unions do not raise the number of codes that are not zero. If they keep it, then nothing but
zeros has been left out. -/
theorem sublist_of_heard_le {groups : List (List Nat)} (hne : ∀ group ∈ groups, group ≠ []) :
    heard (groups.map union) ≤ heard groups.flatten ∧
      (heard groups.flatten ≤ heard (groups.map union) →
        (groups.map union).Sublist groups.flatten) := by
  induction groups with
  | nil => exact ⟨Nat.le_refl _, fun _ => List.Sublist.refl _⟩
  | cons group groups ih =>
    obtain ⟨hle, hsublist⟩ := ih fun g hg => hne g (mem_cons_of_mem _ hg)
    have hgroup := heard_union_le group
    rw [map_cons, flatten_cons, ← singleton_append, heard_append, heard_append]
    refine ⟨by omega, fun hheard => ?_⟩
    have hone : heard [union group] ≤ 1 := countP_le_length
    have hmem := union_mem (hne group mem_cons_self) (by omega)
    exact (singleton_sublist.2 hmem).append (hsublist (by omega))

/-- A refinement that has no more codes that are not zero differs by zeros only. -/
theorem Refines.sublist {coarse fine : List Nat} (h : Refines coarse fine)
    (hheard : heard fine ≤ heard coarse) :
    coarse.Sublist fine ∧ fine.filter (· ≠ 0) = coarse.filter (· ≠ 0) := by
  obtain ⟨lead, groups, rfl, hlead, rfl, hne⟩ := h
  rw [heard_append, heard_eq_zero_iff.2 hlead, Nat.zero_add] at hheard
  obtain ⟨hle, hsublist⟩ := sublist_of_heard_le hne
  have hall : (groups.map union).Sublist (lead ++ groups.flatten) :=
    (hsublist hheard).trans (sublist_append_right _ _)
  refine ⟨hall, ((hall.filter _).eq_of_length ?_).symm⟩
  rw [← countP_eq_length_filter, ← countP_eq_length_filter]
  change heard _ = heard _
  rw [heard_append, heard_eq_zero_iff.2 hlead]
  omega

/-! ### Inserted notes -/

/-- The second track is the first one with some notes off the scale inserted, with any deltas. -/
inductive Ornamented (key : Key) : List Event → List Event → Prop where
  | nil : Ornamented key [] []
  | keep (event : Event) {track track' : List Event} :
      Ornamented key track track' → Ornamented key (event :: track) (event :: track')
  | add (event : Event) {pitch : UInt8} {track track' : List Event}
      (haudible : event.message.audible? = some pitch) (hoff : (pitch.toNat : Int) ∉ key.scale) :
      Ornamented key track track' → Ornamented key track (event :: track')

/-- Where the first notes join a chord before the track, inserted notes may have cut this chord into
the part that still joins and some pieces after it. -/
theorem Ornamented.joining {key : Key} {track track' : List Event}
    (h : Ornamented key track track') : ∃ (pieces : List Nat) (groups : List (List Nat)),
      (joining key (notes track')).2 = pieces ++ groups.flatten ∧
      (joining key (notes track)).1 = (joining key (notes track')).1 ||| union pieces ∧
      (joining key (notes track)).2 = groups.map union ∧ ∀ group ∈ groups, group ≠ [] := by
  induction h with
  | nil => exact ⟨[], [], rfl, (Nat.or_zero _).symm, rfl, by simp⟩
  | @keep event track track' h ih =>
    obtain ⟨pieces, groups, hfine, hjoin, hcoarse, hne⟩ := ih
    cases haudible : event.message.audible? with
    | none =>
      rw [notes_cons_of_silent haudible, notes_cons_of_silent haudible]
      exact ⟨pieces, groups, hfine, hjoin, hcoarse, hne⟩
    | some pitch =>
      rw [notes_cons_of_audible haudible, notes_cons_of_audible haudible, Score.joining,
        Score.joining]
      by_cases hdelta : event.delta = 0
      · refine ⟨pieces, groups, by simp [hdelta, hfine], ?_, by simp [hdelta, hcoarse], hne⟩
        simp [hdelta, hjoin, Nat.or_assoc]
      · refine ⟨[], ((key.bit pitch.toNat ||| (Score.joining key (notes track')).1) :: pieces) ::
          groups, by simp [hdelta, hfine], by simp [hdelta, union], ?_, ?_⟩
        · simp [hdelta, hcoarse, hjoin, union, Nat.or_assoc]
        · simpa using hne
  | @add event pitch track track' haudible hoff h ih =>
    obtain ⟨pieces, groups, hfine, hjoin, hcoarse, hne⟩ := ih
    have hmute : key.bit pitch.toNat = 0 := (key.bit_eq_zero_iff _).2 hoff
    rw [notes_cons_of_audible haudible, Score.joining]
    by_cases hdelta : event.delta = 0
    · exact ⟨pieces, groups, by simp [hdelta, hfine], by simp [hdelta, hmute, hjoin], hcoarse, hne⟩
    · refine ⟨(Score.joining key (notes track')).1 :: pieces,
        groups, by simp [hdelta, hmute, hfine], ?_, hcoarse, hne⟩
      simp [hdelta, hjoin, union]

/-- **Inserted notes off the scale refine the codes.** -/
theorem Ornamented.refines {key : Key} {track track' : List Event}
    (h : Ornamented key track track') : Refines (chordCodes key track) (chordCodes key track') := by
  induction h with
  | nil => exact ⟨[], [], rfl, by simp, rfl, by simp⟩
  | @keep event track track' h ih =>
    cases haudible : event.message.audible? with
    | none =>
      rw [chordCodes_cons_of_silent haudible, chordCodes_cons_of_silent haudible]
      exact ih
    | some pitch =>
      obtain ⟨pieces, groups, hfine, hjoin, hcoarse, hne⟩ := h.joining
      rw [chordCodes_cons_of_audible haudible, chordCodes_cons_of_audible haudible]
      refine ⟨[], ((key.bit pitch.toNat ||| (Score.joining key (notes track')).1) :: pieces) ::
        groups, by simp [hfine], by simp, ?_, by simpa using hne⟩
      simp [hcoarse, hjoin, union, Nat.or_assoc]
  | @add event pitch track track' haudible hoff h ih =>
    obtain ⟨pieces, groups, hfine, hjoin, hcoarse, hne⟩ := h.joining
    have hmute : key.bit pitch.toNat = 0 := (key.bit_eq_zero_iff _).2 hoff
    rw [chordCodes_cons_of_audible haudible, hmute, Nat.zero_or, hfine]
    rcases chordCodes_eq_joining key track with hcodes | ⟨hzero, hcodes⟩
    · -- the new note is put before the first chord
      refine ⟨[], (_ :: pieces) :: groups, rfl, by simp, ?_, by simpa using hne⟩
      rw [hcodes, hjoin, hcoarse]
      rfl
    · -- the new note is a chord of its own, or several of them are
      rw [hzero] at hjoin
      obtain ⟨hfirst, hpieces⟩ := Nat.or_eq_zero_iff.1 hjoin.symm
      refine ⟨_ :: pieces, groups, rfl, ?_, by rw [hcodes, hcoarse], hne⟩
      exact forall_mem_cons.2 ⟨hfirst, union_eq_zero_iff.1 hpieces⟩

/-! ### Where scale notes begin chords -/

/-- Whether a note is on the scale. -/
def onScale (key : Key) (note : Note) : Bool :=
  key.scale.contains (note.pitch.toNat : Int)

/-- For each element of a list, whether it is the first one. -/
def firsts {α : Type} : List α → List Bool
  | [] => []
  | _ :: others => true :: others.map fun _ => false

/-- For each scale note of some events, whether it is the first one of its chord. -/
def beginnings (key : Key) (events : List Event) : List Bool :=
  (chords events).flatMap fun chord => firsts (chord.filter (onScale key))

/-- A chord is heard exactly if it has a scale note. -/
theorem chordCode_eq_zero_iff (key : Key) (chord : List Note) :
    chordCode key chord = 0 ↔ chord.filter (onScale key) = [] := by
  induction chord with
  | nil => simp [chordCode_nil]
  | cons note chord ih =>
    rw [chordCode_cons, Nat.or_eq_zero_iff, ih, Key.bit_eq_zero_iff]
    by_cases hscale : (note.pitch.toNat : Int) ∈ key.scale <;> simp [onScale, hscale]

theorem count_firsts {α : Type} (l : List α) :
    (firsts l).count true = if l = [] then 0 else 1 := by
  cases l with
  | nil => rfl
  | cons a l => simp [firsts, count_eq_zero]

/-- As many scale notes begin a chord as chords are heard. -/
theorem count_beginnings (key : Key) (events : List Event) :
    (beginnings key events).count true = heard (chordCodes key events) := by
  rw [beginnings, chordCodes]
  induction chords events with
  | nil => rfl
  | cons chord chords ih =>
    rw [flatMap_cons, count_append, ih, count_firsts, map_cons, heard, heard,
      countP_cons]
    by_cases hheard : chord.filter (onScale key) = []
    · simp [hheard, (chordCode_eq_zero_iff key chord).2 hheard]
    · have hcode : chordCode key chord ≠ 0 := fun h =>
        hheard ((chordCode_eq_zero_iff key chord).1 h)
      simp [hheard, hcode, Nat.add_comm]

/-- **Notes off the scale are free**, up to zeros: if some of them are inserted into the track of a
score, and every scale note begins a chord, or does not, as before, then the new codes are the old
ones with some zeros among them. If there are no new chords, then the tokens are the same. -/
theorem tokens_ornamented (score score' : Score) (hkey : score'.key = score.key)
    (h : Ornamented score.key score.track score'.track)
    (hbegin : beginnings score.key score'.track = beginnings score.key score.track) :
    score.codes.Sublist score'.codes ∧
      score'.codes.filter (· ≠ 0) = score.codes.filter (· ≠ 0) ∧
      (score'.codes.length = score.codes.length → score'.tokens = score.tokens) := by
  have hheard : heard (chordCodes score.key score'.track) ≤ heard (chordCodes score.key
    score.track) := by
    rw [← count_beginnings, ← count_beginnings, hbegin]
  obtain ⟨hsublist, hfilter⟩ := h.refines.sublist hheard
  rw [codes_eq_chordCodes score, codes_eq_chordCodes score', hkey]
  refine ⟨hsublist, hfilter, fun hlength => ?_⟩
  rw [tokens, tokens, codes_eq_chordCodes score, codes_eq_chordCodes score', hkey,
    hsublist.eq_of_length hlength.symm]

/-- The chords of two letters, with a note off the scale `delta` ticks after the first one, if
any. -/
def graced (delta : Option Nat) : Score where
  key := .cMajor
  keyPlace := 0
  track := [⟨0, .keySignature .cMajor⟩, ⟨0, .noteOn 60 80⟩, ⟨0, .noteOn 69 80⟩,
    ⟨0, .noteOn 71 80⟩] ++ delta.toList.map (⟨·, .noteOn 61 80⟩) ++
    [⟨13, .noteOn 62 80⟩, ⟨0, .noteOn 69 80⟩, ⟨0, .noteOn 71 80⟩]

/-- A note off the scale that joins a chord is not heard. -/
theorem tokens_graced : (graced (some 0)).tokens = (graced none).tokens := by
  have hadded : Ornamented .cMajor (graced none).track (graced (some 0)).track :=
    .keep _ (.keep _ (.keep _ (.keep _ (.add _ rfl (by decide)
    (.keep _ (.keep _ (.keep _ .nil)))))))
  exact (tokens_ornamented (graced none) (graced (some 0)) rfl hadded (by decide +kernel)).2.2
    (by decide +kernel)

/-- One that begins a chord of its own ends the text: of the name `ab` the first letter is left. -/
example : (graced (some 5)).codes = [97, 0, 98] ∧
    (graced none).tokens.lines = [.token ⟨.name, "ab"⟩] ∧
    (graced (some 5)).tokens.lines = [.token ⟨.name, "a"⟩] := by
  decide +kernel

end Score

end ScoreLang
