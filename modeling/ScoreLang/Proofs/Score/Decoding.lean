import ScoreLang.Scale

/-!
# The Two Readings of a Chord

Notes are read as a code in two ways. `Key.code` goes through the scale and looks for each of its
notes in the chord; `Key.bit` takes a single note, looks for it in the scale and gives its bit, and
the bits of all notes are joined. Bit by bit the two say the same, because the scale of a key rises
from note to note, so that a note has at most one place in it.

The code of a chord therefore depends on nothing but which scale notes are in it, and the chord that
is written for a code is read as the low byte of that code.

## Main results

* `Key.testBit_code`, `Key.testBit_bit`: the bits of a chord and of a note;
* `codeOf_eq_bits`: the two readings agree, on all lists of notes and on the chord of every code.
-/

namespace ScoreLang

open List

/-- The bits of some codes that are joined. -/
theorem testBit_foldl_or (codes : List Nat) (first i : Nat) :
    (codes.foldl (· ||| ·) first).testBit i = true ↔
      first.testBit i = true ∨ ∃ code ∈ codes, code.testBit i = true := by
  induction codes generalizing first with
  | nil => simp
  | cons code codes ih =>
    rw [foldl_cons, ih, Nat.testBit_or, Bool.or_eq_true, or_assoc]
    simp

namespace Key

variable (key : Key)

/-! ### The scale -/

theorem pairwise_scale : key.scale.Pairwise (· < ·) := by
  have hall : ∀ signature : Fin 15, (scale ⟨signature, .major⟩).Pairwise (· < ·) := by
    decide +kernel
  exact hall key.signature

theorem ofName?_name : ofName? key.name = some key := by
  have hall : ∀ signature : Fin 15, ofName? (name ⟨signature, .major⟩) = some ⟨signature, .major⟩ ∧
      ofName? (name ⟨signature, .minor⟩) = some ⟨signature, .minor⟩ := by
    decide +kernel
  obtain ⟨signature, mode⟩ := key
  cases mode with
  | major => exact (hall signature).1
  | minor => exact (hall signature).2

variable {key}

variable {note : Int} {notes : List Int} {i : Nat}

theorem lt_eight (h : key.scale[i]? = some note) : i < 8 :=
  (List.getElem?_eq_some_iff.1 h).1

/-- A note has at most one place in the scale. -/
theorem place_unique {j : Nat} (hi : key.scale[i]? = some note) (hj : key.scale[j]? = some note) :
    i = j :=
  (List.getElem?_inj (List.getElem?_eq_some_iff.1 hi).1 (key.pairwise_scale.imp Int.ne_of_lt)).1
    (hi.trans hj.symm)

/-! ### Bits -/

/-- The bit of a note is that of its place in the scale. -/
theorem testBit_bit :
    (key.bit note).testBit i = true ↔ key.scale[i]? = some note := by
  rw [bit]
  cases hplace : key.scale.idxOf? note with
  | none =>
    have hout : note ∉ key.scale := List.idxOf?_eq_none_iff.1 hplace
    constructor
    · simp
    · intro h
      exact absurd (mem_of_getElem? h) hout
  | some place =>
    obtain ⟨hlt, hnote, -⟩ := List.idxOf?_eq_some_iff.1 hplace
    have hfound : key.scale[place]? = some note := List.getElem?_eq_some_iff.2 ⟨hlt, hnote⟩
    change (2 ^ place).testBit i = true ↔ _
    rw [Nat.testBit_two_pow, decide_eq_true_eq]
    constructor
    · rintro rfl
      exact hfound
    · exact place_unique hfound

/-- The bits of a list of notes are those of the scale notes in it. -/
theorem testBit_code :
    (key.code notes).testBit i = true ↔ ∃ note ∈ notes, key.scale[i]? = some note := by
  have hcode : key.code notes = ((key.scale.zipIdx.filter (·.1 ∈ notes)).map
      fun step => 2 ^ step.2).foldl (· ||| ·) 0 := by
    rw [foldl_map, foldl_filter, code]
    simp
  rw [hcode, testBit_foldl_or]
  constructor
  · rintro (h | ⟨_, hmem, h⟩)
    · simp at h
    · obtain ⟨⟨note, place⟩, hstep, rfl⟩ := mem_map.1 hmem
      obtain ⟨hscale, hnote⟩ := mem_filter.1 hstep
      obtain rfl : place = i := by simpa [Nat.testBit_two_pow] using h
      exact ⟨note, by simpa using hnote, mem_zipIdx_iff_getElem?.1 hscale⟩
  · rintro ⟨note, hnote, hscale⟩
    refine .inr ⟨2 ^ i, mem_map.2 ⟨(note, i), mem_filter.2
      ⟨?_, by simpa using hnote⟩, rfl⟩, Nat.testBit_two_pow_self⟩
    exact mem_zipIdx_iff_getElem?.2 hscale

theorem mem_chord {code : Nat} :
    note ∈ key.chord code ↔ ∃ i, key.scale[i]? = some note ∧ code.testBit i = true := by
  simp only [chord, mem_map, mem_filter, mem_zipIdx_iff_getElem?, Prod.exists]
  constructor
  · rintro ⟨_, i, h, rfl⟩
    exact ⟨i, h⟩
  · rintro ⟨i, h⟩
    exact ⟨note, i, h, rfl⟩

variable (key)

/-- The notes of a chord rise, as those of the scale do. -/
theorem pairwise_chord (code : Nat) : (key.chord code).Pairwise (· < ·) := by
  have hsub : (key.chord code).Sublist (key.scale.zipIdx.map (·.1)) := filter_sublist.map _
  rw [zipIdx_map_fst] at hsub
  exact key.pairwise_scale.sublist hsub

/-! ### Agreement -/

/-- Looking for the scale notes in a list gives the same code as joining the bits of its notes. -/
theorem code_eq_foldl_bit (notes : List Int) :
    key.code notes = (notes.map key.bit).foldl (· ||| ·) 0 := by
  refine Nat.eq_of_testBit_eq fun i => Bool.eq_iff_iff.2 ?_
  rw [testBit_code, testBit_foldl_or]
  constructor
  · rintro ⟨note, hnote, hscale⟩
    exact .inr ⟨_, mem_map_of_mem hnote, testBit_bit.2 hscale⟩
  · rintro (h | ⟨_, hmem, h⟩)
    · simp at h
    · obtain ⟨note, hnote, rfl⟩ := mem_map.1 hmem
      exact ⟨note, hnote, testBit_bit.1 h⟩

/-- A code depends only on the scale notes in the list. -/
theorem code_congr {other : List Int} (h : ∀ note ∈ key.scale, note ∈ notes ↔ note ∈ other) :
    key.code notes = key.code other := by
  refine Nat.eq_of_testBit_eq fun i => Bool.eq_iff_iff.2 ?_
  rw [testBit_code, testBit_code]
  constructor
  · rintro ⟨note, hnote, hscale⟩
    exact ⟨note, (h note (mem_of_getElem? hscale)).1 hnote, hscale⟩
  · rintro ⟨note, hnote, hscale⟩
    exact ⟨note, (h note (mem_of_getElem? hscale)).2 hnote, hscale⟩

theorem code_lt (notes : List Int) : key.code notes < 256 := by
  refine Nat.lt_pow_two_of_testBit (n := 8) _ fun i hi => ?_
  rw [← Bool.not_eq_true, testBit_code]
  rintro ⟨note, -, hscale⟩
  exact absurd (lt_eight hscale) (by omega)

/-- The chord that is written for a code is read as its low byte. -/
theorem code_chord (code : Nat) : key.code (key.chord code) = code &&& 255 := by
  refine Nat.eq_of_testBit_eq fun i => Bool.eq_iff_iff.2 ?_
  rw [testBit_code, Nat.testBit_and, show (255 : Nat) = 2 ^ 8 - 1 from rfl,
    Nat.testBit_two_pow_sub_one, Bool.and_eq_true, decide_eq_true_eq]
  constructor
  · rintro ⟨note, hnote, hscale⟩
    obtain ⟨j, hj, hbit⟩ := mem_chord.1 hnote
    obtain rfl := place_unique hj hscale
    exact ⟨hbit, lt_eight hscale⟩
  · rintro ⟨hbit, hlt⟩
    have hscale : key.scale[i]? = some (key.scale.get ⟨i, hlt⟩) := List.getElem?_eq_getElem hlt
    exact ⟨_, mem_chord.2 ⟨i, hscale, hbit⟩, hscale⟩

/-- Lists of notes that arise from each other by changes that cannot be heard. -/
inductive Alike : List Int → List Int → Prop where
  /-- The notes come in another order. -/
  | perm {notes other : List Int} : notes.Perm other → Alike notes other
  /-- A note is repeated. -/
  | again {notes : List Int} {note : Int} : note ∈ notes → Alike notes (note :: notes)
  /-- There is one more note, which is not on the scale. -/
  | silent {notes : List Int} {note : Int} : note ∉ key.scale → Alike notes (note :: notes)
  /-- Several changes are made one after the other. -/
  | trans {notes between other : List Int} :
      Alike notes between → Alike between other → Alike notes other

variable {key}

theorem Alike.mem_iff {other : List Int} (h : key.Alike notes other) :
    ∀ note ∈ key.scale, note ∈ notes ↔ note ∈ other := by
  induction h with
  | perm h => exact fun note _ => h.mem_iff
  | again h =>
    intro note _
    rw [mem_cons]
    exact ⟨.inr, fun h' => h'.elim (fun heq => heq ▸ h) id⟩
  | silent h =>
    intro note hnote
    rw [mem_cons]
    exact ⟨.inr, fun h' => h'.resolve_left fun heq => h (heq ▸ hnote)⟩
  | trans _ _ ih ih' => exact fun note hnote => (ih note hnote).trans (ih' note hnote)

end Key

/-! ### Access by name -/

theorem codeOf_name (key : Key) {notes : List Int} (h : notes.length ≤ 8) :
    codeOf key.name notes = .ok (key.code notes) := by
  rw [codeOf, key.ofName?_name]
  exact if_neg (by omega)

/-- The bits of some notes, one after the other. -/
theorem mapM_bitOf_name (key : Key) (notes : List Int) :
    notes.mapM (bitOf key.name) = .ok (notes.map key.bit) := by
  have hbit : bitOf key.name = fun note => pure (key.bit note) := by
    funext note
    rw [bitOf, key.ofName?_name]
    rfl
  rw [hbit, mapM_pure]
  rfl

/-- **The two readings of a chord agree.** In every key, at most eight notes have for their code the
bits of the single notes, joined; changes that cannot be heard do not change it. The chord of a code
rises, and both readings give the low byte of the code back. -/
theorem codeOf_eq_bits (key : Key) :
    (∀ notes : List Int, notes.length ≤ 8 → ∃ bits code, notes.mapM (bitOf key.name) = .ok bits ∧
      code = bits.foldl (· ||| ·) 0 ∧ code < 256 ∧ codeOf key.name notes = .ok code ∧
      ∀ other, key.Alike notes other → other.length ≤ 8 → codeOf key.name other = .ok code) ∧
    (∀ c : Char, chordOf key.name (String.singleton c) = .ok (key.chord c.toNat)) ∧
    ∀ code : Nat, (key.chord code).Pairwise (· < ·) ∧
      codeOf key.name (key.chord code) = .ok (code &&& 255) ∧
      ∃ bits, (key.chord code).mapM (bitOf key.name) = .ok bits ∧
        bits.foldl (· ||| ·) 0 = code &&& 255 := by
  refine ⟨fun notes hlength => ?_, fun c => ?_, fun code => ?_⟩
  · refine ⟨_, _, mapM_bitOf_name key notes, rfl, ?_⟩
    rw [← key.code_eq_foldl_bit]
    refine ⟨key.code_lt notes, codeOf_name key hlength, fun other halike hother => ?_⟩
    rw [codeOf_name key hother, key.code_congr halike.mem_iff]
  · rw [chordOf, key.ofName?_name, String.toList_singleton]
  · have hlength : (key.chord code).length ≤ 8 := by
      simpa [Key.chord, Key.scale, Key.naturals] using
        length_filter_le (fun step => code.testBit step.2) key.scale.zipIdx
    refine ⟨key.pairwise_chord code, ?_, _, mapM_bitOf_name key _, ?_⟩
    · rw [codeOf_name key hlength, key.code_chord]
    · rw [← key.code_eq_foldl_bit, key.code_chord]

/-- In F sharp minor, with a repeated note and one that is not on the scale. -/
theorem codeOf_eq_bits_sample : ([73, 61] : List Int).length ≤ 8 ∧
    Key.Alike ⟨10, .minor⟩ [73, 61] [60, 61, 73, 61] ∧
    codeOf "F#m" [73, 61] = .ok 129 ∧ codeOf "F#m" [60, 61, 73, 61] = .ok 129 := by
  have halike : Key.Alike ⟨10, .minor⟩ [73, 61] [60, 61, 73, 61] :=
    .trans (.again (by decide)) (.silent (by decide))
  obtain ⟨_, _, hbits, rfl, -, hcode, hother⟩ :=
    (codeOf_eq_bits ⟨10, .minor⟩).1 [73, 61] (by decide)
  obtain rfl := Except.ok.inj hbits
  exact ⟨by decide, halike, hcode, hother _ halike (by decide)⟩

end ScoreLang
