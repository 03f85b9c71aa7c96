import ScoreLang.Proofs.Score.Reader

/-!
# The Codes of a Score Are Those of Its Chords

A list is cut into pieces by `List.splitBy`, and the chords of a track are the pieces of its notes.
The lemmas of this module take such a list apart from the left, one element at a time, and say what
all codes of a score are: `codes_eq_chordCodes`.
-/

namespace ScoreLang.Score

open List

/-! ### Pieces of a list -/

section Pieces

variable {α β : Type} {r s : α → α → Bool}

/-- A list is cut after its first element, or this element is added to the first piece of the
others. -/
theorem splitBy_cons_cons (r : α → α → Bool) (a b : α) (l : List α) :
    (a :: b :: l).splitBy r
      = if r a b then ((b :: l).splitBy r).modifyHead (a :: ·) else [a] :: (b :: l).splitBy r := by
  split
  case isTrue hab =>
    obtain ⟨hflat, hnil, hchains, hcuts⟩ := splitBy_eq_iff.1 (rfl : (b :: l).splitBy r = _)
    cases hpieces : (b :: l).splitBy r with
    | nil => simp at hpieces
    | cons piece pieces =>
      rw [hpieces] at hflat hnil hchains hcuts
      cases piece with
      | nil => simp at hnil
      | cons c piece =>
        obtain ⟨rfl, hl⟩ : b = c ∧ l = piece ++ pieces.flatten := by simpa using hflat
        refine splitBy_eq_iff.2 ⟨by simp [hl], by simpa using hnil, ?_, ?_⟩
        · intro m hm
          obtain rfl | hm := mem_cons.1 hm
          · exact List.IsChain.cons_cons hab (hchains _ mem_cons_self)
          · exact hchains m (mem_cons_of_mem _ hm)
        · refine isChain_cons.2 ⟨fun next hnext => ?_, hcuts.tail⟩
          obtain ⟨_, hnonempty, hcut⟩ := (isChain_cons.1 hcuts).1 next hnext
          exact ⟨by simp, hnonempty, by simpa using hcut⟩
  case isFalse hab =>
    rw [← singleton_append, splitBy_append_cons l (by simpa using hab)]
    rfl

/-- Only what the relation says of neighbours matters. -/
theorem splitBy_congr {l : List α} (h : l.IsChain fun a b => r a b = s a b) :
    l.splitBy r = l.splitBy s := by
  induction l with
  | nil => rfl
  | cons a l ih =>
    cases l with
    | nil => rfl
    | cons b l =>
      rw [splitBy_cons_cons, splitBy_cons_cons, (isChain_cons_cons.1 h).1, ih h.tail]

theorem splitBy_map (f : β → α) (l : List β) :
    (l.map f).splitBy r = (l.splitBy fun a b => r (f a) (f b)).map (List.map f) := by
  induction l with
  | nil => rfl
  | cons a l ih =>
    cases l with
    | nil => rfl
    | cons b l =>
      rw [map_cons, map_cons, splitBy_cons_cons, splitBy_cons_cons, ← map_cons, ih]
      split
      · cases (b :: l).splitBy fun a b => r (f a) (f b) <;> rfl
      · rfl

theorem length_splitBy_le (r : α → α → Bool) (l : List α) : (l.splitBy r).length ≤ l.length := by
  induction l with
  | nil => exact Nat.le_refl 0
  | cons a l ih =>
    cases l with
    | nil => exact Nat.le_refl 1
    | cons b l =>
      rw [splitBy_cons_cons]
      split
      · rw [length_modifyHead]
        exact Nat.le_succ_of_le ih
      · exact Nat.succ_le_succ ih

end Pieces

/-! ### The codes of a score -/

/-- There are no more chords than events. -/
theorem length_chords_le (events : List Smf.Event) : (chords events).length ≤ events.length :=
  (length_splitBy_le _ _).trans (length_filterMap_le _ _)

/-- The codes that are left are those of the chords after the cursor. -/
theorem remaining_eq (key : Key) (fuel : Nat) (done : List Nat) (cursor : Cursor)
    (h : (chords cursor.rest).length ≤ fuel) :
    (cursor.remaining key fuel done).1 = done.reverse ++ chordCodes key cursor.rest := by
  induction fuel generalizing done cursor with
  | zero =>
    have hnone : chordCodes key cursor.rest = [] := by simpa [chordCodes] using h
    simp [Cursor.remaining, hnone]
  | succ fuel ih =>
    rw [Cursor.remaining, hasNote_eq]
    obtain ⟨hcode, hafter⟩ := next_chords key cursor
    have hlength : (chords (cursor.next key).2.rest).length = (chords cursor.rest).length - 1 := by
      simpa [chordCodes] using congrArg List.length hafter
    cases hcodes : chordCodes key cursor.rest with
    | nil =>
      have hchords : chords cursor.rest = [] := by simpa [chordCodes] using hcodes
      simp [hchords]
    | cons code codes =>
      have hchords : (chords cursor.rest).length = codes.length + 1 := by
        simpa [chordCodes] using congrArg List.length hcodes
      have hnote : 0 < (chords cursor.rest).length := by omega
      simp only [hnote, decide_true, if_true]
      rw [ih _ _ (by omega), hafter, hcode, hcodes]
      simp

/-- **The codes of a score** are those of its chords. -/
theorem codes_eq_chordCodes (score : Score) : score.codes = chordCodes score.key score.track := by
  rw [codes, Cursor.all, remaining_eq _ _ _ _ (length_chords_le score.track)]
  rfl

end ScoreLang.Score
