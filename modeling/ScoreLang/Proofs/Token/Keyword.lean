import Mathlib.Algebra.Group.Nat.Defs
import ScoreLang.Token.Keyword

/-!
# The Search for Reserved Words

The table of reserved words is sorted. A look at the entry in the middle of a stretch of it tells
in which half a word can still stand, unless it is that entry: the lower half keeps the middle, the
upper half begins behind it, and neither of them is empty. So a stretch gets shorter with each look
until it has one entry left, and no look falls outside of it. An entry that stands twice does no
harm, since all that is used of the order is that no entry is less than one before it.

## Main results

* `exists_reservedWithin`: the search in a stretch of the table;
* `isReserved_iff`: the words that are found in the whole of it.
-/

namespace ScoreLang

/-- A word stands in the table between two places, these included. -/
def Listed (word : String) (left right : Nat) : Prop :=
  ∃ i, left ≤ i ∧ i ≤ right ∧ reserved[i]? = some word

theorem reserved_sorted : reserved.toList.Pairwise (· ≤ ·) := by
  decide +kernel

theorem entry_le_entry {i j : Nat} (hij : i ≤ j) {first second : String}
    (hfirst : reserved[i]? = some first) (hsecond : reserved[j]? = some second) :
    first ≤ second := by
  obtain ⟨hi, rfl⟩ := Array.getElem?_eq_some_iff.1 hfirst
  obtain ⟨hj, rfl⟩ := Array.getElem?_eq_some_iff.1 hsecond
  rcases Nat.lt_or_eq_of_le hij with hij | rfl
  · exact List.pairwise_iff_getElem.1 reserved_sorted i j hi hj hij
  · exact String.le_refl _

/-! ### The halves of a stretch -/

section Halves

variable {word entry : String} {left middle right : Nat} (hentry : reserved[middle]? = some entry)
include hentry

/-- A word that is less than the entry in the middle can only stand before it. -/
theorem listed_lower (hright : middle ≤ right) (hless : word < entry) :
    Listed word left right ↔ Listed word left middle := by
  constructor
  · rintro ⟨i, hleft, -, hword⟩
    refine ⟨i, hleft, Nat.le_of_not_le fun hle => ?_, hword⟩
    exact String.not_le.2 hless (entry_le_entry hle hentry hword)
  · rintro ⟨i, hleft, hmiddle, hword⟩
    exact ⟨i, hleft, Nat.le_trans hmiddle hright, hword⟩

/-- A word that is greater than the entry in the middle can only stand behind it. -/
theorem listed_upper (hleft : left ≤ middle) (hgreater : entry < word) :
    Listed word left right ↔ Listed word (middle + 1) right := by
  constructor
  · rintro ⟨i, -, hright, hword⟩
    refine ⟨i, Nat.lt_of_not_le fun hle => ?_, hright, hword⟩
    exact String.not_le.2 hgreater (entry_le_entry hle hword hentry)
  · rintro ⟨i, hmiddle, hright, hword⟩
    exact ⟨i, Nat.le_trans hleft (Nat.le_of_succ_le hmiddle), hright, hword⟩

end Halves

/-! ### The search -/

section Search

variable (word : String) {fuel left right : Nat} (hle : left ≤ right)
  (hright : right < reserved.size)
include hle hright

/-- A look falls on an entry of the stretch. -/
theorem exists_entry_middle : ∃ entry, reserved[(left + right) / 2]? = some entry := by
  have hmiddle : (left + right) / 2 < reserved.size := by omega
  exact ⟨_, Array.getElem?_eq_getElem hmiddle⟩

/-- The search ends with a look that falls on the word or on the only entry that is left. -/
theorem exists_reservedWithin_of_ends {entry : String}
    (hentry : reserved[(left + right) / 2]? = some entry) (hends : entry = word ∨ left = right) :
    ∃ found, reservedWithin word (fuel + 1) left right = some found ∧
      (found = true ↔ Listed word left right) := by
  simp only [reservedWithin, hentry]
  by_cases hword : entry = word
  · have hlisted : Listed word left right := by
      subst hword
      exact ⟨(left + right) / 2, by omega, by omega, hentry⟩
    exact ⟨true, if_pos hword, by simp [hlisted]⟩
  · obtain rfl : left = right := hends.resolve_left hword
    have hlisted : ¬ Listed word left left := by
      rintro ⟨i, hfrom, hto, hi⟩
      obtain rfl : i = (left + left) / 2 := by omega
      exact hword (Option.some.inj (hentry.symm.trans hi))
    exact ⟨false, by rw [if_neg hword, if_pos rfl], by simp [hlisted]⟩

/-- **The search in a stretch of the table** has an outcome, and it is whether the word stands
there. A stretch of at most `2 ^ fuel` entries takes at most `fuel + 1` looks. -/
theorem exists_reservedWithin (hfuel : right - left < 2 ^ fuel) :
    ∃ found, reservedWithin word (fuel + 1) left right = some found ∧
      (found = true ↔ Listed word left right) := by
  induction fuel generalizing left right with
  | zero =>
    obtain ⟨entry, hentry⟩ := exists_entry_middle hle hright
    exact exists_reservedWithin_of_ends word hle hright hentry (.inr (by omega))
  | succ fuel ih =>
    obtain ⟨entry, hentry⟩ := exists_entry_middle hle hright
    by_cases hends : entry = word ∨ left = right
    · exact exists_reservedWithin_of_ends word hle hright hentry hends
    · obtain ⟨hword, hne⟩ := not_or.1 hends
      rw [reservedWithin]
      simp only [hentry, if_neg hword, if_neg hne]
      rw [Nat.pow_succ] at hfuel
      -- the stretch has at least two entries, so that the half with the middle is shorter too
      split
      · rename_i hless
        rw [listed_lower hentry (by omega) hless]
        exact ih (by omega) (by omega) (by omega)
      · rename_i hless
        have hgreater : entry < word :=
          String.not_le.1 fun h => hword (String.le_antisymm (String.not_lt.1 hless) h)
        rw [listed_upper hentry (by omega) hgreater]
        exact ih (by omega) hright (by omega)

end Search

theorem listed_iff_mem (word : String) : Listed word 0 (reserved.size - 1) ↔ word ∈ reserved := by
  rw [Array.mem_iff_getElem?]
  constructor
  · rintro ⟨i, -, -, hi⟩
    exact ⟨i, hi⟩
  · rintro ⟨i, hi⟩
    obtain ⟨hlt, -⟩ := Array.getElem?_eq_some_iff.1 hi
    exact ⟨i, Nat.zero_le i, Nat.le_sub_one_of_lt hlt, hi⟩

/-- The search in the whole table. -/
theorem reservedWithin_size (word : String) {fuel : Nat} (hfuel : reserved.size ≤ 2 ^ fuel) :
    reservedWithin word (fuel + 1) 0 (reserved.size - 1) = some (decide (word ∈ reserved)) := by
  have hsize : 0 < reserved.size := by decide
  have hshort : reserved.size - 1 - 0 < 2 ^ fuel := by omega
  obtain ⟨found, hsearch, hfound⟩ :=
    exists_reservedWithin word (Nat.zero_le _) (Nat.sub_one_lt_of_lt hsize) hshort
  rw [hsearch, Option.some.injEq, Bool.eq_iff_iff, hfound, listed_iff_mem, decide_eq_true_iff]

/-- **The words that are found** are the reserved ones. -/
theorem isReserved_iff (word : String) : isReserved word = true ↔ word ∈ reserved := by
  have hsearch : reservedWithin word reserved.size 0 (reserved.size - 1) =
      some (decide (word ∈ reserved)) :=
    @reservedWithin_size word 17 (by decide)
  rw [isReserved, hsearch, decide_eq_true_iff, Option.some.injEq, decide_eq_true_iff]

end ScoreLang
