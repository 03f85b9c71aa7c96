import Mathlib.Tactic.Common
import ScoreLang.Proofs.Syntax.Basic
import ScoreLang.Text.Integer

/-!
# Decimal Spellings Are Read Back

A run of digits is read as the number that it spells, unless it has too many digits. An integer
that can be written is read back from its spelling; the code generator writes addresses and sizes,
and the machine reads them.

* `Numeral.value`: the number that a numeral of a program spells;
* `readInteger_numeral`: what reading a numeral gives;
* `readInteger_of_writeInteger`: what is written can be read.
-/

namespace ScoreLang

open List

/-- The number that a numeral spells. -/
def Numeral.value (number : Numeral) : Nat := Nat.ofDigitChars 10 number.digits.toList 0

namespace Text

variable {c : Char} {cs : List Char} {text : String}

theorem digitValue?_of_isDigit (h : c.isDigit = true) :
    digitValue? c = some (c.toNat - '0'.toNat) := by
  have hrange : 48 ≤ c.toNat ∧ c.toNat ≤ 57 := by
    simp only [Char.isDigit, Bool.and_eq_true, decide_eq_true_eq] at h
    exact ⟨h.1, h.2⟩
  rw [digitValue?, if_pos (by omega), if_pos h]
  rfl

/-- A run of digits is read to its end. -/
theorem digitRun_digits (hcs : ∀ c ∈ cs, c.isDigit = true) (digits : List Nat) {afterDigit : Bool}
    (hstart : afterDigit = true ∨ cs ≠ []) :
    digitRun digits afterDigit cs
      = some ((cs.map fun c => c.toNat - '0'.toNat).reverse ++ digits, []) := by
  induction cs generalizing digits afterDigit with
  | nil =>
    obtain rfl : afterDigit = true := by simpa using hstart
    simp [digitRun]
  | cons c cs ih =>
    rw [digitRun, digitValue?_of_isDigit (hcs c (by simp))]
    simp only
    rw [ih (fun d hd => hcs d (by simp [hd])) _ (.inl rfl)]
    simp

/-- The digits of a run, last one first, make up its number. -/
theorem ofDigits_reverse (cs : List Char) :
    ofDigits (cs.map fun c => c.toNat - '0'.toNat).reverse = Nat.ofDigitChars 10 cs 0 := by
  rw [ofDigits, foldr_reverse, foldl_map, Nat.ofDigitChars_eq_foldl]

theorem isBlank_of_isDigit (h : c.isDigit = true) : isBlank c = false := by
  have hrange : 48 ≤ c.toNat ∧ c.toNat ≤ 57 := by
    simp only [Char.isDigit, Bool.and_eq_true, decide_eq_true_eq] at h
    exact ⟨h.1, h.2⟩
  simp only [isBlank, Bool.or_eq_false_iff, Bool.and_eq_false_iff, decide_eq_false_iff_not,
    beq_eq_false_iff_ne]
  omega

theorem isPadding_of_isDigit (h : c.isDigit = true) : isPadding c = false := by
  rw [isPadding, isBlank_of_isDigit h, Bool.false_and]

theorem splitSign_digits (h : c.isDigit = true) :
    splitSign (c :: cs) = (false, c :: cs) := by
  have hminus : c ≠ '-' := by rintro rfl; simp at h
  have hplus : c ≠ '+' := by rintro rfl; simp at h
  unfold splitSign
  split <;> simp_all

/-- What reading a sign and a run of digits gives. -/
theorem readInteger_signed {negative : Bool}
    (hsign : splitSign (text.toList.dropWhile isPadding) = (negative, cs)) (hne : cs ≠ [])
    (hcs : ∀ c ∈ cs, c.isDigit = true) (hlength : cs.length ≤ maxDigits) :
    readInteger text = .ok (if negative then -(Nat.ofDigitChars 10 cs 0 : Int)
      else Nat.ofDigitChars 10 cs 0) := by
  rw [readInteger, hsign]
  simp only [digitRun_digits hcs [] (.inr hne), append_nil, length_reverse,
    length_map, ofDigits_reverse]
  rw [if_neg (by omega), if_pos (by simp)]

theorem dropWhile_isPadding_digits (hcs : ∀ c ∈ cs, c.isDigit = true) :
    cs.dropWhile isPadding = cs := by
  cases cs with
  | nil => rfl
  | cons c cs =>
    rw [dropWhile_cons_of_neg]
    simp [isPadding_of_isDigit (hcs c (by simp))]

/-- A run of digits has no padding and no sign. -/
theorem splitSign_text_digits (hne : text.toList ≠ [])
    (hdigits : ∀ c ∈ text.toList, c.isDigit = true) :
    splitSign (text.toList.dropWhile isPadding) = (false, text.toList) := by
  rw [dropWhile_isPadding_digits hdigits]
  obtain ⟨c, cs, hcs⟩ := exists_cons_of_ne_nil hne
  rw [hcs] at hdigits ⊢
  exact splitSign_digits (hdigits c (by simp))

/-- A run of digits is read as its number. -/
theorem readInteger_digits (hne : text.toList ≠ []) (hdigits : ∀ c ∈ text.toList, c.isDigit = true)
    (hlength : text.toList.length ≤ maxDigits) :
    readInteger text = .ok (Nat.ofDigitChars 10 text.toList 0 : Int) :=
  readInteger_signed (splitSign_text_digits hne hdigits) hne hdigits hlength

/-- A run of too many digits is not read. -/
theorem readInteger_digits_of_lt (hne : text.toList ≠ [])
    (hdigits : ∀ c ∈ text.toList, c.isDigit = true) (hlength : maxDigits < text.toList.length) :
    readInteger text = .error (.tooManyDigits text.toList.length) := by
  rw [readInteger, splitSign_text_digits hne hdigits]
  simp only [digitRun_digits hdigits [] (.inr hne), append_nil, length_reverse,
    length_map]
  rw [if_pos hlength]

/-! ### Numerals -/

/-- A numeral is read as its value, provided that it has not too many digits. -/
theorem readInteger_numeral {number : Numeral} {n : Int} :
    readInteger number.digits = .ok n ↔
      number.digits.toList.length ≤ maxDigits ∧ n = number.value := by
  rcases Nat.lt_or_ge maxDigits number.digits.toList.length with hlong | hshort
  · rw [readInteger_digits_of_lt number.digits_ne number.isDigit_of_mem hlong]
    simp only [reduceCtorEq, false_iff, not_and]
    omega
  · rw [readInteger_digits number.digits_ne number.isDigit_of_mem hshort, Except.ok.injEq]
    exact ⟨fun h => ⟨hshort, h.symm⟩, fun h => h.2.symm⟩

/-! ### Written integers -/

/-- The spelling of a natural number is a numeral. -/
def numeral (n : Nat) : Numeral where
  digits := toString n
  digits_ne := by
    rw [Nat.toString_eq_ofList_toDigits, String.toList_ofList]
    exact Nat.toDigits_ne_nil
  isDigit_of_mem := by
    rw [Nat.toString_eq_ofList_toDigits, String.toList_ofList]
    exact fun c => Nat.isDigit_of_mem_toDigits (by omega) (by omega)

theorem toList_digits_numeral (n : Nat) : (numeral n).digits.toList = Nat.toDigits 10 n := by
  change (toString n).toList = _
  rw [Nat.toString_eq_ofList_toDigits, String.toList_ofList]

@[simp] theorem value_numeral (n : Nat) : (numeral n).value = n := by
  rw [Numeral.value, toList_digits_numeral]
  exact Nat.ofDigitChars_ten_toDigits

theorem length_numeral_le_iff {n : Nat} :
    (numeral n).digits.toList.length ≤ maxDigits ↔ n < writeLimit := by
  have hpos : 0 < maxDigits := by decide
  unfold writeLimit
  rw [toList_digits_numeral]
  generalize maxDigits = most at hpos
  exact Nat.length_toDigits_le_iff (by omega) hpos

theorem one_lt_writeLimit : 1 < writeLimit := by
  have hpow : ∀ count, count ≠ 0 → 1 < Nat.pow 10 count := fun count hcount =>
    Nat.one_lt_pow hcount (by decide)
  have hlt := hpow maxDigits (by decide)
  unfold writeLimit
  exact hlt

theorem toString_negSucc (n : Nat) : toString (Int.negSucc n) = "-" ++ toString (n + 1) := rfl

/-- **What is written can be read**: an integer is read back from its spelling. -/
theorem readInteger_of_writeInteger {n : Int} (h : writeInteger n = .ok text) :
    readInteger text = .ok n := by
  unfold writeInteger at h
  split at h
  · rename_i hlimit
    obtain rfl := Except.ok.inj h
    cases n with
    | ofNat n =>
      change readInteger (numeral n).digits = _
      rw [readInteger_numeral, value_numeral]
      exact ⟨length_numeral_le_iff.2 hlimit, rfl⟩
    | negSucc n =>
      have hlength := length_numeral_le_iff.2 (show n + 1 < writeLimit from hlimit)
      have htext : (toString (Int.negSucc n)).toList = '-' :: (numeral (n + 1)).digits.toList := by
        rw [toString_negSucc, String.toList_append]
        rfl
      have hsign : splitSign ((toString (Int.negSucc n)).toList.dropWhile isPadding)
          = (true, (numeral (n + 1)).digits.toList) := by
        rw [htext, dropWhile_cons_of_neg (by decide)]
        rfl
      rw [readInteger_signed hsign (numeral (n + 1)).digits_ne (numeral (n + 1)).isDigit_of_mem
        hlength]
      have hvalue := value_numeral (n + 1)
      rw [Numeral.value] at hvalue
      rw [hvalue, if_pos rfl]
      rfl
  · simp at h

end Text

end ScoreLang
