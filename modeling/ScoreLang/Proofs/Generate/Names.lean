import ScoreLang.Proofs.Code.Context

/-!
# What the Code Generator Takes for Granted

Whether an expression gets code or the program is rejected depends on the names in it and on the
scopes. The entries must be sound (`Scopes.Sound`): a function has a label and a number of
parameters, everything else has cells whose numbers can be written, and an array knows its size. The
names must be known, and no variable may be a function (`Scopes.Covers`).
-/

namespace ScoreLang

open List Text

/-! ### Entries -/

/-- What the generator takes for granted about an entry. -/
inductive Entry.Sound (entry : Entry) : Prop where
  /-- A function has a label and a number of parameters. -/
  | function {label : String} {count : Int} : entry.category = .function →
      entry.address = .label label → entry.size = some count → Sound entry
  /-- Everything else has cells whose numbers can be written. An array knows how many. -/
  | cells {cell count : Nat} : entry.category ≠ .function →
      (entry.address = .absolute cell ∨ entry.address = .relative cell) → 0 < count →
      cell + count ≤ writeLimit → (entry.category = .array → entry.size = some (count : Int)) →
      Sound entry

/-- All entries are sound. -/
def Scopes.Sound (scopes : Scopes) : Prop :=
  ∀ scope ∈ scopes, ∀ item ∈ scope.table, item.2.Sound

theorem Scopes.Sound.find? {scopes : Scopes} (h : scopes.Sound) {name : String} {entry : Entry}
    (hfind : scopes.find? name = some entry) : entry.Sound := by
  induction scopes with
  | nil => cases hfind
  | cons scope outer ih =>
    rw [Scopes.find?] at hfind
    split at hfind
    · rename_i found hfound
      obtain rfl := Option.some.inj hfind
      rw [Scope.find?, lookup_eq_some_iff] at hfound
      obtain ⟨before, after, htable, -⟩ := hfound
      exact h scope mem_cons_self (name, found) (by simp [htable])
    · exact ih (fun scope hscope => h scope (mem_cons_of_mem _ hscope)) hfind

theorem writeInteger_of_lt {n : Nat} (h : n < writeLimit) :
    writeInteger (n : Int) = .ok (toString (n : Int)) := by
  rw [writeInteger, Int.natAbs_natCast, if_pos h]

theorem ofDigitChars_lt {cs : List Char} (h : ∀ c ∈ cs, c.isDigit = true) (n : Nat) :
    Nat.ofDigitChars 10 cs n < (n + 1) * Nat.pow 10 cs.length := by
  rw [Nat.ofDigitChars_eq_foldl]
  induction cs generalizing n with
  | nil => simp
  | cons c cs ih =>
    have hdigit : c.toNat - '0'.toNat ≤ 9 := by
      have hrange := h c mem_cons_self
      simp only [Char.isDigit, Bool.and_eq_true, decide_eq_true_eq] at hrange
      have hle : c.toNat ≤ 57 := hrange.2
      exact Nat.sub_le_of_le_add hle
    have hrest := ih (fun c hc => h c (mem_cons_of_mem _ hc)) (10 * n + (c.toNat - '0'.toNat))
    refine Nat.lt_of_lt_of_le hrest ?_
    have hpow : Nat.pow 10 (cs.length + 1) = 10 * Nat.pow 10 cs.length := Nat.pow_succ'
    rw [length_cons, hpow, ← Nat.mul_assoc]
    exact Nat.mul_le_mul_right _ (by omega)

theorem Numeral.value_lt_pow {number : Numeral} {count : Nat}
    (h : number.digits.toList.length ≤ count) : number.value < Nat.pow 10 count := by
  have hlt := ofDigitChars_lt number.isDigit_of_mem 0
  rw [Nat.zero_add, Nat.one_mul] at hlt
  exact Nat.lt_of_lt_of_le hlt (Nat.pow_le_pow_right (Nat.succ_pos 9) h)

/-- A numeral that can be read can be written. -/
theorem Numeral.value_lt {number : Numeral} (h : number.digits.toList.length ≤ maxDigits) :
    number.value < writeLimit := by
  have hlt := Numeral.value_lt_pow h
  unfold writeLimit
  exact hlt

/-- The address of an element can be written if its cell can. -/
theorem Address.exists_text?_moved? {address : Address} {cell offset : Nat}
    (haddress : address = .absolute cell ∨ address = .relative cell)
    (h : cell + offset < writeLimit) :
    ∃ moved text, address.moved? offset = some moved ∧ moved.text? = some text := by
  have hwrite := writeInteger_of_lt h
  rw [Int.natCast_add] at hwrite
  rcases haddress with rfl | rfl <;> simp [moved?, text?, hwrite, Except.toOption]

/-- The cell of a variable can be written. -/
theorem Entry.Sound.exists_text? {entry : Entry} (h : entry.Sound)
    (hcategory : entry.category ≠ .function)
    {index : Option Numeral} {place : Int} (hplace : entry.offset? index = some place) :
    ∃ moved text, entry.address.moved? place = some moved ∧ moved.text? = some text := by
  obtain ⟨hfunction, -, -⟩ | @⟨cell, count, -, haddress, hpos, hlimit, hsize⟩ := h
  · exact absurd hfunction hcategory
  suffices hle : ∃ k : Nat, k < count ∧ place = k by
    obtain ⟨k, hk, rfl⟩ := hle
    exact Address.exists_text?_moved? haddress (by omega)
  cases index with
  | none => exact ⟨0, hpos, (Option.some.inj hplace).symm⟩
  | some index =>
    rw [Entry.offset?] at hplace
    split at hplace
    · rename_i offset size hread hfound
      split at hplace
      · rename_i hrange
        obtain rfl := Option.some.inj hplace
        obtain rfl := Option.some.inj ((hsize hrange.1).symm.trans hfound)
        obtain ⟨-, rfl⟩ := readInteger_numeral.1 hread
        exact ⟨index.value, by omega, rfl⟩
      · cases hplace
    · cases hplace

/-! ### Names -/

/-- The index of a reference, if there is one, can be read. -/
def Reference.Short (target : Reference) : Prop :=
  ∀ index ∈ target.index, index.digits.toList.length ≤ maxDigits

/-- The scopes say what a name is that is used: a variable must not be a function. -/
def Use.Known (scopes : Scopes) : Use → Prop
  | .variable target =>
    target.Short ∧ ∃ entry, scopes.find? target.name = some entry ∧ entry.category ≠ .function
  | .call name => ∃ entry, scopes.find? name = some entry

/-- The scopes are sound, and the names that are used are known. -/
structure Scopes.Covers (scopes : Scopes) (uses : List Use) : Prop where
  sound : scopes.Sound
  known : ∀ use ∈ uses, use.Known scopes

namespace Scopes.Covers

variable {scopes : Scopes} {use : Use} {first second : List Use}

theorem left (h : scopes.Covers (first ++ second)) : scopes.Covers first :=
  ⟨h.sound, fun use huse => h.known use (mem_append_left _ huse)⟩

theorem right (h : scopes.Covers (first ++ second)) : scopes.Covers second :=
  ⟨h.sound, fun use huse => h.known use (mem_append_right _ huse)⟩

theorem head (h : scopes.Covers (use :: first)) : use.Known scopes :=
  h.known use mem_cons_self

theorem tail (h : scopes.Covers (use :: first)) : scopes.Covers first :=
  ⟨h.sound, fun use huse => h.known use (mem_cons_of_mem _ huse)⟩

end Scopes.Covers

end ScoreLang
