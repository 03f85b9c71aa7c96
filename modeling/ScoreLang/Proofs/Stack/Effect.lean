import ScoreLang.Proofs.Machine.Situation

/-!
# What an Operation Does to the Stack

Most operations take a fixed number of values from the stack and put a fixed number in their place,
whatever the values are, and go on with the next line. The two logical operations do not: they take
the second value only if the first one does not decide. The others are jumps, calls and returns.

This module says once and for all what an operation that has succeeded has done to the stack, to the
place in the code and to the calls that are pending. The memory and the console do not matter here.
-/

namespace ScoreLang

/-- How many values an operation takes from the stack and how many it puts in their place, if it
goes on with the next line and the numbers do not depend on the values. -/
def Operation.effect? : Operation → Option (Nat × Nat)
  | .load | .push | .input => some (0, 1)
  | .pop | .output => some (1, 0)
  | .store | .negate => some (1, 1)
  | .add | .subtract | .multiply | .divide => some (2, 1)
  | .equal | .notEqual | .greater | .less | .greaterEqual | .lessEqual => some (2, 1)
  | .allocate => some (0, 0)
  | .both | .either | .branch | .branchFalse | .leave | .call => none

namespace Machine

open Text (readInteger)

variable {code : Code} {s t : State} {operand : Option String}

/-- A state becomes another one: some values on top of the stack are replaced, and the rest of the
stack, the place in the code and the pending calls stay as they are. -/
structure Exchanges (taken given : Nat) (s t : State) : Prop where
  stack : ∃ before after rest, s.stack = before ++ rest ∧ before.length = taken ∧
    t.stack = after ++ rest ∧ after.length = given
  next : t.next = s.next
  returns : t.returns = s.returns

namespace Exchanges

/-- Nothing that matters here is changed. -/
theorem same (hstack : t.stack = s.stack) (hnext : t.next = s.next)
    (hreturns : t.returns = s.returns) : Exchanges 0 0 s t :=
  ⟨⟨[], [], s.stack, rfl, rfl, hstack, rfl⟩, hnext, hreturns⟩

theorem give {value : Value} (hstack : t.stack = value :: s.stack) (hnext : t.next = s.next)
    (hreturns : t.returns = s.returns) : Exchanges 0 1 s t :=
  ⟨⟨[], [value], s.stack, rfl, rfl, hstack, rfl⟩, hnext, hreturns⟩

theorem take {value : Value} (hstack : s.stack = value :: t.stack) (hnext : t.next = s.next)
    (hreturns : t.returns = s.returns) : Exchanges 1 0 s t :=
  ⟨⟨[value], [], t.stack, hstack, rfl, rfl, rfl⟩, hnext, hreturns⟩

theorem replace {value value' : Value} {rest : List Value} (hstack : s.stack = value :: rest)
    (hstack' : t.stack = value' :: rest) (hnext : t.next = s.next)
    (hreturns : t.returns = s.returns) : Exchanges 1 1 s t :=
  ⟨⟨[value], [value'], rest, hstack, rfl, hstack', rfl⟩, hnext, hreturns⟩

theorem combine {right left value : Value} {rest : List Value}
    (hstack : s.stack = right :: left :: rest) (hstack' : t.stack = value :: rest)
    (hnext : t.next = s.next) (hreturns : t.returns = s.returns) : Exchanges 2 1 s t :=
  ⟨⟨[right, left], [value], rest, hstack, rfl, hstack', rfl⟩, hnext, hreturns⟩

end Exchanges

/-! ### The memory -/

theorem eq_of_ends_read {number : Int} {value : Value} (h : Ends (read number) s value t) :
    t = s := by
  unfold read at h
  split at h
  · simp only [ends_bind, ends_get, ends_pure] at h
    obtain ⟨_, _, ⟨rfl, rfl⟩, -, rfl⟩ := h
    rfl
  · simp at h

theorem eq_of_ends_address {text : String} {number : Int} (h : Ends (address text) s number t) :
    t = s := by
  unfold address at h
  split at h
  · simp only [ends_bind, ends_get, ends_ofInteger, ends_pure] at h
    obtain ⟨_, _, ⟨rfl, rfl⟩, _, _, ⟨-, rfl⟩, -, rfl⟩ := h
    rfl
  · exact (ends_ofInteger.1 h).2.symm

/-- Writing changes the memory only. -/
theorem eq_of_ends_write {number : Int} {value : Value} (h : Ends (write number value) s () t) :
    ∃ cells, t = { s with cells := cells } := by
  unfold write at h
  by_cases hlarge : (memorySize : Int) ≤ number
  · simp [hlarge] at h
  · rw [if_neg hlarge] at h
    split at h
    · exact ⟨_, ends_modify.1 h⟩
    · simp at h

/-! ### Operations with an effect -/

theorem arithmetic_exchanges {combine : Value → Value → Except ValueFault Value}
    (h : Ends (arithmetic combine) s () t) : Exchanges 2 1 s t := by
  simp only [arithmetic, ends_bind, ends_pop, ends_top, ends_ofValue, ends_replaceTop] at h
  obtain ⟨right, _, ⟨rest, hright, rfl⟩, left, _, ⟨⟨rest', hleft⟩, rfl⟩, value, _, ⟨-, rfl⟩,
    rfl⟩ := h
  obtain rfl : rest = left :: rest' := hleft
  exact .combine hright rfl rfl rfl

theorem comparison_exchanges {compare : Value → Value → Bool}
    (h : Ends (comparison compare) s () t) : Exchanges 2 1 s t := by
  simp only [comparison, ends_bind, ends_pop, ends_pushFlag] at h
  obtain ⟨upper, _, ⟨rest, hupper, rfl⟩, lower, _, ⟨rest', hlower, rfl⟩, rfl⟩ := h
  obtain rfl : rest = lower :: rest' := hlower
  exact .combine hupper rfl rfl rfl

theorem input_exchanges (h : Ends input s () t) : Exchanges 0 1 s t := by
  simp only [input, ends_bind, ends_report, ends_get, exists_unit] at h
  obtain ⟨_, rfl, _, _, ⟨rfl, rfl⟩, h⟩ := h
  split at h
  · simp only [accept, ends_bind, ends_modify, ends_ofInteger, ends_push, exists_unit] at h
    obtain ⟨_, rfl, n, _, ⟨-, rfl⟩, rfl⟩ := h
    exact .give rfl rfl rfl
  · simp at h

theorem allocate_exchanges {size : String} (h : Ends (allocate size) s () t) :
    Exchanges 0 0 s t := by
  simp only [allocate, ends_bind, ends_get] at h
  obtain ⟨_, _, ⟨rfl, rfl⟩, h⟩ := h
  split at h
  · simp only [ends_bind, ends_ofInteger, ends_modify] at h
    obtain ⟨_, _, ⟨-, rfl⟩, rfl⟩ := h
    exact .same rfl rfl rfl
  · simp only [ends_bind, ends_get] at h
    obtain ⟨_, _, ⟨rfl, rfl⟩, h⟩ := h
    split at h
    · simp at h
    · simp only [ends_bind, ends_ofInteger, ends_modify, exists_unit] at h
      obtain ⟨_, rfl, _, _, ⟨-, rfl⟩, rfl⟩ := h
      exact .same rfl rfl rfl

/-- **An operation with an effect** takes and gives as many values as its effect says, and leaves
the rest of the stack alone. -/
theorem perform_exchanges {operation : Operation} {taken given : Nat}
    (heffect : operation.effect? = some (taken, given))
    (h : Ends (perform code operation operand) s () t) : Exchanges taken given s t := by
  cases operation <;> simp only [Operation.effect?, Option.some.injEq, Prod.mk.injEq,
    reduceCtorEq] at heffect <;> obtain ⟨rfl, rfl⟩ := heffect
  case store =>
    simp only [perform, ends_bind, ends_needed, ends_top] at h
    obtain ⟨text, _, ⟨-, rfl⟩, number, _, haddress, value, _, ⟨⟨rest, hstack⟩, rfl⟩, hwrite⟩ := h
    obtain rfl := eq_of_ends_address haddress
    obtain ⟨cells, rfl⟩ := eq_of_ends_write hwrite
    exact .replace hstack hstack rfl rfl
  case load =>
    simp only [perform, ends_bind, ends_needed, ends_ofValue, ends_push] at h
    obtain ⟨text, _, ⟨-, rfl⟩, number, _, haddress, value, _, hread, n, _, ⟨-, rfl⟩, rfl⟩ := h
    obtain rfl := eq_of_ends_address haddress
    obtain rfl := eq_of_ends_read hread
    exact .give rfl rfl rfl
  case push =>
    simp only [perform, ends_bind, ends_needed, ends_ofInteger, ends_push] at h
    obtain ⟨text, _, ⟨-, rfl⟩, n, _, ⟨-, rfl⟩, rfl⟩ := h
    exact .give rfl rfl rfl
  case pop =>
    simp only [perform, ends_bind, ends_pop, ends_pure] at h
    obtain ⟨value, _, ⟨rest, hstack, rfl⟩, -, rfl⟩ := h
    exact .take hstack rfl rfl
  case input => exact input_exchanges h
  case output =>
    simp only [perform, ends_bind, ends_pop, ends_ofInteger, ends_report] at h
    obtain ⟨value, _, ⟨rest, hstack, rfl⟩, text, _, ⟨-, rfl⟩, rfl⟩ := h
    exact .take hstack rfl rfl
  case add => exact arithmetic_exchanges h
  case subtract => exact arithmetic_exchanges h
  case multiply => exact arithmetic_exchanges h
  case divide =>
    simp only [perform, ends_bind, ends_pop] at h
    obtain ⟨right, _, ⟨rest, hright, rfl⟩, h⟩ := h
    split at h
    · simp at h
    · simp only [ends_bind, ends_top, ends_ofValue, ends_replaceTop] at h
      obtain ⟨left, _, ⟨⟨rest', hleft⟩, rfl⟩, value, _, ⟨-, rfl⟩, rfl⟩ := h
      obtain rfl : rest = left :: rest' := hleft
      exact .combine hright rfl rfl rfl
  case equal => exact comparison_exchanges h
  case notEqual => exact comparison_exchanges h
  case greater => exact comparison_exchanges h
  case less => exact comparison_exchanges h
  case greaterEqual => exact comparison_exchanges h
  case lessEqual => exact comparison_exchanges h
  case negate =>
    simp only [perform, ends_bind, ends_pop, ends_pushFlag] at h
    obtain ⟨value, _, ⟨rest, hstack, rfl⟩, rfl⟩ := h
    exact .replace hstack rfl rfl rfl
  case allocate =>
    simp only [perform, ends_bind, ends_needed] at h
    obtain ⟨text, _, ⟨-, rfl⟩, h⟩ := h
    exact allocate_exchanges h

/-! ### Logical operations -/

/-- If the upper value is zero, it decides, and the lower one stays where it is. -/
theorem ends_perform_both {upper lower : Value} {rest : List Value}
    (hstack : s.stack = upper :: lower :: rest) :
    Ends (perform code .both operand) s () t ↔ t = { s with
      stack := .integer (flag (!lower.isZero && !upper.isZero)) ::
        if upper.isZero then lower :: rest else rest } := by
  cases hupper : upper.isZero <;> simp [perform, hstack, hupper, flag]

/-- If the upper value is not zero, it decides, and the lower one stays where it is. -/
theorem ends_perform_either {upper lower : Value} {rest : List Value}
    (hstack : s.stack = upper :: lower :: rest) :
    Ends (perform code .either operand) s () t ↔ t = { s with
      stack := .integer (flag (!lower.isZero || !upper.isZero)) ::
        if upper.isZero then rest else lower :: rest } := by
  cases hupper : upper.isZero <;> simp [perform, hstack, hupper, flag]

/-! ### Calls -/

theorem ends_perform_call : Ends (perform code .call operand) s () t ↔
    ∃ label, operand = some label ∧ t = { s with
      returns := s.next.toList.map (· - 1) ++ s.returns
      next := (code.find? label).map (· + 1) } := by
  simp only [perform, ends_bind, ends_modify, ends_needed, ends_jump, exists_unit]
  constructor
  · rintro ⟨_, rfl, label, _, ⟨rfl, rfl⟩, rfl⟩
    exact ⟨label, rfl, rfl⟩
  · rintro ⟨label, rfl, rfl⟩
    exact ⟨_, rfl, label, _, ⟨rfl, rfl⟩, rfl⟩

/-- A function opens its frame at the end of the innermost one, unless no frame is open. -/
theorem ends_perform_allocate {text : String} {limit : Int} {below : List Int} (hbase : s.base ≠ 0)
    (hframes : s.frames = limit :: below) :
    Ends (perform code .allocate (some text)) s () t ↔ ∃ size, readInteger text = .ok size ∧
      t = { s with base := limit, frames := (limit + size) :: limit :: below } := by
  simp only [perform, allocate, ends_bind, ends_needed, ends_get]
  constructor
  · rintro ⟨_, _, ⟨⟨⟩, rfl⟩, _, _, ⟨rfl, rfl⟩, h⟩
    rw [if_neg hbase] at h
    simp only [ends_bind, ends_get] at h
    obtain ⟨_, _, ⟨rfl, rfl⟩, h⟩ := h
    rw [hframes] at h
    simp only [ends_bind, ends_ofInteger, ends_modify, exists_unit] at h
    obtain ⟨_, rfl, size, _, ⟨hsize, rfl⟩, rfl⟩ := h
    exact ⟨size, hsize, by simp [hframes]⟩
  · rintro ⟨size, hsize, rfl⟩
    refine ⟨text, s, ⟨rfl, rfl⟩, s, s, ⟨rfl, rfl⟩, ?_⟩
    rw [if_neg hbase]
    simp [hframes, hsize]

/-- A function hands over its result, which is in the first cell of its frame, closes the frame and
goes on after the call. -/
theorem ends_perform_leave : Ends (perform code .leave operand) s () t ↔
    ∃ cell limit below place returns, cell? s.base = some cell ∧ s.frames = limit :: below ∧
      s.returns = place :: returns ∧ t = { s with
        stack := s.cells.get cell :: s.stack
        frames := below
        base := baseOf below
        returns := returns
        next := some (place + 1) } := by
  simp only [perform, leave, ends_bind, ends_get, ends_push, exists_unit]
  constructor
  · rintro ⟨_, _, ⟨rfl, rfl⟩, value, _, hread, _, rfl, _, _, ⟨rfl, rfl⟩, h⟩
    unfold read at hread
    split at hread
    · rename_i cell hcell
      simp only [ends_bind, ends_get, ends_pure] at hread
      obtain ⟨_, _, ⟨rfl, rfl⟩, rfl, rfl⟩ := hread
      split at h
      · simp at h
      · rename_i limit below hframes
        simp only [ends_bind, ends_get, ends_modify, exists_unit] at h
        obtain ⟨_, rfl, _, _, ⟨rfl, rfl⟩, h⟩ := h
        split at h
        · simp at h
        · rename_i place returns hreturns
          obtain rfl := ends_modify.1 h
          exact ⟨cell, limit, below, place, returns, hcell, hframes, hreturns, rfl⟩
    · simp at hread
  · rintro ⟨cell, limit, below, place, returns, hcell, hframes, hreturns, rfl⟩
    refine ⟨s, s, ⟨rfl, rfl⟩, s.cells.get cell, s, ?_, _, rfl, _, _, ⟨rfl, rfl⟩, ?_⟩
    · simp [read, hcell]
    · simp [hframes, hreturns]

end Machine

end ScoreLang
