import ScoreLang.Proofs.Stack.Effect

/-!
# Leaving the Memory

Three operations reach into the memory: one stores a value, one loads a value, and one leaves a
function and takes its result from the base of the frame. Only the first one looks whether its cell
is in the memory, and complains if it lies beyond. The other two fail without a complaint. Opening
a frame is not such an operation: a frame may end beyond the memory, and the machine goes on.

A fault of the memory ends a run, so it is the last command of the run that decides.

## Main results

* `fails_perform_iff`: which operations leave the memory;
* `fails_stepAction_iff`: which steps do;
* `runFrom_tells`: in a run, the last command tells whether there was a fault of the memory;
* `run_fault_iff`: when a run ends with a complaint about the memory, and when it ends without one.
-/

namespace ScoreLang.Machine

open List Text

variable {α β : Type} {code : Code} {s t : State} {fault : Fault} {operand : Option String}

/-! ### Failures -/

/-- The action fails in the given way. -/
def Fails (action : Action α) (s : State) (fault : Fault) : Prop :=
  ∃ t, outcome action s = (.error fault, t)

/-- What fails does not end. -/
theorem Fails.not_ends {action : Action α} {a : α} (h : Fails action s fault) :
    ¬Ends action s a t := by
  obtain ⟨u, hfail⟩ := h
  intro hends
  simpa using hends.symm.trans hfail

@[simp] theorem fails_pure {a : α} : Fails (pure a) s fault ↔ False :=
  ⟨fun h => h.not_ends (ends_pure.2 ⟨rfl, rfl⟩), False.elim⟩

@[simp] theorem fails_get : Fails get s fault ↔ False :=
  ⟨fun h => h.not_ends (ends_get.2 ⟨rfl, rfl⟩), False.elim⟩

@[simp] theorem fails_modify {change : State → State} : Fails (modify change) s fault ↔ False :=
  ⟨fun h => h.not_ends (a := ()) (ends_modify.2 rfl), False.elim⟩

@[simp] theorem fails_throw {reason : Fault} :
    Fails (throw reason : Action α) s fault ↔ fault = reason := by
  constructor
  · rintro ⟨t, h⟩
    have hthrow : ((.error reason, s) : Except Fault α × State) = (.error fault, t) := h
    exact (Except.error.inj (Prod.mk.inj hthrow).1).symm
  · rintro rfl
    exact ⟨s, rfl⟩

/-- An action fails in its first part or in the rest. -/
@[simp] theorem fails_bind {action : Action α} {next : α → Action β} :
    Fails (action >>= next) s fault ↔
      Fails action s fault ∨ ∃ a t, Ends action s a t ∧ Fails (next a) t fault := by
  rcases hout : outcome action s with ⟨reason | a, t⟩
  · simp [Fails, Ends, hout, outcome_bind_of_error hout]
  · simp only [Fails, Ends, hout, outcome_bind_of_ok hout, Prod.mk.injEq, reduceCtorEq, false_and,
      exists_false, false_or, Except.ok.injEq]
    constructor
    · intro h
      exact ⟨a, t, ⟨rfl, rfl⟩, h⟩
    · rintro ⟨_, _, ⟨rfl, rfl⟩, h⟩
      exact h

/-! ### Actions that do not leave the memory -/

/-- The fault is that of an operation that leaves the memory. -/
def Fault.ofMemory : Fault → Bool
  | .overflow | .noCell => true
  | _ => false

/-- The action does not leave the memory. -/
structure Spares (action : Action α) : Prop where
  not_ofMemory : ∀ {s : State} {fault : Fault}, Fails action s fault → fault.ofMemory = false

namespace Spares

/-- An action that spares the memory has no fault of the memory. -/
theorem not_fails {action : Action α} (h : Spares action) (hfault : fault.ofMemory = true) :
    ¬Fails action s fault :=
  fun hfails => Bool.noConfusion (hfault.symm.trans (h.not_ofMemory hfails))

theorem pure {a : α} : Spares (Pure.pure a) where
  not_ofMemory h := (fails_pure.1 h).elim

theorem get : Spares (MonadState.get : Action State) where
  not_ofMemory h := (fails_get.1 h).elim

theorem modify {change : State → State} : Spares (modify change : Action Unit) where
  not_ofMemory h := (fails_modify.1 h).elim

theorem throw (h : fault.ofMemory = false) : Spares (MonadExcept.throw fault : Action α) where
  not_ofMemory hfails := fails_throw.1 hfails ▸ h

/-- One sparing action after another. -/
theorem bind {action : Action α} {next : α → Action β} (h : Spares action)
    (hnext : ∀ a, Spares (next a)) : Spares (action >>= next) where
  not_ofMemory hfails := by
    rcases fails_bind.1 hfails with hfirst | ⟨a, t, -, hrest⟩
    · exact h.not_ofMemory hfirst
    · exact (hnext a).not_ofMemory hrest

theorem ite {p : Prop} [Decidable p] {action other : Action α} (h : Spares action)
    (hother : Spares other) : Spares (if p then action else other) := by
  split
  · exact h
  · exact hother

/-- A missing operand is not a fault of the memory. -/
theorem needed : Spares (needed operand) := by
  cases operand with
  | none => exact throw rfl
  | some text => exact pure

theorem ofInteger {result : Except IntegerFault α} : Spares (ofInteger result) := by
  cases result with
  | error fault => exact throw rfl
  | ok value => exact pure

theorem ofValue {result : Except ValueFault α} : Spares (ofValue result) := by
  cases result with
  | error fault => exact throw rfl
  | ok value => exact pure

/-- Nor is an empty stack. -/
theorem top : Spares top := by
  refine .bind get fun state => ?_
  split
  · exact pure
  · exact throw rfl

theorem pop : Spares pop := by
  refine .bind get fun state => ?_
  split
  · exact .bind modify fun _ => pure
  · exact throw rfl

/-- Nor is an address that cannot be read. -/
theorem address {text : String} : Spares (address text) := by
  unfold Machine.address
  split
  · exact .bind get fun _ => .bind ofInteger fun _ => pure
  · exact ofInteger

theorem push {value : Value} : Spares (push value) := modify

theorem arithmetic {combine : Value → Value → Except ValueFault Value} :
    Spares (arithmetic combine) :=
  .bind pop fun _ => .bind top fun _ => .bind ofValue fun _ => modify

theorem comparison {compare : Value → Value → Bool} : Spares (comparison compare) :=
  .bind pop fun _ => .bind pop fun _ => modify

/-- Nor is the end of the input. -/
theorem input : Spares input := by
  refine .bind modify fun _ => .bind get fun state => ?_
  split
  · exact .bind modify fun _ => .bind ofInteger fun _ => modify
  · exact throw rfl

/-- Opening a frame does not leave the memory, wherever the frame ends. -/
theorem allocate {size : String} : Spares (allocate size) := by
  refine .bind get fun state => .ite (.bind ofInteger fun _ => modify) ?_
  refine .bind get fun state => ?_
  split
  · exact throw rfl
  · exact .bind modify fun _ => .bind ofInteger fun _ => modify

/-- Nor is the end of the code. -/
theorem fetch : Spares (fetch code) := by
  refine .bind get fun state => ?_
  split
  · exact throw rfl
  · refine .bind modify fun _ => ?_
    split
    · exact pure
    · exact throw rfl

end Spares

/-! ### Cells -/

/-- A number names a cell if it is in the memory, or if it counts a cell from its end. -/
theorem cell?_eq_none_iff {number : Int} :
    cell? number = none ↔ number < -memorySize ∨ memorySize ≤ number := by
  simp only [cell?, memorySize]
  split <;> split <;> simp <;> omega

/-- Reading fails exactly if there is no such cell. -/
theorem fails_read {number : Int} :
    Fails (read number) s fault ↔ cell? number = none ∧ fault = .noCell := by
  unfold read
  split
  · rename_i cell hcell
    simp only [fails_bind, fails_get, fails_pure, and_false, exists_false, or_false, hcell,
      reduceCtorEq, false_and]
  · rename_i hcell
    simp only [fails_throw, hcell, true_and]

/-- Writing fails exactly if the cell is not in the memory. -/
theorem fails_write {number : Int} {value : Value} : Fails (write number value) s fault ↔
    memorySize ≤ number ∧ fault = .overflow ∨ number < -memorySize ∧ fault = .noCell := by
  unfold write
  by_cases hbeyond : (memorySize : Int) ≤ number
  · have hnot : ¬number < -(memorySize : Int) := by omega
    rw [if_pos hbeyond]
    simp only [fails_bind, fails_throw, ends_throw, false_and, exists_false, or_false,
      hbeyond, hnot, true_and]
  · rw [if_neg hbeyond]
    simp only [hbeyond, false_and, false_or]
    have hcell : cell? number = none ↔ number < -(memorySize : Int) :=
      cell?_eq_none_iff.trans (or_iff_left hbeyond)
    rw [← hcell]
    split
    · rename_i cell hfound
      simp only [fails_modify, hfound, reduceCtorEq, false_and]
    · rename_i hnone
      simp only [fails_throw, hnone, true_and]

/-- The number of the cell that an operand names, if the active frame begins at the base. -/
def number? (base : Int) (operand : String) : Option Int :=
  if operand.toList.head? = some ':' then
    (readInteger (String.ofList operand.toList.tail)).toOption.map (base + ·)
  else (readInteger operand).toOption

/-- The address of an operand is its number. -/
theorem ends_address_iff {text : String} {number : Int} :
    Ends (address text) s number t ↔ number? s.base text = some number ∧ s = t := by
  unfold address
  split
  · rename_i digits hdigits
    rw [number?, hdigits, if_pos (List.head?_cons ..), tail_cons]
    simp only [ends_bind, ends_get, ends_ofInteger, ends_pure, Option.map_eq_some_iff,
      toOption_eq_some]
    constructor
    · rintro ⟨_, _, ⟨rfl, rfl⟩, offset, _, ⟨hread, rfl⟩, rfl, rfl⟩
      exact ⟨⟨offset, hread, rfl⟩, rfl⟩
    · rintro ⟨⟨offset, hread, rfl⟩, rfl⟩
      exact ⟨s, s, ⟨rfl, rfl⟩, offset, s, ⟨hread, rfl⟩, rfl, rfl⟩
  · rename_i hnot
    have hhead : text.toList.head? ≠ some ':' := fun hhead => by
      obtain ⟨digits, hdigits⟩ := List.head?_eq_some_iff.1 hhead
      exact hnot digits hdigits
    rw [number?, if_neg hhead, ends_ofInteger, toOption_eq_some]

/-! ### Operations -/

/-- The operations that reach into the memory. -/
def reaches : Operation → Bool
  | .store | .load | .leave => true
  | _ => false

/-- **All other operations leave the memory alone.** -/
theorem spares_perform {operation : Operation} (h : reaches operation = false) :
    Spares (perform code operation operand) := by
  cases operation with
  | store | load | leave => exact Bool.noConfusion h
  | branch => exact .bind .needed fun _ => .modify
  | branchFalse => exact .bind .pop fun _ => .ite (.bind .needed fun _ => .modify) .pure
  | push => exact .bind .needed fun _ => .bind .ofInteger fun _ => .modify
  | pop => exact .bind .pop fun _ => .pure
  | input => exact .input
  | output => exact .bind .pop fun _ => .bind .ofInteger fun _ => .modify
  | add | subtract | multiply => exact .arithmetic
  | divide =>
    exact .bind .pop fun _ => .ite (.bind (.throw rfl) fun _ => .bind .top fun _ =>
      .bind .ofValue fun _ => .modify) (.bind .top fun _ => .bind .ofValue fun _ => .modify)
  | equal | notEqual | greater | less | greaterEqual | lessEqual => exact .comparison
  | both => exact .bind .pop fun _ => .ite .modify (.bind .pop fun _ => .modify)
  | either => exact .bind .pop fun _ => .ite (.bind .pop fun _ => .modify) .modify
  | negate => exact .bind .pop fun _ => .modify
  | allocate => exact .bind .needed fun _ => .allocate
  | call => exact .bind .modify fun _ => .bind .needed fun _ => .modify

/-- When a store leaves the memory. -/
theorem fails_store (hfault : fault.ofMemory = true) : Fails (perform code .store operand) s fault ↔
    ∃ number, (∃ text value rest, operand = some text ∧ s.stack = value :: rest ∧
      number? s.base text = some number) ∧
      (memorySize ≤ number ∧ fault = .overflow ∨ number < -memorySize ∧ fault = .noCell) := by
  simp only [perform, fails_bind, ends_needed, ends_address_iff, ends_top, fails_write,
    Spares.needed.not_fails hfault, Spares.address.not_fails hfault, Spares.top.not_fails hfault,
    false_or]
  constructor
  · rintro ⟨text, _, ⟨rfl, rfl⟩, number, _, ⟨hnumber, rfl⟩, value, _, ⟨⟨rest, hvalue⟩, rfl⟩, hcell⟩
    exact ⟨number, ⟨text, value, rest, rfl, hvalue, hnumber⟩, hcell⟩
  · rintro ⟨number, ⟨text, value, rest, rfl, hvalue, hnumber⟩, hcell⟩
    exact ⟨text, s, ⟨rfl, rfl⟩, number, s, ⟨hnumber, rfl⟩, value, s, ⟨⟨rest, hvalue⟩, rfl⟩, hcell⟩

/-- When a load does. -/
theorem fails_load (hfault : fault.ofMemory = true) : Fails (perform code .load operand) s fault ↔
    ∃ number, (∃ text, operand = some text ∧ number? s.base text = some number) ∧
      (number < -memorySize ∨ memorySize ≤ number) ∧ fault = .noCell := by
  simp only [perform, fails_bind, ends_needed, ends_address_iff, fails_read, cell?_eq_none_iff,
    Spares.needed.not_fails hfault, Spares.address.not_fails hfault,
    Spares.ofValue.not_fails hfault, Spares.push.not_fails hfault, and_false, exists_false,
      or_false,
    false_or]
  constructor
  · rintro ⟨text, _, ⟨rfl, rfl⟩, number, _, ⟨hnumber, rfl⟩, hcell⟩
    exact ⟨number, ⟨text, rfl, hnumber⟩, hcell⟩
  · rintro ⟨number, ⟨text, rfl, hnumber⟩, hcell⟩
    exact ⟨text, s, ⟨rfl, rfl⟩, number, s, ⟨hnumber, rfl⟩, hcell⟩

/-- When a return does. -/
theorem fails_leave (hfault : fault.ofMemory = true) : Fails (perform code .leave operand) s fault ↔
    (s.base < -memorySize ∨ memorySize ≤ s.base) ∧ fault = .noCell := by
  rw [perform, leave, fails_bind]
  simp only [fails_get, ends_get, false_or]
  constructor
  · rintro ⟨_, _, ⟨rfl, rfl⟩, hfails⟩
    rcases fails_bind.1 hfails with hread | ⟨value, t, -, hrest⟩
    · rwa [fails_read, cell?_eq_none_iff] at hread
    · refine absurd hrest (Spares.not_fails (.bind .push fun _ => .bind .get fun _ => ?_) hfault)
      split
      · exact .throw rfl
      · refine .bind .modify fun _ => .bind .get fun _ => ?_
        split
        · exact .throw rfl
        · exact .modify
  · intro hcell
    exact ⟨s, s, ⟨rfl, rfl⟩, fails_bind.2 (.inl (by rwa [fails_read, cell?_eq_none_iff]))⟩

/-! ### Commands -/

/-- The cell in which a command stores a value. -/
def Moment.stores? (moment : Moment) : Option Int :=
  match Instruction.ofWords moment.words, moment.stack with
  | .perform .store (some operand), _ :: _ => number? moment.base operand
  | _, _ => none

/-- The cell from which a command takes a value: the one that it names, or the first one of the
frame that it leaves. -/
def Moment.loads? (moment : Moment) : Option Int :=
  match Instruction.ofWords moment.words with
  | .perform .load (some operand) => number? moment.base operand
  | .perform .leave _ => some moment.base
  | _ => none

/-- What goes wrong with the memory in a command. -/
inductive Moment.Breaks (moment : Moment) : Fault → Prop where
  /-- A value is stored beyond the memory. -/
  | overflow {number : Int} :
      moment.stores? = some number → memorySize ≤ number → moment.Breaks .overflow
  /-- A value is stored before the memory. -/
  | before {number : Int} :
      moment.stores? = some number → number < -memorySize → moment.Breaks .noCell
  /-- A value is taken from a cell that is not there. -/
  | missing {number : Int} : moment.loads? = some number →
      (number < -memorySize ∨ memorySize ≤ number) → moment.Breaks .noCell

theorem Moment.Breaks.ofMemory {moment : Moment} (h : moment.Breaks fault) :
    fault.ofMemory = true := by
  cases h <;> rfl

section Commands

variable {moment : Moment} {operation : Operation} {number : Int}

/-- The commands that store a value. -/
theorem stores?_eq_some_iff : moment.stores? = some number ↔ ∃ text value rest,
    Instruction.ofWords moment.words = .perform .store (some text) ∧ moment.stack = value :: rest ∧
      number? moment.base text = some number := by
  unfold Moment.stores?
  split
  · rename_i text value rest hwords hstack
    simp [hwords, hstack]
  · rename_i hother
    simp only [reduceCtorEq, false_iff]
    rintro ⟨text, value, rest, hwords, hstack, -⟩
    exact hother text value rest hwords hstack

/-- The commands that take a value from a cell. -/
theorem loads?_eq_some_iff : moment.loads? = some number ↔
    (∃ text, Instruction.ofWords moment.words = .perform .load (some text) ∧
      number? moment.base text = some number) ∨
    ∃ operand, Instruction.ofWords moment.words = .perform .leave operand ∧
      number = moment.base := by
  unfold Moment.loads?
  split
  · rename_i text hwords
    simp [hwords]
  · rename_i operand hwords
    simp [hwords, eq_comm]
  · rename_i hload hleave
    simp only [reduceCtorEq, false_iff]
    rintro (⟨text, hwords, -⟩ | ⟨operand, hwords, -⟩)
    · exact hload text hwords
    · exact hleave operand hwords

/-- What can go wrong with a cell in which a value is stored, and with one from which it is
taken. -/
theorem breaks_iff : moment.Breaks fault ↔
    (∃ number, moment.stores? = some number ∧
      (memorySize ≤ number ∧ fault = .overflow ∨ number < -memorySize ∧ fault = .noCell)) ∨
    ∃ number, moment.loads? = some number ∧
      (number < -memorySize ∨ memorySize ≤ number) ∧ fault = .noCell := by
  constructor
  · intro h
    cases h with
    | overflow hnumber hcell => exact .inl ⟨_, hnumber, .inl ⟨hcell, rfl⟩⟩
    | before hnumber hcell => exact .inl ⟨_, hnumber, .inr ⟨hcell, rfl⟩⟩
    | missing hnumber hcell => exact .inr ⟨_, hnumber, hcell, rfl⟩
  · rintro (⟨number, hnumber, ⟨hcell, rfl⟩ | ⟨hcell, rfl⟩⟩ | ⟨number, hnumber, hcell, rfl⟩)
    · exact .overflow hnumber hcell
    · exact .before hnumber hcell
    · exact .missing hnumber hcell

/-- **An operation fails with a fault of the memory exactly if its cell is not there.** -/
theorem fails_perform_iff (hwords : Instruction.ofWords moment.words = .perform operation operand)
    (hstack : moment.stack = s.stack) (hbase : moment.base = s.base)
    (hfault : fault.ofMemory = true) :
    Fails (perform code operation operand) s fault ↔ moment.Breaks fault := by
  rw [breaks_iff]
  by_cases hreaches : reaches operation = false
  · -- the operation has no cell
    have hstores : moment.stores? = none := by
      cases operation <;> simp_all [Moment.stores?, reaches]
    have hloads : moment.loads? = none := by
      cases operation <;> simp_all [Moment.loads?, reaches]
    simp [hstores, hloads, (spares_perform hreaches).not_fails hfault]
  cases operation with
  | store =>
    have hloads : moment.loads? = none := by simp [Moment.loads?, hwords]
    simp [fails_store hfault, hloads, stores?_eq_some_iff, hwords, hstack, hbase]
  | load =>
    have hstores : moment.stores? = none := by simp [Moment.stores?, hwords]
    simp [fails_load hfault, hstores, loads?_eq_some_iff, hwords, hbase]
  | leave =>
    have hstores : moment.stores? = none := by simp [Moment.stores?, hwords]
    simp [fails_leave hfault, hstores, loads?_eq_some_iff, hwords, hbase]
  | _ => exact absurd rfl hreaches

/-- What is not an operation does not leave the memory. -/
theorem not_breaks (h : ∀ operation operand,
    Instruction.ofWords moment.words ≠ .perform operation operand) : ¬moment.Breaks fault := by
  simp only [breaks_iff, stores?_eq_some_iff, loads?_eq_some_iff, h, false_and, exists_false,
    or_false, not_false_eq_true]

/-- **A step fails with a fault of the memory exactly if its command breaks it.** -/
theorem fails_stepAction_iff (hfault : fault.ofMemory = true) :
    Fails (stepAction code) s fault ↔ ∃ moment ∈ moment? code s, moment.Breaks fault := by
  rcases hfetch : outcome (fetch code) s with ⟨reason | words, t⟩
  · -- there is no command
    have hnone : moment? code s = none := by
      unfold moment?
      rw [show (fetch code).run.run s = _ from hfetch]
    have hends : ∀ words t, ¬Ends (fetch code) s words t := fun words t => Fails.not_ends ⟨_,
      hfetch⟩
    simp [stepAction, hends, hnone, Spares.fetch.not_fails hfault]
  · have hsome : moment? code s = some ⟨(t.next.getD 1) - 1, words, s.stack, s.base⟩ := by
      unfold moment?
      rw [show (fetch code).run.run s = _ from hfetch]
    obtain ⟨place, -, -, rfl⟩ := ends_fetch.1 (show Ends (fetch code) s words t from hfetch)
    rw [hsome, stepAction, Fails, outcome_bind_of_ok hfetch]
    simp only [Option.mem_some_iff, exists_eq_left']
    split
    · rename_i hwords
      exact iff_of_false (Spares.not_fails (.throw rfl) hfault) (not_breaks (by simp [hwords]))
    · rename_i hwords
      exact iff_of_false (Spares.not_fails (.bind .modify fun _ => .pure) hfault)
        (not_breaks (by simp [hwords]))
    · rename_i hwords
      exact iff_of_false (Spares.not_fails (.throw rfl) hfault) (not_breaks (by simp [hwords]))
    · rename_i operation operand hwords
      refine (fails_bind.trans (or_iff_left ?_)).trans (fails_perform_iff hwords rfl rfl hfault)
      rintro ⟨_, _, -, hpure⟩
      exact fails_pure.1 hpure

end Commands

/-! ### Runs -/

/-- What the commands of a run tell about its end: all but the last one have left the memory in
order, and the last one tells whether the run has ended with a fault of the memory. -/
structure Tells (moments : List Moment) (result : Option Fault) : Prop where
  /-- The memory is in order up to the last command. -/
  before : ∀ moment ∈ moments.dropLast, ∀ fault, ¬moment.Breaks fault
  /-- The last command decides. -/
  last : ∀ fault, fault.ofMemory = true →
    (result = some fault ↔ ∃ moment ∈ moments.getLast?, moment.Breaks fault)

/-- One more command at the beginning. -/
theorem Tells.cons {moment : Moment} {moments : List Moment} {result : Option Fault}
    (h : Tells moments result) (hmoment : ∀ fault, ¬moment.Breaks fault) :
    Tells (moment :: moments) result := by
  cases moments with
  | nil =>
    refine ⟨by simp, fun fault hfault => ?_⟩
    rw [h.last fault hfault]
    simp [hmoment]
  | cons next moments =>
    refine ⟨?_, fun fault hfault => ?_⟩
    · intro other hmem
      rcases mem_cons.1 hmem with rfl | hmem
      · exact hmoment
      · exact h.before other hmem
    · rw [h.last fault hfault, List.getLast?_cons_cons]

/-- A run that ends with its first step. -/
theorem Tells.of_step {moment : Option Moment} {result : Option Fault}
    (h : ∀ fault, fault.ofMemory = true →
      (result = some fault ↔ ∃ found ∈ moment, found.Breaks fault)) :
    Tells moment.toList result := by
  cases moment with
  | none => exact ⟨by simp, h⟩
  | some moment => exact ⟨by simp, h⟩

/-- **The last command of a run decides**, wherever the run begins. -/
theorem runFrom_tells (code : Code) (budget : Nat) (s : State) (past : List Moment) :
    ∃ moments, (runFrom code budget s past).moments = past.reverse ++ moments ∧
      Tells moments (runFrom code budget s past).fault := by
  induction budget generalizing s past with
  | zero =>
    refine ⟨[], by simp [runFrom], by simp, fun fault hfault => ?_⟩
    simp only [runFrom, Option.some.injEq, List.getLast?_nil, Option.mem_def, reduceCtorEq,
      false_and, exists_false, iff_false]
    rintro rfl
    exact Bool.noConfusion hfault
  | succ budget ih =>
    have hpast : ((moment? code s).toList ++ past).reverse
        = past.reverse ++ (moment? code s).toList := by
      cases moment? code s <;> simp
    rcases hstep : step code s with ⟨reason | ended, t⟩
    · -- the machine fails
      refine ⟨(moment? code s).toList, by simp only [runFrom, hstep, hpast], ?_⟩
      simp only [runFrom, hstep]
      refine .of_step fun fault hfault => ?_
      rw [← fails_stepAction_iff hfault, Option.some.injEq]
      constructor
      · rintro rfl
        exact ⟨t, hstep⟩
      · rintro ⟨_, hfails⟩
        exact Except.error.inj (Prod.mk.inj (hstep.symm.trans hfails)).1
    · have hclean : ∀ fault, ¬∃ moment ∈ moment? code s, moment.Breaks fault := by
        rintro fault ⟨moment, hmoment, hbreaks⟩
        have hfails := (fails_stepAction_iff hbreaks.ofMemory).2 ⟨moment, hmoment, hbreaks⟩
        exact hfails.not_ends hstep
      cases ended with
      | true =>
        refine ⟨(moment? code s).toList, by simp only [runFrom, hstep, hpast], ?_⟩
        simp only [runFrom, hstep]
        exact .of_step fun fault _ => iff_of_false (by simp) (hclean fault)
      | false =>
        obtain ⟨moments, hmoments, htells⟩ := ih t ((moment? code s).toList ++ past)
        refine ⟨(moment? code s).toList ++ moments, ?_, ?_⟩
        · simp only [runFrom, hstep, hmoments, hpast, append_assoc]
        · simp only [runFrom, hstep]
          cases hmoment : moment? code s with
          | none =>
            rw [hmoment] at htells
            exact htells
          | some moment =>
            rw [hmoment] at htells
            exact htells.cons fun fault hbreaks => hclean fault ⟨moment, hmoment, hbreaks⟩

/-- Where the next frame begins. -/
def State.limit (s : State) : Int := if s.base = 0 then 0 else s.frames.headD 0

/-- A frame is opened, wherever it ends. -/
theorem exists_ends_allocate {text : String} {size : Int} (hsize : readInteger text = .ok size)
    (hopen : s.base = 0 ∨ s.frames ≠ []) : ∃ t, Ends (perform code .allocate (some text)) s () t ∧
      t.frames.head? = some (s.limit + size) := by
  by_cases hbase : s.base = 0
  · refine ⟨{ s with base := size, frames := size :: 0 :: s.frames },
      ?_, by simp [State.limit, hbase]⟩
    simp only [perform, allocate, ends_bind, ends_needed, ends_get]
    refine ⟨text, s, ⟨rfl, rfl⟩, s, s, ⟨rfl, rfl⟩, ?_⟩
    rw [if_pos hbase]
    simp [hsize]
  · obtain ⟨limit, below, hframes⟩ := exists_cons_of_ne_nil (hopen.resolve_left hbase)
    exact ⟨_, (ends_perform_allocate hbase hframes).2 ⟨size, hsize, rfl⟩,
      by simp [State.limit, hbase, hframes]⟩

/-- **When a run ends for want of memory.** A run ends with an overflow exactly if its last command
stores a value beyond the memory, and this is complained about. It ends without a complaint exactly
if its last command takes a value from a cell that is not there, or stores one before the memory.
Up to its last command a run has only reached for cells of the memory. No command that opens a
frame fails because of its size. -/
theorem run_fault_iff (code : Code) (input : List String) (budget : Nat) :
    ((run code input budget).fault = some .overflow ↔
      ∃ moment ∈ (run code input budget).moments.getLast?, ∃ number,
        moment.stores? = some number ∧ 1000 ≤ number) ∧
    ((run code input budget).fault = some .noCell ↔
      ∃ moment ∈ (run code input budget).moments.getLast?,
        (∃ number, moment.loads? = some number ∧ (number < -1000 ∨ 1000 ≤ number)) ∨
        ∃ number, moment.stores? = some number ∧ number < -1000) ∧
    (∀ moment ∈ (run code input budget).moments.dropLast, ∀ number,
      moment.stores? = some number ∨ moment.loads? = some number → -1000 ≤ number ∧ number < 1000) ∧
    Fault.overflow.complaint? = some (.runtime "内存栈溢出") ∧ Fault.noCell.complaint? = none ∧
    ∀ (s : State) (place : Nat) (text : String) (size : Int),
      s.At code place .allocate (some text) → readInteger text = .ok size →
      s.base = 0 ∨ s.frames ≠ [] →
      ∃ t, step code s = (.ok false, t) ∧ t.frames.head? = some (s.limit + size) := by
  obtain ⟨moments, hmoments, htells⟩ := runFrom_tells code budget (.initial input) []
  rw [reverse_nil, nil_append] at hmoments
  rw [run, hmoments]
  refine ⟨?_, ?_, fun moment hmem number hnumber => ?_, rfl, rfl,
    fun s place text size hat hsize hopen => ?_⟩
  · rw [htells.last .overflow rfl]
    simp only [breaks_iff, reduceCtorEq, and_true, and_false, or_false, exists_false]
    rfl
  · rw [htells.last .noCell rfl]
    simp only [breaks_iff, reduceCtorEq, and_true, and_false, false_or]
    exact exists_congr fun moment => and_congr_right fun _ => or_comm
  · have hclean := htells.before moment hmem
    have hsize : (memorySize : Int) = 1000 := rfl
    rcases hnumber with hnumber | hnumber
    · have hbeyond : ¬(memorySize : Int) ≤ number := fun h => hclean _ (.overflow hnumber h)
      have hbefore : ¬number < -(memorySize : Int) := fun h => hclean _ (.before hnumber h)
      omega
    · have hcell : ¬(number < -(memorySize : Int) ∨ memorySize ≤ number) :=
        fun h => hclean _ (.missing hnumber h)
      omega
  · obtain ⟨t, hends, hframes⟩ : ∃ t, Ends (perform code .allocate (some text))
        { s with next := some (place + 1) } () t ∧ t.frames.head? = some (s.limit + size) :=
      exists_ends_allocate hsize hopen
    exact ⟨t, hat.ends_step.2 ⟨rfl, hends⟩, hframes⟩

/-- The last of 1001 cells is printed. -/
def distantCode : Code where
  rows := #[.command ["BR", "LABEL1"], .label, .command ["ALLOCATE", "1001"],
    .command ["LOAD", "1000"], .command ["OUT"], .command ["STOP"]]
  labels := [("LABEL1", 1)]

/-- The frame is opened although it does not fit, and the run ends without a complaint. -/
theorem run_fault_iff_distant :
    (∃ t, step distantCode { State.initial [] with next := some 2 } = (.ok false, t) ∧
      t.frames.head? = some 1001) ∧
    (run distantCode [] 5).fault = some .noCell := by
  refine ⟨(run_fault_iff distantCode [] 5).2.2.2.2.2 _ 2 "1001" 1001 (by decide +kernel)
    (by decide +kernel) (.inl rfl), (run_fault_iff distantCode [] 5).2.1.2 ?_⟩
  exact ⟨⟨3, ["LOAD", "1000"],
    [], 1001⟩, by decide +kernel, .inl ⟨1000, by decide +kernel, by decide⟩⟩

end ScoreLang.Machine
