import ScoreLang.Machine.Run
import ScoreLang.Proofs.Code.Walk
import ScoreLang.Proofs.Machine.Load

/-!
# Counted Runs of the Machine

A run of the machine is cut into stretches. The machine reads on over labels without doing
anything, so a state is *settled* once it stands at a command, and a step leads from one settled
state to the next one. `Steps` counts the steps of a stretch and `HaltsIn` the steps up to the end
of the program. The machine is deterministic: a stretch from a state that halts uses up some of its
steps.
-/

namespace ScoreLang

/-! ### Mnemonics -/

/-- The operand of a command, unless it is empty. -/
def givenOperand (operand : String) : Option String := if operand = "" then none else some operand

theorem Operation.ofWord?_mnemonic (operation : Operation) :
    Operation.ofWord? operation.mnemonic = some operation := by
  cases operation <;> decide +kernel

theorem Operation.mnemonic_ne_stopWord (operation : Operation) :
    operation.mnemonic ≠ stopWord := by
  cases operation <;> decide

/-- A command is read back from its words. -/
theorem Instruction.ofWords_commandWords (operation : Operation) (operand : String) :
    Instruction.ofWords (CodeLine.commandWords operation.mnemonic operand)
      = .perform operation (givenOperand operand) := by
  rw [CodeLine.commandWords, Instruction.ofWords, if_neg operation.mnemonic_ne_stopWord,
    operation.ofWord?_mnemonic, givenOperand]
  by_cases hempty : operand = "" <;> simp [hempty]

namespace Machine

/-! ### Labels are skipped -/

namespace Code

variable {code : Code} {place : Nat}

/-- The first line from a place on that is not a label. -/
def settle (code : Code) (place : Nat) : Nat := code.skipLabels code.rows.size place

/-- Looking at one more line does not matter if all lines have been looked at. -/
theorem skipLabels_succ {count : Nat} (h : code.rows.size ≤ place + count) :
    code.skipLabels (count + 1) place = code.skipLabels count place := by
  induction count generalizing place with
  | zero =>
    have hnone : code.rows[place]? = none := by simpa using h
    simp [skipLabels, hnone]
  | succ count ih =>
    rw [skipLabels]
    conv_rhs => rw [skipLabels]
    rw [ih (by omega)]

/-- Behind the labels there is none. -/
theorem row_skipLabels {count : Nat} (h : code.rows.size ≤ place + count) :
    code.rows[code.skipLabels count place]? ≠ some .label := by
  induction count generalizing place with
  | zero =>
    have hnone : code.rows[place]? = none := by simpa using h
    simp [skipLabels, hnone]
  | succ count ih =>
    rw [skipLabels]
    split
    · exact ih (by omega)
    · assumption

theorem settle_of_ne (h : code.rows[place]? ≠ some .label) : code.settle place = place := by
  unfold settle
  cases code.rows.size with
  | zero => rfl
  | succ count =>
    rw [skipLabels]
    split
    · contradiction
    · rfl

theorem le_skipLabels (code : Code) (count place : Nat) :
    place ≤ code.skipLabels count place := by
  induction count generalizing place with
  | zero => exact Nat.le_refl place
  | succ count ih =>
    rw [skipLabels]
    split
    · exact Nat.le_of_succ_le (ih (place + 1))
    · exact Nat.le_refl place

/-- Only lines ahead are skipped. -/
theorem le_settle (code : Code) (place : Nat) : place ≤ code.settle place :=
  code.le_skipLabels _ place

/-- Behind the labels, nothing is skipped. -/
theorem settle_settle : code.settle (code.settle place) = code.settle place :=
  settle_of_ne (row_skipLabels (by omega))

/-- A label counts for nothing. -/
theorem settle_label (h : code.rows[place]? = some .label) :
    code.settle place = code.settle (place + 1) := by
  have hlt : place < code.rows.size := (Array.getElem?_eq_some_iff.1 h).1
  obtain ⟨count, hcount⟩ : ∃ count, code.rows.size = count + 1 := ⟨code.rows.size - 1, by omega⟩
  have hfirst : code.skipLabels (count + 1) place = code.skipLabels count (place + 1) := by
    rw [skipLabels, h]
  rw [settle, settle, hcount, hfirst, skipLabels_succ (by omega)]

end Code

variable {code : Code} {s t u out : State} {n m : Nat}

/-- The state at the next command. -/
def State.settle (code : Code) (s : State) : State := { s with next := s.next.map code.settle }

/-- The next command is fetched, behind the labels. -/
theorem ends_fetch {words : List String} :
    Ends (fetch code) s words t ↔ ∃ place, s.next = some place ∧
      code.rows[code.settle place]? = some (.command words) ∧
      t = { s with next := some (code.settle place + 1) } := by
  simp only [fetch, ends_bind, ends_get, Code.settle]
  constructor
  · rintro ⟨_, _, ⟨rfl, rfl⟩, h⟩
    split at h
    · simp at h
    · rename_i place hplace
      simp only [ends_bind, ends_modify, exists_unit] at h
      obtain ⟨_, rfl, h⟩ := h
      split at h
      · rename_i found hrow
        obtain ⟨rfl, rfl⟩ := ends_pure.1 h
        exact ⟨place, hplace, hrow, rfl⟩
      · simp at h
  · rintro ⟨place, hplace, hrow, rfl⟩
    refine ⟨s, s, ⟨rfl, rfl⟩, ?_⟩
    simp [hplace, hrow]

variable {ended : Bool} {operation : Operation} {operand : String}

/-- A step does not depend on how many labels are skipped before it. -/
theorem ends_stepAction_settle :
    Ends (stepAction code) (s.settle code) ended t ↔ Ends (stepAction code) s ended t := by
  have hfetch : ∀ words r, Ends (fetch code) (s.settle code) words r ↔
      Ends (fetch code) s words r := by
    intro words r
    rw [ends_fetch, ends_fetch]
    unfold State.settle
    cases s.next <;> simp [Code.settle_settle]
  simp only [stepAction, ends_bind, hfetch]

/-- What a line of the code stands for, if it is not a label. -/
def Row.instruction? : Row → Option Instruction
  | .command words => some (.ofWords words)
  | .label => none

/-- The machine is about to read an operation, in the line with the given number. -/
structure State.At (code : Code) (s : State) (place : Nat) (operation : Operation)
    (operand : Option String) : Prop where
  next : s.next.map code.settle = some place
  instruction : code.rows[place]?.bind Row.instruction? = some (.perform operation operand)

instance {place : Nat} {operation : Operation} {operand : Option String} :
    Decidable (s.At code place operation operand) :=
  decidable_of_iff (_ ∧ _) ⟨fun h => ⟨h.1, h.2⟩, fun h => ⟨h.next, h.instruction⟩⟩

/-- What a step does before an operation. -/
theorem State.At.ends_step {place : Nat} {operand : Option String}
    (h : s.At code place operation operand) :
    Ends (stepAction code) s ended t ↔ ended = false ∧
      Ends (perform code operation operand) { s with next := some (place + 1) } () t := by
  obtain ⟨start, hnext, rfl⟩ := Option.map_eq_some_iff.1 h.next
  obtain ⟨row, hrow, hinstruction⟩ := Option.bind_eq_some_iff.1 h.instruction
  obtain ⟨words, rfl, hwords⟩ : ∃ words, row = .command words ∧
      Instruction.ofWords words = .perform operation operand := by
    cases row with
    | command words => exact ⟨words, rfl, Option.some.inj hinstruction⟩
    | label => simp [Row.instruction?] at hinstruction
  simp only [stepAction, ends_bind, ends_fetch, hnext, Option.some.injEq, exists_eq_left', hrow,
    Row.command.injEq]
  constructor
  · rintro ⟨_, _, ⟨rfl, rfl⟩, hperform⟩
    rw [hwords] at hperform
    simp only [ends_bind, ends_pure, exists_unit] at hperform
    obtain ⟨_, hperform, rfl, rfl⟩ := hperform
    exact ⟨rfl, hperform⟩
  · rintro ⟨rfl, hperform⟩
    refine ⟨_, _, ⟨rfl, rfl⟩, ?_⟩
    rw [hwords]
    simpa using hperform

/-! ### Stretches -/

/-- The machine makes a step from one settled state to another one. -/
def Moves (code : Code) (s t : State) : Prop :=
  ∃ t', Ends (stepAction code) s false t' ∧ t'.settle code = t

/-- The machine makes some steps. -/
inductive Steps (code : Code) : Nat → State → State → Prop where
  | refl (s : State) : Steps code 0 s s
  | head {n : Nat} {s t u : State} : Moves code s t → Steps code n t u → Steps code (n + 1) s u

/-- The machine makes some steps and then ends the program, in the state `out`. -/
inductive HaltsIn (code : Code) : Nat → State → State → Prop where
  /-- The command that ends the program is next. -/
  | stop {s out : State} : Ends (stepAction code) s true out → HaltsIn code 0 s out
  | head {n : Nat} {s t out : State} :
      Moves code s t → HaltsIn code n t out → HaltsIn code (n + 1) s out

/-- There is one next state. -/
theorem Moves.unique (h : Moves code s t) (h' : Moves code s u) : t = u := by
  obtain ⟨_, hends, rfl⟩ := h
  obtain ⟨_, hends', rfl⟩ := h'
  rw [(hends.unique hends').2]

theorem Moves.steps (h : Moves code s t) : Steps code 1 s t := .head h (.refl t)

/-- One run after another. -/
theorem Steps.trans (h : Steps code n s t) (h' : Steps code m t u) : Steps code (n + m) s u := by
  induction h with
  | refl s => simpa using h'
  | head hmove _ ih =>
    rw [Nat.add_right_comm]
    exact .head hmove (ih h')

theorem Steps.haltsIn (h : Steps code n s t) (h' : HaltsIn code m t out) :
    HaltsIn code (n + m) s out := by
  induction h with
  | refl s => simpa using h'
  | head hmove _ ih =>
    rw [Nat.add_right_comm]
    exact .head hmove (ih h')

/-- A step of a run that halts. -/
theorem HaltsIn.of_moves (h : HaltsIn code n s out) (hmove : Moves code s t) :
    ∃ m, n = m + 1 ∧ HaltsIn code m t out := by
  cases h with
  | stop hends =>
    obtain ⟨_, hstep, -⟩ := hmove
    exact Bool.noConfusion (hends.unique hstep).1
  | head hmove' hrest => exact ⟨_, rfl, hmove.unique hmove' ▸ hrest⟩

/-- What is left of a halting run after a stretch. -/
theorem HaltsIn.of_steps (h : HaltsIn code n s out) (hsteps : Steps code m s t) :
    ∃ k, n = m + k ∧ HaltsIn code k t out := by
  induction hsteps generalizing n with
  | refl s => exact ⟨n, by simp, h⟩
  | head hmove _ ih =>
    obtain ⟨k, rfl, hk⟩ := h.of_moves hmove
    obtain ⟨l, rfl, hl⟩ := ih hk
    exact ⟨l, by omega, hl⟩

/-- A run that halts does not fail in its first step. -/
theorem HaltsIn.exists_ends (h : HaltsIn code n s out) :
    ∃ ended t, Ends (stepAction code) s ended t := by
  cases h with
  | stop hends => exact ⟨_, _, hends⟩
  | head hmove _ =>
    obtain ⟨t, hends, -⟩ := hmove
    exact ⟨_, t, hends⟩

/-- A run has one end. -/
theorem HaltsIn.unique (h : HaltsIn code n s out) {out' : State} (h' : HaltsIn code m s out') :
    out = out' := by
  induction h generalizing m with
  | stop hends =>
    cases h' with
    | stop hends' => exact (hends.unique hends').2
    | head hmove _ =>
      obtain ⟨_, hstep, -⟩ := hmove
      exact Bool.noConfusion (hends.unique hstep).1
  | head hmove _ ih =>
    obtain ⟨k, -, hk⟩ := h'.of_moves hmove
    exact ih hk

/-! ### Runs -/

/-- A run within a budget ends the program exactly if the state halts in fewer steps. -/
theorem runFrom_fault_eq_none_iff {budget : Nat} {past : List Moment} :
    (runFrom code budget s past).fault = none ∧ (runFrom code budget s past).state = out ↔
      ∃ n, n < budget ∧ HaltsIn code n (s.settle code) out := by
  induction budget generalizing s past with
  | zero => simp [runFrom]
  | succ budget ih =>
    rcases hstep : step code s with ⟨_ | ended, t⟩
    · -- the machine fails
      simp only [runFrom, hstep]
      constructor
      · rintro ⟨h, -⟩
        exact nomatch h
      · rintro ⟨n, -, h⟩
        obtain ⟨_, _, hends⟩ := h.exists_ends
        exact absurd (hstep.symm.trans (ends_stepAction_settle.1 hends)) (by simp)
    · have hends : Ends (stepAction code) (s.settle code) ended t :=
        ends_stepAction_settle.2 hstep
      cases ended with
      | false =>
        have hmove : Moves code (s.settle code) (t.settle code) := ⟨t, hends, rfl⟩
        simp only [runFrom, hstep]
        rw [ih]
        constructor
        · rintro ⟨n, hn, h⟩
          exact ⟨n + 1, by omega, .head hmove h⟩
        · rintro ⟨n, hn, h⟩
          obtain ⟨m, rfl, hm⟩ := h.of_moves hmove
          exact ⟨m, by omega, hm⟩
      | true =>
        simp only [runFrom, hstep, true_and]
        constructor
        · rintro rfl
          exact ⟨0, by omega, .stop hends⟩
        · rintro ⟨n, -, h⟩
          exact (HaltsIn.stop hends).unique h

/-- The code is run to the command that ends the program, in the state `out`, if it is given enough
steps. -/
def Code.StopsIn (code : Code) (input : List String) (out : State) : Prop :=
  ∃ budget, (run code input budget).fault = none ∧ (run code input budget).state = out

/-- **Halting**: code is run to its end exactly if the initial state halts. -/
theorem stopsIn_iff {input : List String} :
    code.StopsIn input out ↔ ∃ n, HaltsIn code n ((State.initial input).settle code) out := by
  simp only [Code.StopsIn, run, runFrom_fault_eq_none_iff]
  constructor
  · rintro ⟨_, n, -, h⟩
    exact ⟨n, h⟩
  · rintro ⟨n, h⟩
    exact ⟨n + 1, n, by omega, h⟩

/-! ### Lines -/

variable {lines : List CodeLine} {place : Nat}

variable (h : code.Holds lines)

include h

theorem Code.Holds.settle_label {name : String} (hline : lines[place]? = some (.label name)) :
    code.settle place = code.settle (place + 1) :=
  Code.settle_label (by rw [h.row, hline]; rfl)

theorem Code.Holds.settle_command {name : String}
    (hline : lines[place]? = some (.command name operand)) : code.settle place = place :=
  Code.settle_of_ne (by rw [h.row, hline]; exact fun heq => nomatch heq)

/-- What a step does at a line. -/
theorem Code.Holds.ends_step (hline : lines[place]? = some (operation.line operand))
    (hnext : s.next = some (code.settle place)) :
    Ends (stepAction code) s ended t ↔ ended = false ∧
      Ends (perform code operation (givenOperand operand)) { s with next := some (place + 1) }
      () t := by
  have hsettle : code.settle place = place := h.settle_command hline
  have hrow : code.rows[place]?
      = some (.command (CodeLine.commandWords operation.mnemonic operand)) := by
    rw [h.row, hline]
    rfl
  have hat : s.At code place operation (givenOperand operand) :=
    ⟨by rw [hnext, hsettle, Option.map_some, hsettle], by
      rw [hrow, Option.bind_some, Row.instruction?, Instruction.ofWords_commandWords]⟩
  exact hat.ends_step

/-- A line of the code is performed. -/
theorem Code.Holds.moves (hline : lines[place]? = some (operation.line operand))
    (hnext : s.next = some (code.settle place))
    (hperform : Ends (perform code operation (givenOperand operand))
      { s with next := some (place + 1) } () t) :
    Moves code s (t.settle code) :=
  ⟨t, (h.ends_step hline hnext).2 ⟨rfl, hperform⟩, rfl⟩

/-- The line that ends the program. -/
theorem Code.Holds.haltsIn_stop (hline : lines[place]? = some (.command stopWord ""))
    (hnext : s.next = some (code.settle place)) :
    HaltsIn code 0 s
      { s with next := some (place + 1), console := s.console ++ finishedReport } := by
  have hsettle : code.settle place = place := h.settle_command hline
  have hrow : code.rows[place]? = some (.command [stopWord]) := by
    rw [h.row, hline]
    rfl
  refine .stop ?_
  simp only [stepAction, ends_bind, ends_fetch]
  refine ⟨_, _, ⟨place, by rw [hnext, hsettle], by rw [hsettle, hrow], rfl⟩, ?_⟩
  simp [Instruction.ofWords, report, hsettle]

end Machine

end ScoreLang
