import ScoreLang.Proofs.Labels.Renumber
import ScoreLang.Proofs.Machine.Step

/-!
# Running Renumbered Code

The machine finds the lines of labels by their names, and has no other use for the names. If the
labels of some regular lines get other numbers, then the machine does the same in every step: it is
in the same state, fails in the same way, and reads the same commands up to the numbers.

## Main results

* `Machine.Code.Renumbered`: two codes differ in the numbers of labels only;
* `Machine.Code.renumbered_ofText`: the codes of regular lines with different numbers;
* `Machine.Code.Renumbered.step`: a step of the machine;
* `Machine.Code.Renumbered.run`: a run of the machine.
-/

namespace ScoreLang

open List Text

variable {n : Nat}

/-! ### Rows -/

/-- The name of an operation is not that of a label. -/
theorem renumber_mnemonic (n : Nat) (operation : Operation) :
    renumber n operation.mnemonic = operation.mnemonic := by
  refine renumber_of_labelNumber? ?_
  cases operation <;> decide +kernel

theorem renumber_stopWord (n : Nat) : renumber n stopWord = stopWord :=
  renumber_of_labelNumber? (labelNumber?_eq_none (by decide))

theorem givenOperand_renumber (n : Nat) (operand : String) :
    givenOperand (renumber n operand) = (givenOperand operand).map (renumber n) := by
  unfold givenOperand
  by_cases h : operand = ""
  · simp [h]
  · simp [h, renumber_eq_empty_iff]

theorem commandWords_renumber {name : String} (hname : renumber n name = name) (operand : String) :
    CodeLine.commandWords name (renumber n operand)
      = (CodeLine.commandWords name operand).map (renumber n) := by
  unfold CodeLine.commandWords
  by_cases h : operand = ""
  · simp [h, hname]
  · simp [h, hname, renumber_eq_empty_iff]

/-- A row with other numbers for the labels. -/
def Machine.Row.renumber (n : Nat) : Row → Row
  | .label => .label
  | .command words => .command (words.map (ScoreLang.renumber n))

namespace CodeLine

theorem Regular.row_renumber {line : CodeLine} (h : line.Regular) (n : Nat) :
    (line.renumber n).row = line.row.renumber n := by
  cases h with
  | label number => rfl
  | jump _ _ => exact congrArg Machine.Row.command (commandWords_renumber (renumber_mnemonic n _) _)
  | plain _ => exact congrArg Machine.Row.command (commandWords_renumber (renumber_mnemonic n _) _)
  | bare operation =>
    simp [CodeLine.renumber, row, Machine.Row.renumber, renumber_mnemonic]
  | stop => exact congrArg Machine.Row.command (commandWords_renumber (renumber_stopWord n) _)

theorem name?_renumber (line : CodeLine) (n : Nat) :
    (line.renumber n).name? = line.name?.map (ScoreLang.renumber n) := by
  cases line <;> rfl

end CodeLine

/-- The operand of a command may get another number: it names a label, or does not change. -/
def Operation.Accepts (n : Nat) (operation : Operation) (operand : Option String) : Prop :=
  operation.namesLabel = true ∨ operand.map (renumber n) = operand

/-- What the words of a regular line stand for. -/
theorem CodeLine.Regular.instruction {line : CodeLine} (h : line.Regular) {words : List String}
    (hwords : line.row = .command words) (n : Nat) :
    (Instruction.ofWords words = .stop ∧ Instruction.ofWords (words.map (ScoreLang.renumber n)) =
    .stop) ∨
      ∃ operation operand, Instruction.ofWords words = .perform operation operand ∧
        Instruction.ofWords (words.map (ScoreLang.renumber n))
          = .perform operation (operand.map (ScoreLang.renumber n)) ∧ operation.Accepts n
          operand := by
  have hcommand : ∀ (operation : Operation) (operand : String),
      words = commandWords operation.mnemonic operand →
      operation.Accepts n (givenOperand operand) → ∃ operation operand,
        Instruction.ofWords words = .perform operation operand ∧
        Instruction.ofWords (words.map (ScoreLang.renumber n))
          = .perform operation (operand.map (ScoreLang.renumber n)) ∧ operation.Accepts n
          operand := by
    rintro operation operand rfl haccepts
    refine ⟨operation, givenOperand operand, Instruction.ofWords_commandWords .., ?_, haccepts⟩
    rw [← commandWords_renumber (renumber_mnemonic n operation), Instruction.ofWords_commandWords,
      givenOperand_renumber]
  cases h with
  | label number => simp [row] at hwords
  | jump hoperation _ =>
    exact .inr (hcommand _ _ (Machine.Row.command.inj hwords).symm (.inl hoperation))
  | plain hoperand =>
    refine .inr (hcommand _ _ (Machine.Row.command.inj hwords).symm (.inr ?_))
    rw [← givenOperand_renumber, hoperand.renumber_eq]
  | bare operation =>
    exact .inr (hcommand operation "" (Machine.Row.command.inj hwords).symm (.inr rfl))
  | stop =>
    obtain rfl := Machine.Row.command.inj hwords
    refine .inl ⟨rfl, ?_⟩
    rw [← commandWords_renumber (renumber_stopWord n), renumber_empty]
    rfl

namespace Machine

/-! ### Codes -/

/-- Two codes differ in the numbers of labels only. -/
structure Code.Renumbered (n : Nat) (code code' : Code) : Prop where
  regular : ∀ row ∈ code.rows, ∃ line : CodeLine, line.Regular ∧ line.row = row
  rows : code'.rows = code.rows.map (Row.renumber n)
  find : ∀ label, code'.find? (renumber n label) = code.find? label

namespace Code

/-- Labels with other numbers are entered at the same lines. -/
theorem lookup_enterLabels_renumber {lines : List CodeLine} (h : ∀ line ∈ lines, line.Regular)
    {labels labels' : List (String × Nat)}
    (hlabels : ∀ name, labels'.lookup (renumber n name) = labels.lookup name) (place : Nat)
    (name : String) :
    (enterLabels labels' place ((lines.map (CodeLine.renumber n)).map CodeLine.content)).lookup
        (renumber n name)
      = (enterLabels labels place (lines.map CodeLine.content)).lookup name := by
  induction lines generalizing labels labels' place with
  | nil => exact hlabels name
  | cons line lines ih =>
    have hline := h line (by simp)
    rw [map_cons, map_cons, map_cons, enterLabels_content (hline.renumber n).tidy,
      enterLabels_content hline.tidy, CodeLine.name?_renumber]
    refine ih (fun other hother => h other (by simp [hother])) (fun other => ?_) (place + 1)
    cases line.name? with
    | none => exact hlabels other
    | some found =>
      simp only [Option.map_some, lookup_enter, (renumber_injective n).eq_iff, hlabels]

/-- **Lines with other numbers** are loaded as code that differs in the numbers only. -/
theorem renumbered_ofText {lines : List CodeLine} (h : ∀ line ∈ lines, line.Regular) (n : Nat) :
    Renumbered n (ofText (CodeLine.listText lines))
      (ofText (CodeLine.listText (lines.map (CodeLine.renumber n)))) := by
  have hrows : ∀ {lines : List CodeLine}, (∀ line ∈ lines, line.Regular) →
      (ofText (CodeLine.listText lines)).rows = (lines.map CodeLine.row).toArray := by
    intro lines h
    rw [ofText, CodeLine.splitLines_listText fun line hline => (h line hline).tidy]
    simp only [map_map]
    exact congrArg List.toArray (map_congr_left fun line hline =>
      CodeLine.row_content (h line hline).tidy)
  have hrenumbered : ∀ line ∈ lines.map (CodeLine.renumber n), line.Regular := by
    intro line hline
    obtain ⟨found, hfound, rfl⟩ := mem_map.1 hline
    exact (h found hfound).renumber n
  refine ⟨?_, ?_, fun label => ?_⟩
  · intro row hrow
    rw [hrows h, mem_toArray] at hrow
    obtain ⟨line, hline, rfl⟩ := mem_map.1 hrow
    exact ⟨line, h line hline, rfl⟩
  · rw [hrows h, hrows hrenumbered, map_toArray, map_map, map_map]
    exact congrArg List.toArray (map_congr_left fun line hline =>
      (h line hline).row_renumber n)
  · rw [find?, find?, ofText, ofText, CodeLine.splitLines_listText fun line hline =>
      (h line hline).tidy,
      CodeLine.splitLines_listText fun line hline => (hrenumbered line hline).tidy]
    exact lookup_enterLabels_renumber h (fun _ => rfl) 0 label

end Code

/-! ### Steps -/

/-- What is about to happen, with other numbers for the labels. -/
def Moment.renumber (n : Nat) (moment : Moment) : Moment :=
  { moment with words := moment.words.map (ScoreLang.renumber n) }

/-- What has become of a run, with other numbers for the labels. -/
def Outcome.renumber (n : Nat) (result : Outcome) : Outcome :=
  { result with moments := result.moments.map (Moment.renumber n) }

namespace Code.Renumbered

variable {code code' : Code} (h : code.Renumbered n code')

include h

theorem row (place : Nat) : code'.rows[place]? = code.rows[place]?.map (Row.renumber n) := by
  rw [h.rows, Array.getElem?_map]

theorem skipLabels (count place : Nat) :
    code'.skipLabels count place = code.skipLabels count place := by
  induction count generalizing place with
  | zero => rfl
  | succ count ih =>
    rw [Code.skipLabels, Code.skipLabels, h.row]
    rcases code.rows[place]? with _ | _ | words
    · rfl
    · exact ih (place + 1)
    · rfl

/-- The same command is read, up to the numbers. -/
theorem fetch (s : State) : outcome (fetch code') s
    = ((outcome (fetch code) s).1.map (List.map (renumber n)), (outcome (fetch code) s).2) := by
  have hsize : code'.rows.size = code.rows.size := by rw [h.rows, Array.size_map]
  have hget : ∀ {α : Type} {next : State → Action α}, outcome (get >>= next) s = outcome
    (next s) s := rfl
  unfold Machine.fetch
  rw [hget, hget]
  cases hnext : s.next with
  | none => rfl
  | some place =>
    simp only [h.skipLabels, hsize, h.row]
    rcases code.rows[code.skipLabels code.rows.size place]? with _ | _ | words <;> rfl

theorem moment? (s : State) : moment? code' s = (moment? code s).map (Moment.renumber n) := by
  have hfetch := h.fetch s
  unfold outcome at hfetch
  unfold Machine.moment?
  rw [hfetch]
  rcases (Machine.fetch code).run.run s with ⟨_ | words, t⟩ <;> rfl

/-- Jumps lead to the same lines. -/
theorem needed_jump (operand : Option String) :
    (needed (operand.map (renumber n)) >>= jump code') = (needed operand >>= jump code) := by
  cases operand with
  | none => rfl
  | some label =>
    change jump code' (renumber n label) = jump code label
    rw [jump, h.find, jump]

/-- An operation does the same. -/
theorem perform {operation : Operation} {operand : Option String}
    (haccepts : operation.Accepts n operand) :
    perform code' operation (operand.map (renumber n)) = perform code operation operand := by
  have hjump := h.needed_jump operand
  rcases haccepts with hlabel | hsame
  · cases operation <;> simp only [Operation.namesLabel, Bool.false_eq_true] at hlabel <;>
      simp only [Machine.perform, hjump]
  · rw [hsame]
    rw [hsame] at hjump
    cases operation <;> first | rfl | simp only [Machine.perform, hjump]

/-- **A step** leads to the same state. -/
theorem step (s : State) : step code' s = step code s := by
  change outcome (stepAction code') s = outcome (stepAction code) s
  have hfetch := h.fetch s
  rcases hresult : outcome (Machine.fetch code) s with ⟨fault | words, t⟩
  · rw [hresult] at hfetch
    rw [stepAction, stepAction, outcome_bind_of_error hresult, outcome_bind_of_error hfetch]
  · rw [hresult] at hfetch
    rw [stepAction, stepAction, outcome_bind_of_ok hresult, outcome_bind_of_ok hfetch]
    obtain ⟨place, -, hrow, -⟩ := ends_fetch.1 hresult
    obtain ⟨line, hline, hwords⟩ := h.regular _ (Array.mem_of_getElem? hrow)
    rcases hline.instruction hwords n with ⟨hstop, hstop'⟩ | ⟨operation, operand, hperform,
      hperform', haccepts⟩
    · rw [hstop, hstop']
    · rw [hperform, hperform']
      simp only [h.perform haccepts]

/-- What has happened before does not matter. -/
theorem runFrom (budget : Nat) (s : State) (past : List Moment) :
    runFrom code' budget s (past.map (Moment.renumber n))
      = (runFrom code budget s past).renumber n := by
  induction budget generalizing s past with
  | zero => simp [Machine.runFrom, Outcome.renumber]
  | succ budget ih =>
    have hpast : ((Machine.moment? code s).map (Moment.renumber n)).toList
        ++ past.map (Moment.renumber n)
        = ((Machine.moment? code s).toList ++ past).map (Moment.renumber n) := by
      cases Machine.moment? code s <;> rfl
    rw [Machine.runFrom, Machine.runFrom, h.step, h.moment?, hpast]
    rcases Machine.step code s with ⟨_ | _ | _, t⟩
    · simp [Outcome.renumber]
    · exact ih t _
    · simp [Outcome.renumber]

/-- **A run** goes through the same states, and ends in the same way. -/
theorem run (input : List String) (budget : Nat) :
    run code' input budget = (run code input budget).renumber n :=
  h.runFrom budget (.initial input) []

end Code.Renumbered

end Machine

end ScoreLang
