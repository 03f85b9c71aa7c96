import Mathlib.Data.List.Count
import Mathlib.Data.List.Nodup
import ScoreLang.Proofs.Code.Program
import ScoreLang.Proofs.Machine.Load
import ScoreLang.Proofs.Meaning

/-!
# The Lines of the Code

What lines of code look like to the machine. Labels are numbered, and different numbers make
different labels (`labelName_injective`). A line is *tidy* if the machine reads it as it is meant.
-/

namespace ScoreLang

open List

/-! ### Names of labels -/

/-- Different numbers are written differently. -/
theorem toString_nat_injective {m n : Nat} (h : toString m = toString n) : m = n := by
  have hdigits : (Text.numeral m).digits = (Text.numeral n).digits := h
  have hvalue : (Text.numeral m).value = (Text.numeral n).value := by
    rw [Numeral.value, Numeral.value, hdigits]
  simpa using hvalue

/-- **Different numbers make different labels.** -/
theorem labelName_injective : Function.Injective labelName := by
  intro m n h
  rw [labelName, labelName] at h
  have hlist := congrArg String.toList h
  rw [String.toList_append, String.toList_append, List.append_cancel_left_eq] at hlist
  exact toString_nat_injective (String.toList_injective hlist)

/-- A label has a name. -/
theorem labelName_ne_empty (number : Nat) : labelName number ≠ "" := by
  intro h
  have hlist := congrArg String.toList h
  rw [labelName, String.toList_append] at hlist
  exact nomatch hlist

/-- The labels after some that have been used up. -/
def freshLabels (used count : Nat) : List String := (range' (used + 1) count).map labelName

/-- Labels are used up one after the other. -/
theorem freshLabels_add (used first second : Nat) :
    freshLabels used (first + second)
      = freshLabels used first ++ freshLabels (used + first) second := by
  rw [freshLabels, freshLabels, freshLabels, ← map_append, ← range'_append_1]
  simp [Nat.add_right_comm]

/-- No fresh label comes twice. -/
theorem nodup_freshLabels (used count : Nat) : (freshLabels used count).Nodup :=
  Nodup.map labelName_injective nodup_range'

/-! ### The labels of the code -/

namespace CodeLine

/-- The names of the labels among some lines. -/
def labels (lines : List CodeLine) : List String := lines.filterMap name?

/-- No lines, no labels. -/
@[simp] theorem labels_nil : labels [] = [] := rfl

/-- The labels of two pieces of code. -/
@[simp] theorem labels_append (first second : List CodeLine) :
    labels (first ++ second) = labels first ++ labels second := filterMap_append

/-- A label is among the labels. -/
@[simp] theorem labels_label_cons (name : String) (lines : List CodeLine) :
    labels (.label name :: lines) = name :: labels lines := rfl

/-- A command is not. -/
@[simp] theorem labels_line_cons (operation : Operation) (operand : String)
    (lines : List CodeLine) : labels (operation.line operand :: lines) = labels lines := rfl

/-- A line without a name is no label. -/
theorem labels_cons_of_name?_eq_none {line : CodeLine} (h : line.name? = none)
    (lines : List CodeLine) : labels (line :: lines) = labels lines := filterMap_cons_none h

end CodeLine

/-! ### Tidy lines -/

namespace Text

/-- A number has no blanks. -/
theorem Solid.numeral (number : Numeral) : Solid number.digits := fun c hc =>
  isBlank_of_isDigit (number.isDigit_of_mem c hc)

end Text

open Text

/-- A label has no blanks. -/
theorem solid_labelName (number : Nat) : Solid (labelName number) :=
  solid_append (by decide) (Solid.numeral (Text.numeral number))

/-- A label is read as it is meant. -/
theorem tidy_label (number : Nat) : (CodeLine.label (labelName number)).Tidy := by
  refine ⟨?_, solid_labelName number⟩
  rw [labelName, String.toList_append]
  exact prefix_append _ _

/-- A command is read as it is meant, if its operand has no blanks. -/
theorem Operation.tidy_line {operand : String} (operation : Operation) (h : Solid operand) :
    (operation.line operand).Tidy := by
  have hname : operation.mnemonic.toList ≠ [] ∧
      operation.mnemonic.toList.length < CodeLine.commandWidth ∧ Solid operation.mnemonic := by
    cases operation <;> decide
  exact ⟨hname.1, hname.2.1, hname.2.2, h⟩

/-- So is a command without an operand. -/
theorem tidy_plain (operation : Operation) : (operation.line "").Tidy :=
  operation.tidy_line (by decide)

end ScoreLang
