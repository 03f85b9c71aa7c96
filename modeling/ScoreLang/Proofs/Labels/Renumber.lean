import ScoreLang.Proofs.Code.Lines

/-!
# Other Numbers for the Labels

The generator numbers its labels on from those that have been used up. To begin with other numbers
is to raise the number of every label by the same amount. `renumber n` does so in a text, and
leaves a text alone that is not the name of a label; it is carried over to lines of code, to scopes
and to the states of the generator.

The lines that the generator writes are *regular*: a text that looks like the name of a label stands
only where a label is meant, or where the machine does not read it.
-/

namespace ScoreLang

open List Text

/-! ### Texts -/

/-- The number of the label that has the given name; `none` if there is no such label. -/
def labelNumber? (text : String) : Option Nat :=
  let number := Nat.ofDigitChars 10 (text.toList.drop labelMark.length) 0
  if labelName number = text then some number else none

/-- The number of a label can be read from its name. -/
@[simp] theorem labelNumber?_labelName (number : Nat) :
    labelNumber? (labelName number) = some number := by
  have htail : (labelName number).toList.drop labelMark.length = Nat.toDigits 10 number := by
    rw [labelName, String.toList_append, ← String.length_toList, drop_left]
    exact toList_digits_numeral number
  rw [labelNumber?, htail]
  simp only [Nat.ofDigitChars_ten_toDigits, if_true]

/-- Only a label has a number. -/
theorem eq_labelName {text : String} {number : Nat} (h : labelNumber? text = some number) :
    text = labelName number := by
  simp only [labelNumber?, Option.ite_none_right_eq_some, Option.some.injEq] at h
  rw [← h.2, h.1]

/-- Only a text that begins like a label is one. -/
theorem labelNumber?_eq_none {text : String} (h : text.toList.head? ≠ some 'L') :
    labelNumber? text = none := by
  cases hnumber : labelNumber? text with
  | none => rfl
  | some number =>
    rw [eq_labelName hnumber, labelName, String.toList_append] at h
    exact absurd rfl h

/-- A text with another number, if it is the name of a label. -/
def renumber (n : Nat) (text : String) : String :=
  match labelNumber? text with
  | some number => labelName (number + n)
  | none => text

/-- The number of a label is raised. -/
@[simp] theorem renumber_labelName (n number : Nat) :
    renumber n (labelName number) = labelName (number + n) := by
  simp [renumber]

/-- Other texts stay as they are. -/
theorem renumber_of_labelNumber? {n : Nat} {text : String} (h : labelNumber? text = none) :
    renumber n text = text := by
  simp [renumber, h]

@[simp] theorem renumber_empty (n : Nat) : renumber n "" = "" :=
  renumber_of_labelNumber? (labelNumber?_eq_none (by decide))

/-- Different texts stay different. -/
theorem renumber_injective (n : Nat) : Function.Injective (renumber n) := by
  intro first second h
  unfold renumber at h
  cases hfirst : labelNumber? first with
  | none =>
    cases hsecond : labelNumber? second with
    | none => simpa [hfirst, hsecond] using h
    | some number =>
      simp only [hfirst, hsecond] at h
      simp [h] at hfirst
  | some number =>
    cases hsecond : labelNumber? second with
    | none =>
      simp only [hfirst, hsecond] at h
      simp [← h] at hsecond
    | some other =>
      simp only [hfirst, hsecond] at h
      have hnumber := labelName_injective h
      rw [eq_labelName hfirst, eq_labelName hsecond, Nat.add_right_cancel hnumber]

theorem solid_renumber {n : Nat} {text : String} (h : Solid text) : Solid (renumber n text) := by
  unfold renumber
  split
  · exact solid_labelName _
  · exact h

theorem renumber_eq_empty_iff {n : Nat} {text : String} : renumber n text = "" ↔ text = "" :=
  ⟨fun h => renumber_injective n (h.trans (renumber_empty n).symm), fun h => h ▸ renumber_empty n⟩

/-- A text without blanks that is not the name of a label. -/
structure Inert (text : String) : Prop where
  solid : Solid text
  labelNumber? : labelNumber? text = none

namespace Inert

variable {text : String}

theorem renumber_eq (h : Inert text) (n : Nat) : renumber n text = text :=
  renumber_of_labelNumber? h.labelNumber?

/-- What does not begin like a label is inert. -/
theorem of_head? (hsolid : Solid text) (h : text.toList.head? ≠ some 'L') : Inert text :=
  ⟨hsolid, labelNumber?_eq_none h⟩

theorem empty : Inert "" := of_head? (by decide) (by decide)

/-- A number is inert. -/
theorem numeral (number : Numeral) : Inert number.digits := by
  refine of_head? (Solid.numeral number) fun h => ?_
  have hdigit := number.isDigit_of_mem 'L' (mem_of_mem_head? h)
  exact absurd hdigit (by decide)

/-- So is the spelling of an integer. -/
theorem writeInteger {value : Int} (h : writeInteger value = .ok text) : Inert text := by
  unfold Text.writeInteger at h
  split at h
  · obtain rfl := Except.ok.inj h
    cases value with
    | ofNat value => exact numeral (Text.numeral value)
    | negSucc value =>
      refine of_head? ?_ ?_
      · rw [toString_negSucc]
        exact solid_append (by decide) (Solid.numeral (Text.numeral (value + 1)))
      · rw [toString_negSucc, String.toList_append]
        change some '-' ≠ some 'L'
        decide
  · simp at h

/-- The spelling of a cell of the frame. -/
theorem colon (h : Solid text) : Inert (":" ++ text) := by
  refine of_head? (solid_append (by decide) h) ?_
  rw [String.toList_append]
  change some ':' ≠ some 'L'
  decide

end Inert

/-! ### Lines -/

/-- Whether a label may be named in the operand of an operation. The operand of `leave` is not
read. -/
def Operation.namesLabel : Operation → Bool
  | .branch | .branchFalse | .call | .leave => true
  | _ => false

namespace CodeLine

/-- A line with other numbers for the labels. -/
def renumber (n : Nat) : CodeLine → CodeLine
  | .label name => .label (ScoreLang.renumber n name)
  | .command name operand => .command name (ScoreLang.renumber n operand)
  | line => line

theorem renumber_line (n : Nat) (operation : Operation) (operand : String) :
    (operation.line operand).renumber n = operation.line (ScoreLang.renumber n operand) := rfl

/-- A line as the generator writes it. -/
inductive Regular : CodeLine → Prop where
  /-- A label. -/
  | label (number : Nat) : Regular (.label (labelName number))
  /-- An operation that may name a label. -/
  | jump {operation : Operation} {operand : String} : operation.namesLabel = true →
      Solid operand → Regular (operation.line operand)
  /-- Any other operation. -/
  | plain {operation : Operation} {operand : String} : Inert operand →
      Regular (operation.line operand)
  /-- A command that is not padded. -/
  | bare (operation : Operation) : Regular (.bare operation.mnemonic)
  /-- The command that ends the program. -/
  | stop : Regular (.command stopWord "")

/-- A regular line is read as it is meant. -/
theorem Regular.tidy {line : CodeLine} (h : line.Regular) : line.Tidy := by
  cases h with
  | label number => exact tidy_label number
  | jump _ hoperand => exact Operation.tidy_line _ hoperand
  | plain hoperand => exact Operation.tidy_line _ hoperand.solid
  | bare operation =>
    have htidy := tidy_plain operation
    exact ⟨htidy.1, htidy.2.2.1⟩
  | stop => exact ⟨by decide, by decide, by decide, by decide⟩

/-- It stays regular with other numbers. -/
theorem Regular.renumber {line : CodeLine} (h : line.Regular) (n : Nat) :
    (line.renumber n).Regular := by
  cases h with
  | label number =>
    rw [CodeLine.renumber, renumber_labelName]
    exact .label _
  | jump hoperation hoperand => exact .jump hoperation (solid_renumber hoperand)
  | plain hoperand =>
    rw [renumber_line, hoperand.renumber_eq]
    exact .plain hoperand
  | bare operation => exact .bare operation
  | stop =>
    rw [CodeLine.renumber, renumber_empty]
    exact .stop

end CodeLine

/-! ### Scopes -/

/-- An address with another number, if it is that of a function. -/
def Address.renumber (n : Nat) : Address → Address
  | .label name => .label (ScoreLang.renumber n name)
  | address => address

/-- An entry with another number, if it is that of a function. -/
def Entry.renumber (n : Nat) (entry : Entry) : Entry :=
  { entry with address := entry.address.renumber n }

/-- A scope with other numbers for the functions. -/
def Scope.renumber (n : Nat) (scope : Scope) : Scope :=
  { scope with table := scope.table.map fun named => (named.1, named.2.renumber n) }

/-- Scopes with other numbers for the functions. -/
def Scopes.renumber (n : Nat) (scopes : Scopes) : Scopes := scopes.map (Scope.renumber n)

section Scopes

variable {n : Nat}

theorem Scope.find?_renumber (scope : Scope) (name : String) :
    (scope.renumber n).find? name = (scope.find? name).map (Entry.renumber n) := by
  unfold Scope.find? Scope.renumber
  induction scope.table with
  | nil => rfl
  | cons named table ih =>
    obtain ⟨found, entry⟩ := named
    simp only [map_cons, lookup_cons]
    cases name == found
    · exact ih
    · rfl

theorem Scope.insert_renumber (scope : Scope) (name : String) (category : Category) (size : Int)
    (label : String) :
    (scope.renumber n).insert name category size (ScoreLang.renumber n label)
      = (scope.insert name category size label).renumber n := by
  have hnext : (scope.renumber n).nextAddress = scope.nextAddress.renumber n := by
    unfold Scope.nextAddress Scope.renumber
    split <;> rfl
  unfold Scope.insert
  split
  · rfl
  · split
    · rw [hnext]
      rfl
    · rw [hnext]
      rfl

/-- The same entry is found, with another number. -/
theorem Scopes.find?_renumber (scopes : Scopes) (name : String) :
    (scopes.renumber n).find? name = (scopes.find? name).map (Entry.renumber n) := by
  unfold Scopes.renumber
  induction scopes with
  | nil => rfl
  | cons scope outer ih =>
    rw [map_cons, Scopes.find?, Scopes.find?, Scope.find?_renumber, ih]
    cases scope.find? name <;> rfl

/-- A name is put into the same place. -/
theorem Scopes.put?_renumber (scopes : Scopes) (name : String) (category : Category) (size : Int)
    (label : String) :
    (scopes.renumber n).put? name category size (ScoreLang.renumber n label)
      = (scopes.put? name category size label).map (Scopes.renumber n) := by
  cases scopes with
  | nil => rfl
  | cons scope outer =>
    simp only [Scopes.renumber, map_cons, Scopes.put?, Scope.put?, Scope.find?_renumber,
      Option.isSome_map, Scope.insert_renumber]
    split <;> rfl

end Scopes

/-! ### States of the generator -/

namespace Generator

variable {n : Nat}

/-- A state with other numbers for the labels. -/
def renumber (n : Nat) (g : Generator) : Generator :=
  { g with
    scopes := g.scopes.renumber n
    labels := g.labels + n
    breakLabel := g.breakLabel.map (ScoreLang.renumber n)
    continueLabel := g.continueLabel.map (ScoreLang.renumber n)
    last := g.last.map (CodeLine.renumber n)
    held := g.held.map (CodeLine.renumber n)
    written := g.written.map (CodeLine.renumber n) }

/-- Lines are written with other numbers. -/
theorem write_renumber (g : Generator) (lines : List CodeLine) :
    (g.renumber n).write (lines.map (CodeLine.renumber n)) = (g.write lines).renumber n := by
  have happend : ∀ before : Array CodeLine, (before ++ lines).map (CodeLine.renumber n)
      = before.map (CodeLine.renumber n) ++ lines.map (CodeLine.renumber n) := fun before =>
    Array.toList_inj.1 (by simp)
  unfold write renumber
  cases g.holding <;> simp [happend]

/-- The walk does not depend on the numbers. -/
theorem next_renumber (g : Generator) : (g.renumber n).next = g.next.renumber n := by
  unfold next renumber
  cases g.ahead <;> cases g.current <;> rfl

theorem skip_renumber (g : Generator) (count : Nat) :
    (g.renumber n).skip count = (g.skip count).renumber n := by
  induction count with
  | zero => rfl
  | succ count ih => rw [skip_succ, ih, next_renumber, skip_succ]

/-- The numbers begin later. -/
theorem initial_renumber (tree : SyntaxTree) (labels : Nat) :
    (Generator.initial tree labels).renumber n = .initial tree (labels + n) := by
  simp [renumber, initial, Scopes.renumber, Scope.renumber, Scope.empty]

end Generator

end ScoreLang
