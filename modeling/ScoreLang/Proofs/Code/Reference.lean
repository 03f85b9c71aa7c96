import ScoreLang.Proofs.Code.Walk

/-!
# Cells of Variables

`Reference.cell?` is the cell of a variable or of an element of an array, as it is written in the
code: it is found in the scopes, and there is none if the name is not declared or the index is out
of range.
-/

namespace ScoreLang

/-- An address as it is written, unless it has too many digits. -/
def Address.text? : Address → Option String
  | .absolute cell => (Text.writeInteger cell).toOption
  | .relative cell => (Text.writeInteger cell).toOption.map (":" ++ ·)
  | .label name => some name

/-- The element of an array that an index names, unless it is out of range. -/
def Entry.offset? (entry : Entry) : Option Numeral → Option Int
  | none => some 0
  | some index =>
    match Text.readInteger index.digits, entry.size with
    | .ok offset, some size =>
      if entry.category = .array ∧ offset < size then some offset else none
    | _, _ => none

/-- An address moved by an offset; code cannot be moved. -/
def Address.moved? (offset : Int) : Address → Option Address
  | .absolute cell => some (.absolute (cell + offset))
  | .relative cell => some (.relative (cell + offset))
  | .label _ => none

/-- The cell of a reference, as it is written. -/
def Reference.cell? (scopes : Scopes) (target : Reference) : Option String := do
  let entry ← scopes.find? target.name
  let offset ← entry.offset? target.index
  let address ← entry.address.moved? offset
  address.text?

namespace Generate

open Generator

variable {g g' : Generator}

@[simp] theorem ends_addressText {address : Address} {text : String} :
    Ends (addressText address) g text g' ↔ address.text? = some text ∧ g = g' := by
  cases address with
  | absolute cell =>
    rw [addressText, ends_ofInteger, Address.text?]
    cases Text.writeInteger cell <;> simp [Except.toOption]
  | relative cell =>
    simp only [addressText, ends_bind, ends_ofInteger, ends_pure, Address.text?]
    cases Text.writeInteger cell <;> simp [Except.toOption, eq_comm]
  | label name =>
    simp only [addressText, ends_pure, Address.text?, Option.some.injEq]
    exact and_congr_left fun _ => eq_comm

theorem beginsWith_name (name : String) : (Label.name name).beginsWith "ID" = true := by
  simp [Label.beginsWith, Label.text, Label.nameMark, String.toList_append]

@[simp] theorem ends_cellAfter {address moved : Address} {count : Int} :
    Ends (cellAfter address count) g moved g' ↔ address.moved? count = some moved ∧ g = g' := by
  cases address <;> simp [cellAfter, Address.moved?, eq_comm]

end Generate

end ScoreLang
