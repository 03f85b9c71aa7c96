import ScoreLang.Proofs.Code.Expression
import ScoreLang.Proofs.Syntax.Program

/-!
# The Code of Declarations

A declaration enters names into the innermost scope and writes the code for their initial values.
`Declarator.code` gives the scopes, the lines and the number of cells by recursion on the declared
names.
-/

namespace ScoreLang

/-! ### Names -/

/-- A value that has been computed. -/
theorem toOption_eq_some {ε α : Type} {value : Except ε α} {a : α} :
    value.toOption = some a ↔ value = .ok a := by
  cases value <;> simp [Except.toOption]

/-- The entry of a name stands in the table. -/
theorem Scope.mem_of_find? {scope : Scope} {name : String} {entry : Entry}
    (h : scope.find? name = some entry) : (name, entry) ∈ scope.table := by
  rw [Scope.find?, List.lookup_eq_some_iff] at h
  obtain ⟨before, after, htable, -⟩ := h
  simp [htable]

/-- A scope holds a name that is entered, and the names that it held before. -/
theorem Scope.isSome_find?_insert (scope : Scope) (name other label : String) (category : Category)
    (size : Int) : ((scope.insert name category size label).find? other).isSome = true ↔
      other = name ∨ (scope.find? other).isSome = true := by
  obtain ⟨entry, hentry⟩ : ∃ entry, (scope.insert name category size label).table
      = (name, entry) :: scope.table := by
    unfold Scope.insert
    split
    · exact ⟨_, rfl⟩
    split
    · exact ⟨_, rfl⟩
    · exact ⟨_, rfl⟩
  rw [Scope.find?, Scope.find?, hentry, List.lookup_cons]
  by_cases hother : other = name
  · simp [hother]
  · have hbeq : (other == name) = false := by simpa using hother
    simp [hbeq, hother]

/-- Scopes with a name entered into the innermost one; a name that it holds already keeps its
entry. -/
def Scopes.enter? (scopes : Scopes) (name : String) (category : Category) (size : Int)
    (label : String) : Option Scopes :=
  (Text.writeInteger ((scopes.head?.map (·.next)).getD 0)).toOption.map fun _ =>
    (scopes.put? name category size label).getD scopes

/-- Whether the cells of the innermost scope are counted from the base of a frame. -/
def Scopes.inFrame (scopes : Scopes) : Bool := (scopes.head?.map (·.relative)).getD false

/-- The cell of an element of an array in the operand of a store. -/
def cellAt? (inFrame : Bool) (address : String) (offset : Int) : Option String :=
  (movedOperand inFrame Operation.store.mnemonic address offset).toOption

/-! ### Initial values -/

/-- The code that sets the elements of an array from an offset on to zero. -/
def zeros? (inFrame : Bool) (address : String) : Int → Nat → Option (List CodeLine)
  | _, 0 => some []
  | offset, count + 1 => do
    let cell ← cellAt? inFrame address offset
    let lines ← zeros? inFrame address (offset + 1) count
    some (Operation.push.line "0" :: Operation.store.line cell :: Operation.pop.line "" :: lines)

/-- The code that stores a value in an element of an array; a surplus value is dropped. -/
def element? (inFrame : Bool) (address : String) (size : Int) (index : Nat) :
    Option (List CodeLine) :=
  if index < size then
    (cellAt? inFrame address index).map fun cell =>
      [Operation.store.line cell, Operation.pop.line ""]
  else some [Operation.pop.line ""]

/-- The code for some elements of an array from an index on. -/
def elements? (scopes : Scopes) (address : String) (size : Int) :
    Nat → List (Expr .logical) → Option (List CodeLine)
  | _, [] => some []
  | index, value :: values => do
    let lines ← value.code scopes
    let stored ← element? scopes.inFrame address size index
    let others ← elements? scopes address size (index + 1) values
    some (lines ++ stored ++ others)

/-- The code for the initial values of an array. -/
def initial? (scopes : Scopes) (name : String) (values : List (Expr .logical)) :
    Option (List CodeLine) := do
  let entry ← scopes.find? name
  let size ← entry.size
  let address ← entry.address.text?
  let first ← elements? scopes address size 0 values
  let rest ← zeros? scopes.inFrame address values.length (size - values.length).toNat
  some (first ++ rest)

/-! ### Declarators -/

/-- What a declaration does: the scopes after it, its code, and the number of cells that its names
are said to take. -/
structure Declared where
  scopes : Scopes
  lines : List CodeLine
  size : Int

/-- What the declaration of one name does. -/
def Declarator.code (scopes : Scopes) : Declarator → Option Declared
  | .plain name => (scopes.enter? name .variable 0 "").map fun scopes => ⟨scopes, [], 1⟩
  | .initial name value => do
    let scopes ← scopes.enter? name .variable 0 ""
    let lines ← value.code scopes
    let entry ← scopes.find? name
    let cell ← entry.address.text?
    some ⟨scopes, lines ++ [Operation.store.line cell, Operation.pop.line ""], 1⟩
  | .array name length => do
    let size ← (Text.readInteger length.digits).toOption
    (scopes.enter? name .array size "").map fun scopes => ⟨scopes, [], size⟩
  | .filled name length values => do
    let size ← (Text.readInteger length.digits).toOption
    let scopes ← scopes.enter? name .array size ""
    let lines ← if values = [] then none else initial? scopes name values
    some ⟨scopes, lines, size⟩

/-- What some declarations of names do, one after the other. -/
def declared? (scopes : Scopes) : List Declarator → Option Declared
  | [] => some ⟨scopes, [], 0⟩
  | declarator :: rest => do
    let first ← declarator.code scopes
    let others ← declared? first.scopes rest
    some ⟨others.scopes, first.lines ++ others.lines, first.size + others.size⟩

/-- The names of some declarations. -/
def declarators (declarations : List Declaration) : List Declarator :=
  declarations.flatMap fun declaration => declaration.first :: declaration.rest

theorem declared?_append (scopes : Scopes) (first second : List Declarator) :
    declared? scopes (first ++ second) = (declared? scopes first).bind fun before =>
      (declared? before.scopes second).map fun after =>
        ⟨after.scopes, before.lines ++ after.lines, before.size + after.size⟩ := by
  induction first generalizing scopes with
  | nil =>
    rcases hsecond : declared? scopes second with _ | after <;> simp [declared?, hsecond]
  | cons declarator first ih =>
    rcases hdeclarator : declarator.code scopes with _ | declared
    · simp [declared?, hdeclarator]
    rcases hfirst : declared? declared.scopes first with _ | before
    · simp [declared?, hdeclarator, ih, hfirst]
    rcases hsecond : declared? before.scopes second with _ | after <;>
      simp [declared?, hdeclarator, ih, hfirst, hsecond, Int.add_assoc]

end ScoreLang
