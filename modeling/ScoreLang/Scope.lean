/-!
# Scopes

A scope maps names to entries and hands out memory cells: a variable takes one cell, an array as
many as it has elements, a function none. The cells of a function's scope are counted from the base
of its frame, those of every other scope from the start of the memory.

Scopes are nested; a nest is a list of scopes with the innermost one first. A name means what the
innermost scope that holds it says.
-/

namespace ScoreLang

/-- What a name stands for. -/
inductive Category where
  | variable
  | array
  | function
  /-- The cell for the result of a function. -/
  | result
  deriving DecidableEq, Repr

/-- The word for a category. -/
def Category.text : Category → String
  | .variable => "int"
  | .array => "array"
  | .function => "function"
  | .result => "return"

/-- Where an entry is found. -/
inductive Address where
  /-- A cell, counted from the start of the memory. -/
  | absolute (cell : Int)
  /-- A cell, counted from the base of the frame. -/
  | relative (cell : Int)
  /-- The code of a function, by its label. -/
  | label (name : String)
  deriving DecidableEq, Repr

/-- An address as it is written: a colon marks a cell of the frame. -/
def Address.text : Address → String
  | .absolute cell => toString cell
  | .relative cell => ":" ++ toString cell
  | .label name => name

/-- What a scope knows of a name. -/
structure Entry where
  /-- Where it is found. -/
  address : Address
  /-- What it stands for. -/
  category : Category
  /-- The number of elements or of parameters; absent for a single cell. -/
  size : Option Int
  deriving DecidableEq, Repr

/-- A scope. -/
structure Scope where
  /-- The number of the scope. -/
  id : Nat
  /-- Whether its cells are counted from the base of a frame. -/
  relative : Bool
  /-- The cell that is handed out next. -/
  next : Int
  /-- The names of the scope, last one first. -/
  table : List (String × Entry)
  deriving DecidableEq, Repr

namespace Scope

/-- A scope without names. -/
def empty (id : Nat) (relative : Bool) (start : Int) : Scope := ⟨id, relative, start, []⟩

/-- The entry of a name. -/
def find? (scope : Scope) (name : String) : Option Entry :=
  scope.table.lookup name

/-- The address of the cell that is handed out next. -/
def nextAddress (scope : Scope) : Address :=
  if scope.relative then .relative scope.next else .absolute scope.next

/-- Enters a name that the scope does not hold. A function is found under its label and takes no
cell; an array of size zero is a single cell. -/
def insert (scope : Scope) (name : String) (category : Category) (size : Int) (label : String) :
    Scope :=
  if category = .function then
    { scope with table := (name, ⟨.label label, category, some size⟩) :: scope.table }
  else if size = 0 then
    { scope with
      next := scope.next + 1
      table := (name, ⟨scope.nextAddress, category, none⟩) :: scope.table }
  else
    { scope with
      next := scope.next + size
      table := (name, ⟨scope.nextAddress, category, some size⟩) :: scope.table }

/-- Enters a name; `none` if the scope holds it already. -/
def put? (scope : Scope) (name : String) (category : Category) (size : Int) (label : String) :
    Option Scope :=
  if (scope.find? name).isSome then none else some (scope.insert name category size label)

end Scope

/-- Nested scopes, the innermost one first. -/
abbrev Scopes := List Scope

namespace Scopes

/-- What a name means: the entry of the innermost scope that holds it. -/
def find? : Scopes → String → Option Entry
  | [], _ => none
  | scope :: outer, name =>
    match scope.find? name with
    | some entry => some entry
    | none => find? outer name

/-- Enters a name into the innermost scope; `none` if that scope holds it already, or if there is no
scope. -/
def put? (scopes : Scopes) (name : String) (category : Category) (size : Int) (label : String) :
    Option Scopes :=
  match scopes with
  | [] => none
  | scope :: outer => (scope.put? name category size label).map (· :: outer)

/-- The scopes from the one that holds a name outwards. -/
def holding : Scopes → String → Scopes
  | [], _ => []
  | scope :: outer, name =>
    if (scope.find? name).isSome then scope :: outer else holding outer name

/-- The numbers of the scopes from the outermost one to the one that holds a name, joined by
hyphens. -/
def path? (scopes : Scopes) (name : String) : Option String :=
  match scopes.holding name with
  | [] => none
  | found => some ("-".intercalate (found.reverse.map fun scope => toString scope.id))

end Scopes

end ScoreLang
