import ScoreLang.Proofs.Code.Declaration
import ScoreLang.Proofs.Code.Statement
import ScoreLang.Proofs.Parse.Words

/-!
# The Code of Programs

`Program.code` is the code of a program without lone semicolons, put together from that of its
declarations and statements. What one function leaves to the next are its `Surroundings`: the
scopes, the marks and the cell for its result.
-/

namespace ScoreLang

/-! ### Parameters -/

/-- What the declaration of a parameter does: the lines that take its value from the stack, and the
scopes. -/
def parameterCode (scopes : Scopes) (name : String) : Option (List CodeLine × Scopes) := do
  let inner ← scopes.enter? name .variable 0 ""
  let entry ← inner.find? name
  let cell ← entry.address.text?
  some ([.command Operation.store.mnemonic cell, .bare Operation.pop.mnemonic], inner)

/-- The same for some parameters; the last one is taken first. -/
def parametersCode (scopes : Scopes) (taken : List (List CodeLine)) :
    List String → Option (List (List CodeLine) × Scopes)
  | [] => some (taken, scopes)
  | name :: names => do
    let first ← parameterCode scopes name
    parametersCode first.2 (first.1 :: taken) names

/-! ### Functions -/

/-- What is known at the statements of a body. -/
structure Opening where
  result : String
  /-- The lines that are held back: those for the parameters and the declarations. -/
  lines : List CodeLine
  scopes : Scopes
  size : Int

/-- The head of a function up to its statements. The label is that of the function. -/
def Function.opening (function : Function) (scopes : Scopes) (scopeCount : Nat) (label : String) :
    Option Opening := do
  let inner ← Scopes.enter? (.empty scopeCount true 0 :: scopes) "return" .result 0 ""
  let entry ← inner.find? "return"
  let result ← entry.address.text?
  let taken ← parametersCode inner [] function.parameters
  let outer ← Scopes.enter? taken.2.tail function.name .function function.parameters.length label
  let declared ← declared? (taken.2.take 1 ++ outer) (declarators function.body.declarations)
  some ⟨result, taken.1.flatten ++ declared.lines, declared.scopes,
    function.parameters.length + declared.size + 1⟩

/-! ### Plain programs -/

/-- What is handed on from one function to the next. -/
structure Surroundings where
  scopes : Scopes
  scopeCount : Nat
  marks : Marks
  /-- The cell for the result of the function before. -/
  resultCell : String

/-- The code of a function, and what is handed on. -/
def Function.code (function : Function) (s : Surroundings) :
    Option (List CodeLine × Surroundings) := do
  let opening ← function.opening s.scopes s.scopeCount (s.marks.label 1)
  let steps ← function.body.steps.code opening.scopes opening.result none (s.marks.use 1)
  let size ← (Text.writeInteger opening.size).toOption
  let entry ← opening.scopes.find? "return"
  let cell ← entry.address.text?
  match opening.scopes with
  | _ :: scope :: outer =>
    some ([.label (s.marks.label 1), Operation.allocate.line size] ++ opening.lines ++ steps.1 ++
      [Operation.leave.line cell], ⟨scope :: outer, s.scopeCount + 1, steps.2, opening.result⟩)
  | _ => none

/-- The code of some functions, one after the other, and what is handed on. -/
def functionsCode (s : Surroundings) : List Function → Option (List (List CodeLine) × Surroundings)
  | [] => some ([], s)
  | function :: functions => do
    let first ← function.code s
    let others ← functionsCode first.2 functions
    some (first.1 :: others.1, others.2)

/-- What the functions do one after the other: each of them has some property, and keeps what is
handed on in order. -/
theorem functionsCode_induct {P : Surroundings → Prop} {R : Function → List CodeLine → Prop}
    {functions : List Function} {parts : List (List CodeLine)} {s s' : Surroundings} (hs : P s)
    (h : functionsCode s functions = some (parts, s'))
    (hstep : ∀ {function own t t'}, (function, own) ∈ functions.zip parts → P t →
      function.code t = some (own, t') → R function own ∧ P t') :
    List.Forall₂ R functions parts ∧ P s' := by
  induction functions generalizing s parts with
  | nil =>
    obtain ⟨rfl, rfl⟩ := Prod.mk.inj (Option.some.inj h)
    exact ⟨.nil, hs⟩
  | cons function functions ih =>
    simp only [functionsCode, bind_eq_some, Prod.exists, Option.some.injEq] at h
    obtain ⟨own, t, hfirst, others, t', hothers, heq⟩ := h
    obtain ⟨rfl, rfl⟩ := Prod.mk.inj heq
    obtain ⟨hown, ht⟩ := hstep List.mem_cons_self hs hfirst
    obtain ⟨hrest, ht'⟩ := ih ht hothers fun hmem => hstep (List.mem_cons_of_mem _ hmem)
    exact ⟨.cons hown hrest, ht'⟩

/-- The parts of the code of a program. -/
structure ProgramCode where
  /-- The code for the global declarations. -/
  globals : List CodeLine
  /-- The label of the main function. -/
  mainLabel : String
  /-- The code of each function. -/
  functions : List (List CodeLine)
  /-- The number of cells of the main function, as it is written. -/
  size : String
  /-- The code for the declarations of the main function and its statements. -/
  main : List CodeLine

/-- The lines of the code of a program. -/
def ProgramCode.lines (code : ProgramCode) : List CodeLine :=
  code.globals ++ [Operation.branch.line code.mainLabel] ++ code.functions.flatten ++
    [.label code.mainLabel, Operation.allocate.line code.size] ++ code.main ++
    [.command stopWord ""]

/-- The number of cells of the main function, as it is written, and the code for its declarations
and statements. The cells of its variables begin at `start`. -/
def Program.mainCode (program : Program) (s : Surroundings) (start : Int) :
    Option (String × List CodeLine) := do
  let locals ← declared? (.empty s.scopeCount false start :: s.scopes)
    (declarators program.body.declarations)
  let steps ← program.body.steps.code locals.scopes s.resultCell none s.marks
  let total := locals.size + start
  let size ← (Text.writeInteger (if total = 0 then 1 else total)).toOption
  some (size, locals.lines ++ steps.1)

/-- The code of a program. Some labels have been used up before. -/
def Program.code (program : Program) (labels : Nat) : Option ProgramCode := do
  let globals ← declared? [.empty 0 false 0] (declarators program.globals)
  let functions ←
    functionsCode ⟨globals.scopes, 1, ⟨labels + 1, none, none⟩, ""⟩ program.functions
  let main ← program.mainCode functions.2 globals.size
  some ⟨globals.lines, labelName (labels + 1), functions.1, main.1, main.2⟩

/-- Whether no semicolon stands alone in a program. -/
def Program.plain (program : Program) : Bool :=
  program.functions.all (·.body.steps.plain) && program.body.steps.plain

end ScoreLang
