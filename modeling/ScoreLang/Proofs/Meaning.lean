import ScoreLang.Console
import ScoreLang.Proofs.Code.Declaration
import ScoreLang.Proofs.Text.Decimal

/-!
# What a Program Means

A meaning of programs that does not speak of code: expressions have values, statements lead from
one configuration to another one, and a loop is run as long as its test is not zero. A store gives
the value of every cell of every variable, and all of them are zero at first. A name means the
variable of the main function if it has been declared there, and the global variable otherwise; it
is declared before its own initial value is computed.

Only the *core* of the language has this meaning: global declarations and a main function with
expressions, tests, loops, and the reading and writing of integers. There are no calls, and no value
is divided or joined by a logical operator.

## Main definitions

* `Expr.eval`: the value of an expression, and the store after it;
* `Stmt.Runs`: a statement leads from one configuration to another one;
* `Program.Evaluates`: the configuration at the end of a program;
* `Program.isCore`: the programs that have a meaning.

An expression of the core has a value (`Expr.exists_eval`), and a program ends in one configuration
at most (`Program.Evaluates.unique`).
-/

namespace ScoreLang

/-! ### Stores -/

/-- A variable: a name that is declared globally or in the main function. -/
structure Variable where
  /-- Whether it is declared in the main function. -/
  isLocal : Bool
  name : String
  deriving DecidableEq, Repr

/-- A cell of a variable. A variable that is no array has only the cell with index zero. -/
structure Cell where
  owner : Variable
  index : Nat
  deriving DecidableEq, Repr

/-- The values of all cells. -/
abbrev Store := Cell → Int

namespace Store

/-- The store in which all cells are zero. -/
def zero : Store := fun _ => 0

/-- The store with a value put into a cell. -/
def set (store : Store) (cell : Cell) (value : Int) : Store :=
  fun other => if other = cell then value else store other

/-- The store with the cells of an array from an index on set to zero. -/
def clear (store : Store) (owner : Variable) (first length : Nat) : Store := fun cell =>
  if cell.owner = owner ∧ first ≤ cell.index ∧ cell.index < length then 0 else store cell

end Store

/-- The variable that a name means if some names have been declared in the main function. -/
def meant (locals : List String) (name : String) : Variable := ⟨decide (name ∈ locals), name⟩

/-- The cell that a reference means. -/
def Reference.cell (locals : List String) (target : Reference) : Cell :=
  ⟨meant locals target.name, (target.index.map Numeral.value).getD 0⟩

/-! ### Expressions -/

/-- One for true and zero for false. -/
def flag (holds : Bool) : Int := if holds then 1 else 0

/-- The product; there is no quotient. -/
def MulSign.apply? : MulSign → Int → Int → Option Int
  | .times, a, b => some (a * b)
  | .slash, _, _ => none

/-- The sum or the difference. -/
def AddSign.apply : AddSign → Int → Int → Int
  | .plus, a, b => a + b
  | .minus, a, b => a - b

/-- Whether two values compare; logical operators have no value. -/
def LogicSign.apply? : LogicSign → Int → Int → Option Int
  | .less, a, b => some (flag (a < b))
  | .greater, a, b => some (flag (a > b))
  | .lessEqual, a, b => some (flag (a ≤ b))
  | .greaterEqual, a, b => some (flag (a ≥ b))
  | .notEqual, a, b => some (flag (a ≠ b))
  | .equal, a, b => some (flag (a = b))
  | .both, _, _ => none
  | .either, _, _ => none

namespace Expr

/-- The value of an expression and the store after it. The left operand comes first. -/
def eval (locals : List String) : {level : Level} → Expr level → Store → Option (Int × Store)
  | _, .number value, store => some (value.value, store)
  | _, .variable target, store => some (store (target.cell locals), store)
  | _, .group inner, store => inner.eval locals store
  | _, .factor only, store => only.eval locals store
  | _, .times left sign right, store => do
    let (a, store) ← left.eval locals store
    let (b, store) ← right.eval locals store
    let value ← sign.apply? a b
    some (value, store)
  | _, .product only, store => only.eval locals store
  | _, .plus left sign right, store => do
    let (a, store) ← left.eval locals store
    let (b, store) ← right.eval locals store
    some (sign.apply a b, store)
  | _, .sum only, store => only.eval locals store
  | _, .compare left sign right, store => do
    let (a, store) ← left.eval locals store
    let (b, store) ← right.eval locals store
    let value ← sign.apply? a b
    some (value, store)
  | _, .logical only, store => only.eval locals store
  | _, .assign target value, store => do
    let (a, store) ← value.eval locals store
    some (a, store.set (target.cell locals) a)
  | _, .plainCall _, _ => none
  | _, .call _ _, _ => none
  | _, .argument _, _ => none
  | _, .further _ _, _ => none

/-- Whether an expression is of the core: it has no call, no quotient and no logical operator, and
no number that is too long to be read. -/
def isCore : {level : Level} → Expr level → Bool
  | _, .number value => value.digits.toList.length ≤ Text.maxDigits
  | _, .variable _ => true
  | _, .group inner => inner.isCore
  | _, .factor only => only.isCore
  | _, .times left sign right => left.isCore && sign = .times && right.isCore
  | _, .product only => only.isCore
  | _, .plus left _ right => left.isCore && right.isCore
  | _, .sum only => only.isCore
  | _, .compare left sign right =>
    left.isCore && (sign ≠ .both && sign ≠ .either) && right.isCore
  | _, .logical only => only.isCore
  | _, .assign _ value => value.isCore
  | _, .plainCall _ => false
  | _, .call _ _ => false
  | _, .argument _ => false
  | _, .further _ _ => false

/-- An expression of the core has a value. -/
theorem exists_eval {level : Level} {e : Expr level} (h : e.isCore = true) (locals : List String)
    (store : Store) : ∃ value after, e.eval locals store = some (value, after) := by
  induction e generalizing store with
  | number value => exact ⟨_, _, rfl⟩
  | «variable» target => exact ⟨_, _, rfl⟩
  | group inner ih | factor inner ih | product inner ih | sum inner ih | logical inner ih =>
    exact ih h store
  | times left sign right ihLeft ihRight =>
    simp only [isCore, Bool.and_eq_true, decide_eq_true_eq] at h
    obtain ⟨⟨hleft, rfl⟩, hright⟩ := h
    obtain ⟨a, first, ha⟩ := ihLeft hleft store
    obtain ⟨b, second, hb⟩ := ihRight hright first
    exact ⟨a * b, second, by simp [eval, ha, hb, MulSign.apply?]⟩
  | plus left sign right ihLeft ihRight =>
    simp only [isCore, Bool.and_eq_true] at h
    obtain ⟨a, first, ha⟩ := ihLeft h.1 store
    obtain ⟨b, second, hb⟩ := ihRight h.2 first
    exact ⟨sign.apply a b, second, by simp [eval, ha, hb]⟩
  | compare left sign right ihLeft ihRight =>
    simp only [isCore, Bool.and_eq_true, decide_eq_true_eq] at h
    obtain ⟨⟨hleft, hboth, heither⟩, hright⟩ := h
    obtain ⟨a, first, ha⟩ := ihLeft hleft store
    obtain ⟨b, second, hb⟩ := ihRight hright first
    obtain ⟨value, hvalue⟩ : ∃ value, sign.apply? a b = some value := by
      cases sign <;> first | exact ⟨_, rfl⟩ | contradiction
    exact ⟨value, second, by simp [eval, ha, hb, hvalue]⟩
  | assign target value ih =>
    obtain ⟨a, first, ha⟩ := ih h store
    exact ⟨a, first.set (target.cell locals) a, by simp [eval, ha]⟩
  | plainCall | call | argument | further => exact Bool.noConfusion h

end Expr

/-! ### Configurations -/

/-- A line of input that spells an integer. -/
structure Entered where
  text : String
  value : Int
  readInteger_text : Text.readInteger text = .ok value

/-- What the user sees of a run. -/
inductive Shown where
  | prompt
  | value (n : Int)
  deriving DecidableEq, Repr

/-- How it is shown on the console. -/
def Shown.text : Shown → String
  | .prompt => inputPrompt
  | .value n => outputReport (toString n)

/-- Whether it has not too many digits to be shown. -/
def Shown.Fits : Shown → Prop
  | .prompt => True
  | .value n => n.natAbs < Text.writeLimit

/-- What a run has come to. -/
structure Config where
  /-- The values of the cells. -/
  store : Store
  /-- The input that is left. -/
  input : List Entered
  /-- What the user has seen. -/
  shown : List Shown

/-- An expression has a value in a configuration, and leads to another one. -/
def Expr.Yields (locals : List String) {level : Level} (e : Expr level) (c : Config) (value : Int)
    (c' : Config) : Prop :=
  ∃ store, e.eval locals c.store = some (value, store) ∧ c' = { c with store := store }

theorem Expr.exists_yields {level : Level} {e : Expr level} (h : e.isCore = true)
    (locals : List String) (c : Config) : ∃ value c', e.Yields locals c value c' := by
  obtain ⟨value, store, heval⟩ := exists_eval h locals c.store
  exact ⟨value, _, store, heval, rfl⟩

theorem Expr.Yields.unique {locals : List String} {level : Level} {e : Expr level}
    {c c₁ c₂ : Config} {v₁ v₂ : Int} (h₁ : e.Yields locals c v₁ c₁) (h₂ : e.Yields locals c v₂ c₂) :
    v₁ = v₂ ∧ c₁ = c₂ := by
  obtain ⟨store₁, heval₁, rfl⟩ := h₁
  obtain ⟨store₂, heval₂, rfl⟩ := h₂
  obtain ⟨rfl, rfl⟩ := Prod.mk.inj (Option.some.inj (heval₁.symm.trans heval₂))
  exact ⟨rfl, rfl⟩

/-! ### Statements -/

/-- A loop: the body is run as long as the test is not zero. -/
inductive Loop (test : Config → Int → Config → Prop) (body : Config → Config → Prop) :
    Config → Config → Prop where
  /-- The test is zero. -/
  | stop {c c' : Config} : test c 0 c' → Loop test body c c'
  /-- The test is not zero, and the body is run before the loop goes on. -/
  | again {c c₁ c₂ c' : Config} {value : Int} :
      test c value c₁ → value ≠ 0 → body c₁ c₂ → Loop test body c₂ c' → Loop test body c c'

/-- A loop leads to one configuration at most if its body does. -/
theorem Loop.unique {test : Config → Int → Config → Prop} {body : Config → Config → Prop}
    {c c₁ c₂ : Config} (h₁ : Loop test body c c₁) (h₂ : Loop test body c c₂)
    (htest : ∀ {c c₁ c₂ : Config} {v₁ v₂ : Int}, test c v₁ c₁ → test c v₂ c₂ → v₁ = v₂ ∧ c₁ = c₂)
    (hbody : ∀ {c c₁ c₂ : Config}, body c c₁ → body c c₂ → c₁ = c₂) : c₁ = c₂ := by
  induction h₁ with
  | stop hzero =>
    cases h₂ with
    | stop hzero' => exact (htest hzero hzero').2
    | again hvalue hne _ _ => exact absurd (htest hvalue hzero).1 hne
  | again hvalue hne hround _ ih =>
    cases h₂ with
    | stop hzero => exact absurd (htest hvalue hzero).1 hne
    | again hvalue' _ hround' hrest' =>
      obtain ⟨-, rfl⟩ := htest hvalue hvalue'
      obtain rfl := hbody hround hround'
      exact ih hrest'

namespace Stmt

/-- A statement, or a sequence of statements, leads from one configuration to another one. -/
def Runs (locals : List String) : {part : Part} → Stmt part → Config → Config → Prop
  | _, .expression value, c, c' => ∃ v, value.Yields locals c v c'
  | _, .read _ target, c, c' => ∃ entered rest, c.input = entered :: rest ∧
    c' = ⟨c.store.set (target.cell locals) entered.value, rest, c.shown ++ [.prompt]⟩
  | _, .write _ value, c, c' => ∃ v d, value.Yields locals c v d ∧
    c' = { d with shown := d.shown ++ [.value v] }
  | _, .compound body, c, c' => body.Runs locals c c'
  | _, .ifThen _ test body, c, c' => ∃ v d, test.Yields locals c v d ∧
    if v = 0 then c' = d else body.Runs locals d c'
  | _, .ifElse _ test body otherwise, c, c' => ∃ v d, test.Yields locals c v d ∧
    if v = 0 then otherwise.Runs locals d c' else body.Runs locals d c'
  | _, .while _ test body, c, c' => Loop (test.Yields locals) (body.Runs locals) c c'
  | _, .doWhile body test, c, c' => ∃ d, body.Runs locals c d ∧
    Loop (test.Yields locals) (body.Runs locals) d c'
  | _, .for _ first test step body, c, c' => ∃ v d, first.Yields locals c v d ∧
    Loop (test.Yields locals)
      (fun a b => ∃ e w, body.Runs locals a e ∧ step.Yields locals e w b) d c'
  | _, .done, c, c' => c' = c
  | _, .next first rest, c, c' => ∃ d, first.Runs locals c d ∧ rest.Runs locals d c'
  | _, .empty, _, _ => False
  | _, .switch _ _ _ _ _, _, _ => False
  | _, .jump _, _, _ => False
  | _, .return _, _, _ => False
  | _, .noClause, _, _ => False
  | _, .default _ _, _, _ => False
  | _, .clause _ _ _ _, _, _ => False

/-- A statement leads to one configuration at most. -/
theorem Runs.unique {locals : List String} {part : Part} {s : Stmt part} {c c₁ c₂ : Config}
    (h₁ : s.Runs locals c c₁) (h₂ : s.Runs locals c c₂) : c₁ = c₂ := by
  induction s generalizing c c₁ c₂ with
  | expression value =>
    obtain ⟨_, h₁⟩ := h₁
    obtain ⟨_, h₂⟩ := h₂
    exact (h₁.unique h₂).2
  | read keyword target =>
    obtain ⟨entered, rest, hinput, rfl⟩ := h₁
    obtain ⟨entered', rest', hinput', rfl⟩ := h₂
    obtain ⟨rfl, rfl⟩ := List.cons.inj (hinput.symm.trans hinput')
    rfl
  | write keyword value =>
    obtain ⟨_, _, h₁, rfl⟩ := h₁
    obtain ⟨_, _, h₂, rfl⟩ := h₂
    obtain ⟨rfl, rfl⟩ := h₁.unique h₂
    rfl
  | compound body ih => exact ih h₁ h₂
  | ifThen keyword test body ih =>
    obtain ⟨v, d, htest, h₁⟩ := h₁
    obtain ⟨_, _, htest', h₂⟩ := h₂
    obtain ⟨rfl, rfl⟩ := htest.unique htest'
    by_cases hv : v = 0
    · rw [if_pos hv] at h₁ h₂
      exact h₁.trans h₂.symm
    · rw [if_neg hv] at h₁ h₂
      exact ih h₁ h₂
  | ifElse keyword test body otherwise ihBody ihOther =>
    obtain ⟨v, d, htest, h₁⟩ := h₁
    obtain ⟨_, _, htest', h₂⟩ := h₂
    obtain ⟨rfl, rfl⟩ := htest.unique htest'
    by_cases hv : v = 0
    · rw [if_pos hv] at h₁ h₂
      exact ihOther h₁ h₂
    · rw [if_neg hv] at h₁ h₂
      exact ihBody h₁ h₂
  | «while» keyword test body ih =>
    rw [Runs] at h₁ h₂
    exact h₁.unique h₂ Expr.Yields.unique ih
  | doWhile body test ih =>
    obtain ⟨d, hfirst, h₁⟩ := h₁
    obtain ⟨_, hfirst', h₂⟩ := h₂
    obtain rfl := ih hfirst hfirst'
    exact h₁.unique h₂ Expr.Yields.unique ih
  | «for» keyword first test step body ih =>
    obtain ⟨_, d, hfirst, h₁⟩ := h₁
    obtain ⟨_, _, hfirst', h₂⟩ := h₂
    obtain ⟨-, rfl⟩ := hfirst.unique hfirst'
    refine h₁.unique h₂ Expr.Yields.unique ?_
    rintro c c₁ c₂ ⟨e, _, hbody, hstep⟩ ⟨_, _, hbody', hstep'⟩
    obtain rfl := ih hbody hbody'
    exact (hstep.unique hstep').2
  | done => exact h₁.trans h₂.symm
  | next first rest ihFirst ihRest =>
    obtain ⟨d, hfirst, h₁⟩ := h₁
    obtain ⟨_, hfirst', h₂⟩ := h₂
    obtain rfl := ihFirst hfirst hfirst'
    exact ihRest h₁ h₂
  | empty => exact h₁.elim
  | switch test keyword number body rest => exact h₁.elim
  | jump keyword => exact h₁.elim
  | «return» value => exact h₁.elim
  | noClause => exact h₁.elim
  | default keyword body => exact h₁.elim
  | clause keyword number body rest => exact h₁.elim

/-- Whether a statement is of the core. -/
def isCore : {part : Part} → Stmt part → Bool
  | _, .expression value => value.isCore
  | _, .read _ _ => true
  | _, .write _ value => value.isCore
  | _, .compound body => body.isCore
  | _, .ifThen _ test body => test.isCore && body.isCore
  | _, .ifElse _ test body otherwise => test.isCore && body.isCore && otherwise.isCore
  | _, .while _ test body => test.isCore && body.isCore
  | _, .doWhile body test => body.isCore && test.isCore
  | _, .for _ first test step body => first.isCore && test.isCore && step.isCore && body.isCore
  | _, .done => true
  | _, .next first rest => first.isCore && rest.isCore
  | _, .empty => false
  | _, .switch _ _ _ _ _ => false
  | _, .jump _ => false
  | _, .return _ => false
  | _, .noClause => false
  | _, .default _ _ => false
  | _, .clause _ _ _ _ => false

end Stmt

/-! ### Declarations -/

namespace Declarator

/-- The declared name. -/
def name : Declarator → String
  | .plain name => name
  | .initial name _ => name
  | .array name _ => name
  | .filled name _ _ => name

/-- The number of cells of the declared variable. -/
def length : Declarator → Nat
  | .plain _ => 1
  | .initial _ _ => 1
  | .array _ length => length.value
  | .filled _ length _ => length.value

/-- The cells of the declared variable. -/
def cells (isLocal : Bool) (declarator : Declarator) : List Cell :=
  (List.range declarator.length).map (⟨⟨isLocal, declarator.name⟩, ·⟩)

/-- Whether a declarator is of the core: its values are, and an array has an element. -/
def isCore : Declarator → Bool
  | .plain _ => true
  | .initial _ value => value.isCore
  | .array _ length => 1 ≤ length.value
  | .filled _ length values => decide (1 ≤ length.value) && values.all Expr.isCore

/-- A variable of the core has a cell. -/
theorem length_pos {declarator : Declarator} (h : declarator.isCore = true) :
    0 < declarator.length := by
  cases declarator with
  | plain name => exact Nat.one_pos
  | initial name value => exact Nat.one_pos
  | array name length => exact of_decide_eq_true h
  | filled name length values =>
    rw [isCore, Bool.and_eq_true] at h
    exact of_decide_eq_true h.1

/-- The elements of an array are set one after the other; a surplus value is dropped. The elements
for which there is no value become zero. -/
def fill (locals : List String) (owner : Variable) (length : Nat) :
    Nat → List (Expr .logical) → Store → Option Store
  | index, [], store => some (store.clear owner index length)
  | index, value :: values, store => do
    let (v, store) ← value.eval locals store
    fill locals owner length (index + 1) values
      (if index < length then store.set ⟨owner, index⟩ v else store)

/-- The store after a declaration. -/
def run (isLocal : Bool) (locals : List String) : Declarator → Store → Option Store
  | .plain _, store => some store
  | .initial name value, store => do
    let (v, store) ← value.eval locals store
    some (store.set ⟨⟨isLocal, name⟩, 0⟩ v)
  | .array _ _, store => some store
  | .filled name length values, store => fill locals ⟨isLocal, name⟩ length.value 0 values store

/-- The names of the main function after a declaration. -/
def enter (isLocal : Bool) (locals : List String) (declarator : Declarator) : List String :=
  if isLocal then declarator.name :: locals else locals

/-- The names of the main function and the store after some declarations. -/
def runAll (isLocal : Bool) : List String → List Declarator → Store → Option (List String × Store)
  | locals, [], store => some (locals, store)
  | locals, declarator :: rest, store => do
    let locals := declarator.enter isLocal locals
    let store ← declarator.run isLocal locals store
    runAll isLocal locals rest store

theorem exists_fill {values : List (Expr .logical)} (h : values.all Expr.isCore = true)
    (locals : List String) (owner : Variable) (length index : Nat) (store : Store) :
    ∃ after, fill locals owner length index values store = some after := by
  induction values generalizing index store with
  | nil => exact ⟨_, rfl⟩
  | cons value values ih =>
    rw [List.all_cons, Bool.and_eq_true] at h
    obtain ⟨v, first, hv⟩ := Expr.exists_eval h.1 locals store
    obtain ⟨after, hafter⟩ := ih h.2 (index + 1) (if index < length then first.set ⟨owner, index⟩ v
      else first)
    exact ⟨after, by simp [fill, hv, hafter]⟩

/-- A declaration of the core leads to a store. -/
theorem exists_run {declarator : Declarator} (h : declarator.isCore = true) (isLocal : Bool)
    (locals : List String) (store : Store) : ∃ after, declarator.run isLocal locals store = some
    after := by
  cases declarator with
  | plain name => exact ⟨store, rfl⟩
  | initial name value =>
    obtain ⟨v, first, hv⟩ := Expr.exists_eval h locals store
    exact ⟨first.set ⟨⟨isLocal, name⟩, 0⟩ v, by simp [run, hv]⟩
  | array name length => exact ⟨store, rfl⟩
  | filled name length values =>
    rw [isCore, Bool.and_eq_true] at h
    exact exists_fill h.2 locals ⟨isLocal, name⟩ length.value 0 store

theorem exists_runAll {declarators : List Declarator}
    (h : ∀ declarator ∈ declarators, declarator.isCore = true) (isLocal : Bool)
    (locals : List String) (store : Store) :
    ∃ locals' after, runAll isLocal locals declarators store = some (locals', after) := by
  induction declarators generalizing locals store with
  | nil => exact ⟨_, _, rfl⟩
  | cons declarator declarators ih =>
    obtain ⟨first, hfirst⟩ :=
      exists_run (h declarator (by simp)) isLocal (declarator.enter isLocal locals) store
    obtain ⟨locals', after, hafter⟩ := ih (fun d hd => h d (by simp [hd]))
      (declarator.enter isLocal locals) first
    exact ⟨locals', after, by simp [runAll, hfirst, hafter]⟩

end Declarator

/-! ### Programs -/

namespace Program

/-- The cells of the variables of a program in the order of their declarations. -/
def cells (program : Program) : List Cell :=
  (declarators program.globals).flatMap (Declarator.cells false) ++
    (declarators program.body.declarations).flatMap (Declarator.cells true)

/-- No name is declared twice in the same place. -/
def WellNamed (program : Program) : Prop :=
  ((declarators program.globals).map Declarator.name).Nodup ∧
    ((declarators program.body.declarations).map Declarator.name).Nodup

/-- Whether a program is of the core. -/
def isCore (program : Program) : Bool :=
  program.functions.isEmpty && (declarators program.globals).all Declarator.isCore &&
    (declarators program.body.declarations).all Declarator.isCore && program.body.steps.isCore

/-- A program comes to its end in a configuration if some input is given to it: the global
declarations come first, then those of the main function, and then its statements. -/
def Evaluates (program : Program) (input : List Entered) (final : Config) : Prop :=
  ∃ globals locals store,
    Declarator.runAll false [] (declarators program.globals) .zero = some ([], globals) ∧
    Declarator.runAll true [] (declarators program.body.declarations) globals
      = some (locals, store) ∧
    program.body.steps.Runs locals ⟨store, input, []⟩ final

/-- **Determinism**: a program ends in one configuration at most. -/
theorem Evaluates.unique {program : Program} {input : List Entered} {final final' : Config}
    (h : program.Evaluates input final) (h' : program.Evaluates input final') : final = final' := by
  obtain ⟨globals, locals, store, hglobals, hlocals, hruns⟩ := h
  obtain ⟨globals', locals', store', hglobals', hlocals', hruns'⟩ := h'
  obtain ⟨-, rfl⟩ := Prod.mk.inj (Option.some.inj (hglobals.symm.trans hglobals'))
  obtain ⟨rfl, rfl⟩ := Prod.mk.inj (Option.some.inj (hlocals.symm.trans hlocals'))
  exact hruns.unique hruns'

end Program

end ScoreLang
