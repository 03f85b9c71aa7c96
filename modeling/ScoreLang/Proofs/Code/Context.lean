import ScoreLang.Proofs.Meaning

/-!
# What a Phrase Needs Around It

An expression uses names, which have to be declared before it, and a `break` or a `continue` needs a
loop or a switch before it. This module says which names a program uses, and which ones are declared
at each use.

A *vocabulary* holds the names that are declared at a place: the variables and the functions. An
*occurrence* is the use of a name together with the vocabulary at its place. The initial value of a
variable belongs to the place before its declaration, and the body of a function to a place where
the function is declared already.
-/

namespace ScoreLang

open List

/-! ### Uses -/

/-- The use of a name. -/
inductive Use where
  /-- As a variable, or as an array with an index. -/
  | variable (target : Reference)
  | call (name : String)

/-- The name that is used. -/
def Use.name : Use → String
  | .variable target => target.name
  | .call name => name

namespace Expr

/-- The uses of names in an expression. -/
def uses : {level : Level} → Expr level → List Use
  | _, .number _ => []
  | _, .variable target => [.variable target]
  | _, .group inner => inner.uses
  | _, .plainCall name => [.call name]
  | _, .call name given => .call name :: given.uses
  | _, .factor only => only.uses
  | _, .times left _ right => left.uses ++ right.uses
  | _, .product only => only.uses
  | _, .plus left _ right => left.uses ++ right.uses
  | _, .sum only => only.uses
  | _, .compare left _ right => left.uses ++ right.uses
  | _, .logical only => only.uses
  | _, .assign target value => .variable target :: value.uses
  | _, .argument only => only.uses
  | _, .further before last => before.uses ++ last.uses

end Expr

namespace Stmt

/-- The uses of names in a statement, in a sequence of statements, or in some clauses. -/
def uses : {part : Part} → Stmt part → List Use
  | _, .empty => []
  | _, .expression value => value.uses
  | _, .read _ target => [.variable target]
  | _, .write _ value => value.uses
  | _, .compound body => body.uses
  | _, .ifThen _ test body => test.uses ++ body.uses
  | _, .ifElse _ test body otherwise => test.uses ++ body.uses ++ otherwise.uses
  | _, .while _ test body => test.uses ++ body.uses
  | _, .doWhile body test => body.uses ++ test.uses
  | _, .for _ first test step body => first.uses ++ test.uses ++ step.uses ++ body.uses
  | _, .switch test _ _ body rest => test.uses ++ body.uses ++ rest.uses
  | _, .jump _ => []
  | _, .return value => value.uses
  | _, .done => []
  | _, .next first rest => first.uses ++ rest.uses
  | _, .noClause => []
  | _, .default _ body => body.uses
  | _, .clause _ _ body rest => body.uses ++ rest.uses

end Stmt

/-- The uses of names in the initial values of a declarator. -/
def Declarator.uses : Declarator → List Use
  | .initial _ value => value.uses
  | .filled _ _ values => values.flatMap Expr.uses
  | _ => []

/-! ### Occurrences -/

/-- The names that are declared at a place. -/
structure Vocabulary where
  /-- The variables, also those of a function and its parameters. -/
  vars : List String
  functions : List String

namespace Vocabulary

/-- All names of a vocabulary. -/
def names (v : Vocabulary) : List String := v.vars ++ v.functions

/-- The vocabulary after the declaration of a variable. -/
def declare (v : Vocabulary) (name : String) : Vocabulary := { v with vars := name :: v.vars }

/-- The vocabulary after some declarators. -/
def declareAll (v : Vocabulary) (declarators : List Declarator) : Vocabulary :=
  declarators.foldl (fun v declarator => v.declare declarator.name) v

/-- The vocabulary after a function. -/
def define (v : Vocabulary) (name : String) : Vocabulary :=
    { v with functions := name :: v.functions }

/-- The vocabulary at the beginning of the body of a function. -/
def enter (v : Vocabulary) (function : Function) : Vocabulary :=
  ⟨function.parameters ++ v.vars, function.name :: v.functions⟩

end Vocabulary

/-- The use of a name, and what is declared at its place. -/
structure Occurrence where
  use : Use
  known : Vocabulary

/-- The uses of names in some declarators. -/
def declaredOccurrences (v : Vocabulary) : List Declarator → List Occurrence
  | [] => []
  | declarator :: rest =>
    declarator.uses.map (⟨·, v⟩) ++ declaredOccurrences (v.declare declarator.name) rest

/-- The uses of names in a body. -/
def Body.occurrences (body : Body) (v : Vocabulary) : List Occurrence :=
  declaredOccurrences v (declarators body.declarations) ++
    body.steps.uses.map (⟨·, v.declareAll (declarators body.declarations)⟩)

/-- The uses of names in some functions. -/
def functionOccurrences (v : Vocabulary) : List Function → List Occurrence
  | [] => []
  | function :: rest =>
    function.body.occurrences (v.enter function) ++ functionOccurrences
      (v.define function.name) rest

namespace Program

/-- What is declared after the global declarations. -/
def globalVocabulary (program : Program) : Vocabulary :=
  Vocabulary.declareAll ⟨[], []⟩ (declarators program.globals)

/-- What is declared at the beginning of the main function. -/
def mainVocabulary (program : Program) : Vocabulary :=
  program.functions.foldl (fun v function => v.define function.name) program.globalVocabulary

/-- The uses of names in a program. -/
def occurrences (program : Program) : List Occurrence :=
  declaredOccurrences ⟨[], []⟩ (declarators program.globals) ++
    functionOccurrences program.globalVocabulary program.functions ++
    program.body.occurrences program.mainVocabulary

end Program

/-! ### Jumps -/

/-- Whether a loop or a switch begins with this label. -/
def Label.isLoop : Label → Bool
  | .rule .whileStatement | .rule .doWhile | .rule .forStatement | .rule .switchStatement => true
  | _ => false

/-- Whether every jump comes after the beginning of a loop or a switch. The flag says whether there
is one before the labels. -/
def guarded (after : Bool) : List Label → Bool
  | [] => true
  | label :: rest => (after || label != .rule .jump) && guarded (after || label.isLoop) rest

@[simp] theorem guarded_true (labels : List Label) : guarded true labels = true := by
  induction labels with
  | nil => rfl
  | cons label labels ih => simp [guarded, ih]

theorem guarded_append (after : Bool) (first second : List Label) :
    guarded after (first ++ second)
      = (guarded after first && guarded (after || first.any Label.isLoop) second) := by
  induction first generalizing after with
  | nil => simp [guarded]
  | cons label first ih => simp [guarded, ih, Bool.and_assoc, Bool.or_assoc]

/-- A label that is neither a jump nor the beginning of a loop or a switch. -/
def Label.isCalm (label : Label) : Bool := label != .rule .jump && !label.isLoop

/-- Calm labels do not matter. -/
theorem guarded_calm_append {after : Bool} {calm rest : List Label}
    (h : calm.all Label.isCalm = true) : guarded after (calm ++ rest) = guarded after rest := by
  induction calm with
  | nil => rfl
  | cons label calm ih =>
    simp only [all_cons, Label.isCalm, Bool.and_eq_true, Bool.not_eq_true'] at h
    rw [cons_append, guarded, h.1.1, h.1.2, Bool.or_true, Bool.true_and, Bool.or_false]
    exact ih h.2

@[simp] theorem isCalm_word (text : String) : (Label.word text).isCalm = true := rfl

@[simp] theorem isCalm_name (name : String) : (Label.name name).isCalm = true := rfl

@[simp] theorem isCalm_number (digits : String) : (Label.number digits).isCalm = true := rfl

@[simp] theorem isCalm_level (level : Level) : (Label.rule level.rule).isCalm = true := by
  cases level <;> rfl

theorem Reference.all_isCalm_labels (target : Reference) :
    target.labels.all Label.isCalm = true := by
  unfold Reference.labels
  cases target.index <;> rfl

namespace Expr

/-- There are no statements in an expression. -/
theorem all_isCalm_inside : {level : Level} → (e : Expr level) →
    e.inside.all Label.isCalm = true
  | _, .number _ => by simp
  | _, .variable target => by rw [inside_variable, target.all_isCalm_labels]
  | _, .plainCall _ => by
      rw [inside_plainCall]
      rfl
  | _, .call name given => by
      have hcall : (Label.rule .call).isCalm = true := rfl
      simp [-all_eq_true, labels, hcall, given.all_isCalm_inside]
  | _, .group only | _, .factor only | _, .product only | _, .sum only | _, .logical only
  | _, .argument only => by
      simp [-all_eq_true, labels, only.all_isCalm_inside]
  | _, .times left _ right | _, .plus left _ right | _, .compare left _ right
  | _, .further left right => by
      simp [-all_eq_true, labels, left.all_isCalm_inside, right.all_isCalm_inside]
  | _, .assign target value => by
      simp [-all_eq_true, labels, target.all_isCalm_labels, value.all_isCalm_inside]

theorem all_isCalm_labels {level : Level} (e : Expr level) :
    e.labels.all Label.isCalm = true := by
  rw [labels, all_cons, isCalm_level, e.all_isCalm_inside]
  rfl

@[simp] theorem guarded_labels_append {level : Level} (e : Expr level) (after : Bool)
    (rest : List Label) : guarded after (e.labels ++ rest) = guarded after rest :=
  guarded_calm_append e.all_isCalm_labels

end Expr

/-- A loop before the labels does no harm. -/
theorem guarded_of_guarded_false {labels : List Label} (h : guarded false labels = true)
    (after : Bool) : guarded after labels = true := by
  cases after with
  | false => exact h
  | true => exact guarded_true labels

/-! ### Programs without loose ends -/

/-- The variables of a body have different names, and its jumps come after the beginning of a loop
or a switch. -/
structure Body.Tidy (body : Body) : Prop where
  nodup : ((declarators body.declarations).map Declarator.name).Nodup
  guarded : guarded false body.steps.inside = true

/-- Every name that is used in a program has been declared, and its bodies are tidy. -/
structure Program.Named (program : Program) : Prop where
  /-- The names have been declared, be it as variables or as functions. -/
  declared : ∀ occurrence ∈ program.occurrences, occurrence.use.name ∈ occurrence.known.names
  /-- No global variable is declared twice. -/
  globals : ((declarators program.globals).map Declarator.name).Nodup
  /-- The functions are tidy. -/
  functions : ∀ function ∈ program.functions, function.body.Tidy
  /-- The main function is tidy. -/
  main : program.body.Tidy

end ScoreLang
