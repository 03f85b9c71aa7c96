import ScoreLang.Proofs.Code.Expression
import ScoreLang.Proofs.Syntax.Statement

/-!
# The Code of Statements

`Stmt.code` is the code of a statement by recursion on the statement. Beside the scopes it depends
on the marks: the number of the label used last, and the labels at which a `break` and a `continue`
go on. Marks are changed by a statement and handed on to the next one, so that a jump goes where
the last loop or switch has set its label, be the jump inside it or after it.

`Stmt.Coded` is the same as a relation, with a rule for each form of statement. What is true of all
code is proved by induction on its rules.

A statement is *plain* if no semicolon stands alone in it.
-/

namespace ScoreLang

/-- A switch whose clauses after the first one are translated. -/
structure Opened where
  /-- The command that loads the value of the switch. -/
  line : CodeLine
  clauses : Generate.Clauses

/-- What a jump goes by: only the lower-case spelling of `break` is known as such. -/
def Jump.target (marks : Marks) (jump : Jump) : Option String :=
  if jump.text = "break" then marks.breakLabel else marks.continueLabel

/-- The test of a clause of a switch: the value is on the stack, or loaded before. -/
def clauseTest (number : Numeral) (next : String) : List CodeLine :=
  [Operation.push.line number.digits, Operation.equal.line "", Operation.branchFalse.line next]

/-- What becomes of the labels of jumps at the end of a loop or a switch. -/
inductive JumpScope where
  /-- They are those of the last loop or switch, as in `Stmt.code`. -/
  | lasting
  /-- They are again those from before the loop or the switch. -/
  | lexical
  deriving DecidableEq, Repr

/-- The marks after a loop or a switch, from those before it and those at its end. -/
def JumpScope.after : JumpScope → Marks → Marks → Marks
  | .lasting, _, m' => m'
  | .lexical, m, m' => ⟨m'.labels, m.breakLabel, m.continueLabel⟩

namespace Stmt

/-- The code of a statement, of a sequence of statements, or of the clauses of an opened switch. -/
def code (scopes : Scopes) (result : String) :
    {part : Part} → Stmt part → Option Opened → Marks → Option (List CodeLine × Marks)
  | _, .empty, _, m => some ([], m)
  | _, .expression value, _, m => do
    let lines ← value.code scopes
    some (lines ++ [Operation.pop.line ""], m)
  | _, .read _ target, _, m => do
    let cell ← target.cell? scopes
    some ([Operation.input.line "", Operation.store.line cell, Operation.pop.line ""], m)
  | _, .write _ value, _, m => do
    let lines ← value.code scopes
    some (lines ++ [Operation.output.line ""], m)
  | _, .compound body, _, m => body.code scopes result none m
  | _, .ifThen _ test body, _, m => do
    let lines ← test.code scopes
    let (inner, m') ← body.code scopes result none (m.use 2)
    some (lines ++ [Operation.branchFalse.line (m.label 1)] ++ inner ++
      [Operation.branch.line (m.label 2), .label (m.label 1), .label (m.label 2)], m')
  | _, .ifElse _ test body otherwise, _, m => do
    let lines ← test.code scopes
    let (inner, m') ← body.code scopes result none (m.use 2)
    let (other, m'') ← otherwise.code scopes result none m'
    some (lines ++ [Operation.branchFalse.line (m.label 1)] ++ inner ++
      [Operation.branch.line (m.label 2), .label (m.label 1)] ++ other ++ [.label (m.label 2)], m'')
  | _, .while _ test body, _, m => do
    let lines ← test.code scopes
    let (inner, m') ← body.code scopes result none (m.loop 2 (m.label 2) (m.label 1))
    some ([.label (m.label 1)] ++ lines ++ [Operation.branchFalse.line (m.label 2)] ++ inner ++
      [Operation.branch.line (m.label 1), .label (m.label 2)], m')
  | _, .doWhile body test, _, m => do
    let (inner, m') ← body.code scopes result none (m.loop 2 (m.label 2) (m.label 1))
    let lines ← test.code scopes
    some ([.label (m.label 1)] ++ inner ++ lines ++ [Operation.branchFalse.line (m.label 2),
      Operation.branch.line (m.label 1), .label (m.label 2)], m')
  | _, .for _ first test step body, _, m => do
    let start ← first.code scopes
    let check ← test.code scopes
    let move ← step.code scopes
    let (inner, m') ← body.code scopes result none (m.loop 4 (m.label 4) (m.label 3))
    some (start ++ [.label (m.label 1)] ++ check ++ [Operation.branchFalse.line (m.label 4),
      Operation.branch.line (m.label 2), .label (m.label 3)] ++ move ++
      [Operation.branch.line (m.label 1), .label (m.label 2)] ++ inner ++
      [Operation.branch.line (m.label 3), .label (m.label 4)], m')
  | _, .switch test _ number body rest, _, m => do
    let lines ← test.code scopes
    let line ← lines.getLast?
    let (inner, m') ← body.code scopes result none
      ⟨m.labels + 3, some (m.label 1), m.continueLabel⟩
    let (more, m'') ← rest.code scopes result
      (some ⟨line, ⟨m.label 2, m.label 3, [number.digits]⟩⟩) m'
    some (lines ++ clauseTest number (m.label 2) ++ inner ++ [Operation.branch.line (m.label 3)] ++
      more ++ [.label (m.label 1)], m'')
  | _, .jump keyword, _, m =>
    if m.breakLabel = none ∧ m.continueLabel = none then none
    else some ([Operation.branch.line (Generate.jumpTarget (keyword.target m))], m)
  | _, .return value, _, m => do
    let lines ← value.code scopes
    some (lines ++ [Operation.store.line result, Operation.pop.line ""], m)
  | _, .done, _, m => some ([], m)
  | _, .next first rest, _, m => do
    let (lines, m') ← first.code scopes result none m
    let (others, m'') ← rest.code scopes result none m'
    some (lines ++ others, m'')
  | _, .noClause, some opened, m =>
    some ([.label opened.clauses.test, .label opened.clauses.body], m)
  | _, .default _ body, some opened, m => do
    let (inner, m') ← body.code scopes result none m
    some ([.label opened.clauses.test, .label opened.clauses.body] ++ inner, m')
  | _, .clause _ number body rest, some opened, m => do
    if number.digits ∈ opened.clauses.numbers then none
    else
      let (inner, m') ← body.code scopes result none (m.use 2)
      let (more, m'') ← rest.code scopes result
        (some ⟨opened.line, ⟨m.label 1, m.label 2, number.digits :: opened.clauses.numbers⟩⟩) m'
      some ([.label opened.clauses.test, opened.line] ++ clauseTest number (m.label 1) ++
        [.label opened.clauses.body] ++ inner ++ [Operation.branch.line (m.label 2)] ++ more, m'')
  | _, .noClause, none, _ => none
  | _, .default _ _, none, _ => none
  | _, .clause _ _ _ _, none, _ => none

/-! ### The code as a relation -/

/-- The code of a statement, of a sequence of statements, or of the clauses of an opened switch,
with one rule for each form. -/
inductive Coded (scoping : JumpScope) (scopes : Scopes) (result : String) :
    {part : Part} → Stmt part → Option Opened → Marks → List CodeLine → Marks → Prop where
  | empty {opened : Option Opened} {m : Marks} : Coded scoping scopes result .empty opened m [] m
  | expression {value : Expr .expression} {opened : Option Opened} {m : Marks}
      {lines : List CodeLine} : value.code scopes = some lines →
      Coded scoping scopes result (.expression value) opened m (lines ++ [Operation.pop.line ""]) m
  | read {keyword : Spelling "read"} {target : Reference} {opened : Option Opened} {m : Marks}
      {cell : String} : target.cell? scopes = some cell →
      Coded scoping scopes result (.read keyword target) opened m
        [Operation.input.line "", Operation.store.line cell, Operation.pop.line ""] m
  | write {keyword : Spelling "write"} {value : Expr .expression} {opened : Option Opened}
      {m : Marks} {lines : List CodeLine} : value.code scopes = some lines →
      Coded scoping scopes result (.write keyword value) opened m
        (lines ++ [Operation.output.line ""]) m
  | compound {body : Stmt .statements} {opened : Option Opened} {m m' : Marks}
      {lines : List CodeLine} : Coded scoping scopes result body none m lines m' →
      Coded scoping scopes result (.compound body) opened m lines m'
  | ifThen {dangling : Bool} {keyword : Spelling "if"} {test : Expr .expression}
      {body : Stmt (.statement dangling)} {opened : Option Opened} {m m' : Marks}
      {lines inner : List CodeLine} : test.code scopes = some lines →
      Coded scoping scopes result body none (m.use 2) inner m' →
      Coded scoping scopes result (.ifThen keyword test body) opened m
        (lines ++ [Operation.branchFalse.line (m.label 1)] ++ inner ++
          [Operation.branch.line (m.label 2), .label (m.label 1), .label (m.label 2)]) m'
  | ifElse {dangling : Bool} {keyword : Spelling "if"} {test : Expr .expression}
      {body : Stmt (.statement false)} {otherwise : Stmt (.statement dangling)}
      {opened : Option Opened} {m m' m'' : Marks} {lines inner other : List CodeLine} :
      test.code scopes = some lines → Coded scoping scopes result body none (m.use 2) inner m' →
      Coded scoping scopes result otherwise none m' other m'' →
      Coded scoping scopes result (.ifElse keyword test body otherwise) opened m
        (lines ++ [Operation.branchFalse.line (m.label 1)] ++ inner ++
          [Operation.branch.line (m.label 2), .label (m.label 1)] ++ other ++
          [.label (m.label 2)]) m''
  | while {dangling : Bool} {keyword : Spelling "while"} {test : Expr .expression}
      {body : Stmt (.statement dangling)} {opened : Option Opened} {m m' : Marks}
      {lines inner : List CodeLine} : test.code scopes = some lines →
      Coded scoping scopes result body none (m.loop 2 (m.label 2) (m.label 1)) inner m' →
      Coded scoping scopes result (.while keyword test body) opened m
        ([.label (m.label 1)] ++ lines ++ [Operation.branchFalse.line (m.label 2)] ++ inner ++
          [Operation.branch.line (m.label 1), .label (m.label 2)]) (scoping.after m m')
  | doWhile {dangling : Bool} {body : Stmt (.statement dangling)} {test : Expr .expression}
      {opened : Option Opened} {m m' : Marks} {lines inner : List CodeLine} :
      Coded scoping scopes result body none (m.loop 2 (m.label 2) (m.label 1)) inner m' →
      test.code scopes = some lines →
      Coded scoping scopes result (.doWhile body test) opened m
        ([.label (m.label 1)] ++ inner ++ lines ++ [Operation.branchFalse.line (m.label 2),
          Operation.branch.line (m.label 1), .label (m.label 2)]) (scoping.after m m')
  | for {dangling : Bool} {keyword : Spelling "for"} {first test step : Expr .expression}
      {body : Stmt (.statement dangling)} {opened : Option Opened} {m m' : Marks}
      {start check move inner : List CodeLine} : first.code scopes = some start →
      test.code scopes = some check → step.code scopes = some move →
      Coded scoping scopes result body none (m.loop 4 (m.label 4) (m.label 3)) inner m' →
      Coded scoping scopes result (.for keyword first test step body) opened m
        (start ++ [.label (m.label 1)] ++ check ++ [Operation.branchFalse.line (m.label 4),
          Operation.branch.line (m.label 2), .label (m.label 3)] ++ move ++
          [Operation.branch.line (m.label 1), .label (m.label 2)] ++ inner ++
          [Operation.branch.line (m.label 3), .label (m.label 4)]) (scoping.after m m')
  | switch {test : Expr .expression} {keyword : Spelling "case"} {number : Numeral}
      {body : Stmt .statements} {rest : Stmt .clauses} {opened : Option Opened} {m m' m'' : Marks}
      {line : CodeLine} {lines inner more : List CodeLine} : test.code scopes = some lines →
      lines.getLast? = some line →
      Coded scoping scopes result body none ⟨m.labels + 3, some (m.label 1), m.continueLabel⟩ inner
        m' →
      Coded scoping scopes result rest (some ⟨line, ⟨m.label 2, m.label 3, [number.digits]⟩⟩)
        m' more m'' →
      Coded scoping scopes result (.switch test keyword number body rest) opened m
        (lines ++ clauseTest number (m.label 2) ++ inner ++ [Operation.branch.line (m.label 3)] ++
          more ++ [.label (m.label 1)]) (scoping.after m m'')
  | jump {keyword : Jump} {opened : Option Opened} {m : Marks} :
      ¬(m.breakLabel = none ∧ m.continueLabel = none) →
      Coded scoping scopes result (.jump keyword) opened m
        [Operation.branch.line (Generate.jumpTarget (keyword.target m))] m
  | return {value : Expr .expression} {opened : Option Opened} {m : Marks}
      {lines : List CodeLine} : value.code scopes = some lines →
      Coded scoping scopes result (.return value) opened m
        (lines ++ [Operation.store.line result, Operation.pop.line ""]) m
  | done {opened : Option Opened} {m : Marks} : Coded scoping scopes result .done opened m [] m
  | next {dangling : Bool} {first : Stmt (.statement dangling)} {rest : Stmt .statements}
      {opened : Option Opened} {m m' m'' : Marks} {lines others : List CodeLine} :
      Coded scoping scopes result first none m lines m' →
      Coded scoping scopes result rest none m' others m'' →
      Coded scoping scopes result (.next first rest) opened m (lines ++ others) m''
  | noClause {opened : Opened} {m : Marks} :
      Coded scoping scopes result .noClause (some opened) m
        [.label opened.clauses.test, .label opened.clauses.body] m
  | default {keyword : Spelling "default"} {body : Stmt .statements} {opened : Opened}
      {m m' : Marks} {inner : List CodeLine} : Coded scoping scopes result body none m inner m' →
      Coded scoping scopes result (.default keyword body) (some opened) m
        ([.label opened.clauses.test, .label opened.clauses.body] ++ inner) m'
  | clause {keyword : Spelling "case"} {number : Numeral} {body : Stmt .statements}
      {rest : Stmt .clauses} {opened : Opened} {m m' m'' : Marks} {inner more : List CodeLine} :
      number.digits ∉ opened.clauses.numbers →
      Coded scoping scopes result body none (m.use 2) inner m' →
      Coded scoping scopes result rest
        (some ⟨opened.line, ⟨m.label 1, m.label 2, number.digits :: opened.clauses.numbers⟩⟩)
        m' more
        m'' →
      Coded scoping scopes result (.clause keyword number body rest) (some opened) m
        ([.label opened.clauses.test, opened.line] ++ clauseTest number (m.label 1) ++
          [.label opened.clauses.body] ++ inner ++ [Operation.branch.line (m.label 2)] ++ more) m''

/-- What `code` gives is the code. -/
theorem coded {scopes : Scopes} {result : String} {part : Part} {s : Stmt part}
    {opened : Option Opened} {m m' : Marks} {lines : List CodeLine}
    (h : s.code scopes result opened m = some (lines, m')) :
    Coded .lasting scopes result s opened m lines m' := by
  induction s generalizing opened m m' lines with
  | empty | done =>
    simp only [code, Option.some.injEq, Prod.mk.injEq] at h
    obtain ⟨rfl, rfl⟩ := h
    constructor
  | expression value | write keyword value | «return» value =>
    simp only [code, bind_eq_some, Option.some.injEq, Prod.mk.injEq] at h
    obtain ⟨_, hvalue, rfl, rfl⟩ := h
    constructor
    exact hvalue
  | read keyword target =>
    simp only [code, bind_eq_some, Option.some.injEq, Prod.mk.injEq] at h
    obtain ⟨_, hcell, rfl, rfl⟩ := h
    exact .read hcell
  | compound body ih => exact .compound (ih h)
  | ifThen keyword test body ih =>
    simp only [code, bind_eq_some, Option.some.injEq, Prod.mk.injEq, Prod.exists] at h
    obtain ⟨_, htest, _, _, hbody, rfl, rfl⟩ := h
    exact .ifThen htest (ih hbody)
  | ifElse keyword test body otherwise ih ih' =>
    simp only [code, bind_eq_some, Option.some.injEq, Prod.mk.injEq, Prod.exists] at h
    obtain ⟨_, htest, _, _, hbody, _, _, hother, rfl, rfl⟩ := h
    exact .ifElse htest (ih hbody) (ih' hother)
  | «while» keyword test body ih =>
    simp only [code, bind_eq_some, Option.some.injEq, Prod.mk.injEq, Prod.exists] at h
    obtain ⟨_, htest, _, _, hbody, rfl, rfl⟩ := h
    exact .while htest (ih hbody)
  | doWhile body test ih =>
    simp only [code, bind_eq_some, Option.some.injEq, Prod.mk.injEq, Prod.exists] at h
    obtain ⟨_, _, hbody, _, htest, rfl, rfl⟩ := h
    exact .doWhile (ih hbody) htest
  | «for» keyword first test step body ih =>
    simp only [code, bind_eq_some, Option.some.injEq, Prod.mk.injEq, Prod.exists] at h
    obtain ⟨_, hfirst, _, htest, _, hstep, _, _, hbody, rfl, rfl⟩ := h
    exact .for hfirst htest hstep (ih hbody)
  | switch test keyword number body rest ih ih' =>
    simp only [code, bind_eq_some, Option.some.injEq, Prod.mk.injEq, Prod.exists] at h
    obtain ⟨_, htest, _, hline, _, _, hbody, _, _, hrest, rfl, rfl⟩ := h
    exact .switch htest hline (ih hbody) (ih' hrest)
  | jump keyword =>
    simp only [code, Option.ite_none_left_eq_some, Option.some.injEq, Prod.mk.injEq] at h
    obtain ⟨hmarks, rfl, rfl⟩ := h
    exact .jump hmarks
  | next first rest ih ih' =>
    simp only [code, bind_eq_some, Option.some.injEq, Prod.mk.injEq, Prod.exists] at h
    obtain ⟨_, _, hfirst, _, _, hrest, rfl, rfl⟩ := h
    exact .next (ih hfirst) (ih' hrest)
  | noClause =>
    cases opened with
    | none => simp [code] at h
    | some opened =>
      simp only [code, Option.some.injEq, Prod.mk.injEq] at h
      obtain ⟨rfl, rfl⟩ := h
      exact .noClause
  | default keyword body ih =>
    cases opened with
    | none => simp [code] at h
    | some opened =>
      simp only [code, bind_eq_some, Option.some.injEq, Prod.mk.injEq, Prod.exists] at h
      obtain ⟨_, _, hbody, rfl, rfl⟩ := h
      exact .default (ih hbody)
  | clause keyword number body rest ih ih' =>
    cases opened with
    | none => simp [code] at h
    | some opened =>
      simp only [code, Option.ite_none_left_eq_some, bind_eq_some, Option.some.injEq,
        Prod.mk.injEq, Prod.exists] at h
      obtain ⟨hnumber, _, _, hbody, _, _, hrest, rfl, rfl⟩ := h
      exact .clause hnumber (ih hbody) (ih' hrest)

/-- Whether no semicolon stands alone. -/
def plain : {part : Part} → Stmt part → Bool
  | _, .empty => false
  | _, .compound body => body.plain
  | _, .ifThen _ _ body => body.plain
  | _, .ifElse _ _ body otherwise => body.plain && otherwise.plain
  | _, .while _ _ body => body.plain
  | _, .doWhile body _ => body.plain
  | _, .for _ _ _ _ body => body.plain
  | _, .switch _ _ _ body rest => body.plain && rest.plain
  | _, .next first rest => first.plain && rest.plain
  | _, .default _ body => body.plain
  | _, .clause _ _ body rest => body.plain && rest.plain
  | _, _ => true

end Stmt

end ScoreLang
