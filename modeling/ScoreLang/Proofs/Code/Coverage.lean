import ScoreLang.Proofs.Code.Segments

/-!
# Nothing Is Left Out

The generator follows the nodes of a tree with a cursor that every rule moves by hand. If no
semicolon stands alone in a program, then the cursor has been at every node when the generator is
done, and every statement has its code among the lines that are written: there is a command that
writes a number for each write statement, and one that reads a number for each read statement.

A semicolon that stands alone moves the cursor too far, so that the statement after it is left out.

## Main results

* `Stmt.all`: the statements of which a phrase consists;
* `Stmt.Coded.stands`: they have their code in that of the phrase;
* `Stmt.Coded.tally`: how often numbers are read and written;
* `generate_complete`: **nothing is left out** of a program in which no semicolon stands alone.
-/

namespace ScoreLang

open List

/-! ### Statements -/

namespace Stmt

/-- The statements of which a phrase consists, each one before those inside it. -/
def all : {part : Part} → Stmt part → List (Σ dangling, Stmt (.statement dangling))
  | _, .empty => [⟨_, .empty⟩]
  | _, .expression value => [⟨_, .expression value⟩]
  | _, .read keyword target => [⟨_, .read keyword target⟩]
  | _, .write keyword value => [⟨_, .write keyword value⟩]
  | _, .compound body => ⟨_, .compound body⟩ :: body.all
  | _, .ifThen keyword test body => ⟨_, .ifThen keyword test body⟩ :: body.all
  | _, .ifElse keyword test body otherwise =>
    ⟨_, .ifElse keyword test body otherwise⟩ :: (body.all ++ otherwise.all)
  | _, .while keyword test body => ⟨_, .while keyword test body⟩ :: body.all
  | _, .doWhile body test => ⟨_, .doWhile body test⟩ :: body.all
  | _, .for keyword first test step body => ⟨_, .for keyword first test step body⟩ :: body.all
  | _, .switch test keyword number body rest =>
    ⟨_, .switch test keyword number body rest⟩ :: (body.all ++ rest.all)
  | _, .jump keyword => [⟨_, .jump keyword⟩]
  | _, .return value => [⟨_, .return value⟩]
  | _, .done | _, .noClause => []
  | _, .next first rest => first.all ++ rest.all
  | _, .default _ body => body.all
  | _, .clause _ _ body rest => body.all ++ rest.all

/-- The code of a statement stands among some lines. -/
def Stands (scopes : Scopes) (result : String) {dangling : Bool} (s : Stmt (.statement dangling))
    (lines : List CodeLine) : Prop :=
  ∃ m m' own, Coded .lasting scopes result s none m own m' ∧ own <:+: lines

section Stands

variable {scopes : Scopes} {result : String} {s : Σ dangling, Stmt (.statement dangling)}
  {lines : List CodeLine}

theorem Stands.append_left (h : Stands scopes result s.2 lines) (before : List CodeLine) :
    Stands scopes result s.2 (before ++ lines) := by
  obtain ⟨m, m', own, hown, hstands⟩ := h
  exact ⟨m, m', own, hown, hstands.trans (suffix_append before lines).isInfix⟩

theorem Stands.append_right (h : Stands scopes result s.2 lines) (after : List CodeLine) :
    Stands scopes result s.2 (lines ++ after) := by
  obtain ⟨m, m', own, hown, hstands⟩ := h
  exact ⟨m, m', own, hown, hstands.trans (prefix_append lines after).isInfix⟩

/-- **The statements of a phrase** have their code in that of the phrase. -/
theorem Coded.stands {part : Part} {t : Stmt part} {opened : Option Opened} {m m' : Marks}
    (h : Coded .lasting scopes result t opened m lines m') (hs : s ∈ t.all) :
    Stands scopes result s.2 lines := by
  induction h with
  | done | noClause => cases hs
  | @empty _ m =>
    obtain rfl := mem_singleton.1 hs
    exact ⟨m, m, _, .empty, infix_rfl⟩
  | @expression _ _ m _ hvalue =>
    obtain rfl := mem_singleton.1 hs
    exact ⟨m, m, _, .expression hvalue, infix_rfl⟩
  | @read _ _ _ m _ hcell =>
    obtain rfl := mem_singleton.1 hs
    exact ⟨m, m, _, .read hcell, infix_rfl⟩
  | @write _ _ _ m _ hvalue =>
    obtain rfl := mem_singleton.1 hs
    exact ⟨m, m, _, .write hvalue, infix_rfl⟩
  | @jump _ _ m hmarks =>
    obtain rfl := mem_singleton.1 hs
    exact ⟨m, m, _, .jump hmarks, infix_rfl⟩
  | @«return» _ _ m _ hvalue =>
    obtain rfl := mem_singleton.1 hs
    exact ⟨m, m, _, .return hvalue, infix_rfl⟩
  | compound hbody ih =>
    rcases mem_cons.1 hs with rfl | hs
    · exact ⟨_, _, _, .compound hbody, infix_rfl⟩
    · exact ih hs
  | ifThen htest hbody ih =>
    rcases mem_cons.1 hs with rfl | hs
    · exact ⟨_, _, _, .ifThen htest hbody, infix_rfl⟩
    · exact ((ih hs).append_left _).append_right _
  | ifElse htest hbody hother ih ih' =>
    rcases mem_cons.1 hs with rfl | hs
    · exact ⟨_, _, _, .ifElse htest hbody hother, infix_rfl⟩
    · rcases mem_append.1 hs with hs | hs
      · exact ((((ih hs).append_left _).append_right _).append_right _).append_right _
      · exact ((ih' hs).append_left _).append_right _
  | «while» htest hbody ih =>
    rcases mem_cons.1 hs with rfl | hs
    · exact ⟨_, _, _, .while htest hbody, infix_rfl⟩
    · exact ((ih hs).append_left _).append_right _
  | doWhile hbody htest ih =>
    rcases mem_cons.1 hs with rfl | hs
    · exact ⟨_, _, _, .doWhile hbody htest, infix_rfl⟩
    · exact (((ih hs).append_left _).append_right _).append_right _
  | «for» hfirst htest hstep hbody ih =>
    rcases mem_cons.1 hs with rfl | hs
    · exact ⟨_, _, _, .for hfirst htest hstep hbody, infix_rfl⟩
    · exact ((ih hs).append_left _).append_right _
  | switch htest hline hbody hrest ih ih' =>
    rcases mem_cons.1 hs with rfl | hs
    · exact ⟨_, _, _, .switch htest hline hbody hrest, infix_rfl⟩
    · rcases mem_append.1 hs with hs | hs
      · exact ((((ih hs).append_left _).append_right _).append_right _).append_right _
      · exact ((ih' hs).append_left _).append_right _
  | next _ _ ih ih' =>
    rcases mem_append.1 hs with hs | hs
    · exact (ih hs).append_right _
    · exact (ih' hs).append_left _
  | default _ ih => exact (ih hs).append_left _
  | clause _ _ _ ih ih' =>
    rcases mem_append.1 hs with hs | hs
    · exact (((ih hs).append_left _).append_right _).append_right _
    · exact (ih' hs).append_left _

end Stands

end Stmt

/-! ### Input and output -/

/-- Whether a line is a command for an operation. -/
def CodeLine.performs (operation : Operation) : CodeLine → Bool
  | .command name _ => name == operation.mnemonic
  | .bare name => name == operation.mnemonic
  | _ => false

/-- How often an operation occurs in some lines. -/
def tally (operation : Operation) (lines : List CodeLine) : Nat :=
  lines.countP (CodeLine.performs operation)

@[simp] theorem tally_nil (operation : Operation) : tally operation [] = 0 := rfl

@[simp] theorem tally_append (operation : Operation) (first second : List CodeLine) :
    tally operation (first ++ second) = tally operation first + tally operation second :=
  countP_append

@[simp] theorem tally_label_cons (operation : Operation) (name : String) (lines : List CodeLine) :
    tally operation (.label name :: lines) = tally operation lines := by
  simp [tally, CodeLine.performs]

/-- Lines are tallied one by one. -/
theorem tally_cons (operation : Operation) (line : CodeLine) (lines : List CodeLine) :
    tally operation (line :: lines) = tally operation [line] + tally operation lines :=
  tally_append operation [line] lines

theorem mnemonic_beq (own operation : Operation) :
    (own.mnemonic == operation.mnemonic) = decide (own = operation) := by
  rw [Bool.eq_iff_iff, beq_iff_eq, decide_eq_true_iff]
  exact ⟨Operation.mnemonic_injective, congrArg _⟩

@[simp] theorem tally_line_cons (operation own : Operation) (operand : String)
    (lines : List CodeLine) : tally operation (own.line operand :: lines)
      = (if own = operation then 1 else 0) + tally operation lines := by
  rw [tally, countP_cons, Nat.add_comm]
  simp [CodeLine.performs, Operation.line, mnemonic_beq, tally]

/-- Where an operation is not allowed, it does not occur. -/
theorem Discipline.Follows.tally_eq_zero {d : Discipline} {height height' : Nat}
    {lines : List CodeLine} {operation : Operation} (h : d.Follows height lines height')
    (hgoes : operation.goesOn = true) (hnot : ¬d.operations operation) :
    tally operation lines = 0 := by
  induction h with
  | nil => rfl
  | cons hline _ ih =>
    rw [tally_cons, ih, Nat.add_zero]
    cases hline with
    | label => rfl
    | branch | branchFalse | call =>
      rw [tally_line_cons, if_neg (by rintro rfl; cases hgoes), tally_nil]
    | operation _ hallowed =>
      rw [tally_line_cons, if_neg (by rintro rfl; exact hnot hallowed), tally_nil]
    | @bare _ own _ hallowed =>
      have hne : own ≠ operation := by rintro rfl; exact hnot hallowed
      simp [tally, CodeLine.performs, mnemonic_beq, hne]

/-- Whether a statement reads or writes a number, if the operation is that of input or output. -/
def Stmt.performs (operation : Operation) : {part : Part} → Stmt part → Bool
  | _, .read _ _ => operation == .input
  | _, .write _ _ => operation == .output
  | _, _ => false

/-- The operations by which numbers are read and written. -/
def Operation.exchanges : Operation → Bool
  | .input | .output => true
  | _ => false

section Tally

variable {scopes : Scopes} {operation : Operation} {lines : List CodeLine}

theorem Operation.eq_of_exchanges (h : operation.exchanges = true) :
    operation = .input ∨ operation = .output := by
  cases operation with
  | input => exact .inl rfl
  | output => exact .inr rfl
  | _ => cases h

/-- Straight code does not talk to the user. -/
theorem Discipline.Follows.tally_straight {height height' : Nat}
    (hlines : Discipline.straight.Follows height lines height')
    (h : operation.exchanges = true) : tally operation lines = 0 := by
  rcases Operation.eq_of_exchanges h with rfl | rfl
  · exact hlines.tally_eq_zero rfl (by simp [Discipline.straight, Operation.computes])
  · exact hlines.tally_eq_zero rfl (by simp [Discipline.straight, Operation.computes])

/-- An expression does not read or write a number. -/
theorem Expr.tally_code {e : Expr .expression} (hcode : e.code scopes = some lines)
    (h : operation.exchanges = true) : tally operation lines = 0 :=
  (Expr.follows (.straight scopes) id False.elim hcode 0).tally_straight h

/-- **Input and output**: the commands that read or write numbers are those of the statements that
do so. -/
theorem Stmt.Coded.tally {result : String} {part : Part} {t : Stmt part} {opened : Option Opened}
    {m m' : Marks} (hcoded : Coded .lasting scopes result t opened m lines m')
    (hopened : ∀ o, opened = some o → tally operation [o.line] = 0)
    (h : operation.exchanges = true) :
    tally operation lines = t.all.countP (fun s => s.2.performs operation) := by
  have hvalue : ∀ {e : Expr .expression} {lines : List CodeLine}, e.code scopes = some lines →
      ScoreLang.tally operation lines = 0 := fun hcode => Expr.tally_code hcode h
  obtain ⟨hpop, hstore, hbranch, hbranchFalse, hpush, hequal⟩ : ¬Operation.pop = operation ∧
      ¬Operation.store = operation ∧ ¬Operation.branch = operation ∧
      ¬Operation.branchFalse = operation ∧ ¬Operation.push = operation ∧
      ¬Operation.equal = operation := by
    rcases Operation.eq_of_exchanges h with rfl | rfl <;> decide
  have hclause : ∀ (number : Numeral) (next : String),
      ScoreLang.tally operation (clauseTest number next) = 0 := fun number next => by
    simp [clauseTest, hpush, hequal, hbranchFalse]
  induction hcoded with
  | empty | done | noClause => rfl
  | expression hlines =>
    rw [all, countP_cons_of_neg Bool.false_ne_true]
    simp [hvalue hlines, hpop]
  | «return» hlines =>
    rw [all, countP_cons_of_neg Bool.false_ne_true]
    simp [hvalue hlines, hstore, hpop]
  | jump =>
    rw [all, countP_cons_of_neg Bool.false_ne_true]
    simp [hbranch]
  | read => rcases Operation.eq_of_exchanges h with rfl | rfl <;> rfl
  | write hlines =>
    rw [tally_append, hvalue hlines]
    rcases Operation.eq_of_exchanges h with rfl | rfl <;> rfl
  | compound _ ih => rw [all, countP_cons_of_neg Bool.false_ne_true, ih (by simp)]
  | ifThen htest _ ih | «while» htest _ ih =>
    rw [all, countP_cons_of_neg Bool.false_ne_true, ← ih (by simp)]
    simp [hvalue htest, hbranch, hbranchFalse]
  | doWhile _ htest ih =>
    rw [all, countP_cons_of_neg Bool.false_ne_true, ← ih (by simp)]
    simp [hvalue htest, hbranch, hbranchFalse]
  | ifElse htest _ _ ih ih' =>
    rw [all, countP_cons_of_neg Bool.false_ne_true, countP_append, ← ih (by simp), ← ih' (by simp)]
    simp [hvalue htest, hbranch, hbranchFalse]
  | «for» hfirst htest hstep _ ih =>
    rw [all, countP_cons_of_neg Bool.false_ne_true, ← ih (by simp)]
    simp [hvalue hfirst, hvalue htest, hvalue hstep, hbranch, hbranchFalse]
  | @switch _ _ _ _ _ _ _ _ _ line _ _ _ htest hline _ _ ih ih' =>
    -- the last command of the value is one of the expression
    have hlast : ScoreLang.tally operation [line] = 0 := by
      obtain ⟨before, hbefore⟩ := getLast?_eq_some_iff.1 hline
      have hall := hvalue htest
      rw [hbefore, tally_append] at hall
      omega
    rw [all, countP_cons_of_neg Bool.false_ne_true, countP_append, ← ih (by simp),
      ← ih' (by simpa using hlast)]
    simp [hvalue htest, hclause, hbranch]
  | next _ _ ih ih' => rw [all, countP_append, tally_append, ih (by simp), ih' (by simp)]
  | default _ ih =>
    rw [all, ← ih (by simp)]
    simp
  | @clause _ _ _ _ opened _ _ _ _ _ _ _ _ ih ih' =>
    have hline := hopened opened rfl
    have hskip : ∀ lines, ScoreLang.tally operation (opened.line :: lines)
        = ScoreLang.tally operation lines := fun lines => by
      rw [tally_cons, hline, Nat.zero_add]
    rw [all, countP_append, ← ih (by simp), ← ih' (by simpa using hline)]
    simp [hskip, hclause, hbranch]

end Tally

/-! ### Programs -/

/-- The bodies of a program. -/
def Program.bodies (program : Program) : List Body :=
  program.functions.map (·.body) ++ [program.body]

/-- The statements of a program. -/
def Program.statements (program : Program) : List (Σ dangling, Stmt (.statement dangling)) :=
  program.bodies.flatMap (·.steps.all)

section Programs

variable {operation : Operation} {m m' : Marks} {lines : List CodeLine}

theorem Body.CodedAs.tally {body : Body} (hbody : body.CodedAs m lines m')
    (h : operation.exchanges = true) :
    tally operation lines = body.steps.all.countP (fun s => s.2.performs operation) := by
  obtain ⟨scopes, result, first, steps, rfl, ⟨count, hfirst⟩, hsteps⟩ := hbody
  rw [tally_append, hfirst.tally_straight h, hsteps.tally (by simp) h, Nat.zero_add]

theorem FunctionsCoded.tally {functions : List Function} {parts : List (List CodeLine)}
    (hparts : FunctionsCoded m functions parts m') (h : operation.exchanges = true) :
    tally operation parts.flatten = ((functions.map (·.body)).flatMap (·.steps.all)).countP
      (fun s => s.2.performs operation) := by
  induction hparts with
  | nil => rfl
  | cons _ hbody _ ih =>
    have hframe : ¬Operation.allocate = operation ∧ ¬Operation.leave = operation := by
      rcases Operation.eq_of_exchanges h with rfl | rfl <;> decide
    simp [ih, hbody.tally h, Segment.lines, hframe]

variable {labels : Nat} {program : Program} {code : ProgramCode}

/-- **Input and output of a program.** -/
theorem Program.tally_code (hcode : program.code labels = some code)
    (h : operation.exchanges = true) :
    tally operation code.lines = program.statements.countP (fun s => s.2.performs operation) := by
  obtain ⟨m, m', hparts⟩ := Program.codedAs hcode
  have hother : ¬Operation.branch = operation ∧ ¬Operation.allocate = operation := by
    rcases Operation.eq_of_exchanges h with rfl | rfl <;> decide
  have hstop : tally operation [.command stopWord ""] = 0 := by
    rcases Operation.eq_of_exchanges h with rfl | rfl <;> decide
  simp [ProgramCode.lines, hparts.globals.tally_straight h, hparts.functions.tally h,
    hparts.main.tally h, hother, hstop, statements, bodies]

/-- Every function has its segment. -/
theorem FunctionsCoded.exists_segment {functions : List Function} {parts : List (List CodeLine)}
    (h : FunctionsCoded m functions parts m') {function : Function} (hmem : function ∈ functions) :
    ∃ segment : Segment, segment.lines ∈ parts ∧ ∃ k k', function.body.CodedAs k segment.body
      k' := by
  induction h with
  | nil => cases hmem
  | cons _ hbody _ ih =>
    rcases mem_cons.1 hmem with rfl | hmem
    · exact ⟨_, mem_cons_self, _, _, hbody⟩
    · obtain ⟨segment, hsegment, hcoded⟩ := ih hmem
      exact ⟨segment, mem_cons_of_mem _ hsegment, hcoded⟩

/-- Every body has its lines. -/
theorem ProgramCode.CodedAs.exists_body (h : code.CodedAs program labels m m') {body : Body}
    (hbody : body ∈ program.bodies) :
    ∃ lines k k', lines <:+: code.lines ∧ body.CodedAs k lines k' := by
  rcases mem_append.1 hbody with hbody | hbody
  · obtain ⟨function, hfunction, rfl⟩ := mem_map.1 hbody
    obtain ⟨segment, hsegment, k, k', hcoded⟩ := h.functions.exists_segment hfunction
    exact ⟨segment.body, k, k', infix_segment hsegment, hcoded⟩
  · obtain rfl := mem_singleton.1 hbody
    exact ⟨code.main, m, m', code.infix_main, h.main⟩

/-- **Every statement of a program has its code.** -/
theorem Program.stands (hcode : program.code labels = some code)
    {s : Σ dangling, Stmt (.statement dangling)} (hs : s ∈ program.statements) :
    ∃ scopes result, Stmt.Stands scopes result s.2 code.lines := by
  obtain ⟨m, m', hparts⟩ := Program.codedAs hcode
  obtain ⟨body, hbody, hs⟩ := mem_flatMap.1 hs
  obtain ⟨lines, k, k', hwithin, scopes, result, first, steps, rfl, -, hsteps⟩ :=
    hparts.exists_body hbody
  obtain ⟨l, l', own, hown, hstands⟩ := (hsteps.stands hs).append_left first
  exact ⟨scopes, result, l, l', own, hown, hstands.trans hwithin⟩

end Programs

/-- **Nothing is left out** of a program in which no semicolon stands alone. At the end the cursor
is past the last node, and it has been at every node once, in their order. Every statement has its
code, and there are as many commands that read or write a number as there are statements that do
so. -/
theorem generate_complete {tree : SyntaxTree} {program : Program} {labels : Nat} {g : Generator}
    (hshape : tree.shape = program.tree) (hplain : program.plain = true)
    (h : generate tree labels = (.ok (), g)) :
    g.upcoming = [] ∧ g.trail = tree.listing ∧
      (∀ s ∈ program.statements, ∃ scopes result,
        Stmt.Stands scopes result s.2 g.written.toList) ∧
      ∀ {operation : Operation}, operation.exchanges = true → tally operation g.written.toList
        = program.statements.countP (fun s => s.2.performs operation) := by
  obtain ⟨code, hcode, hwritten, hupcoming, htrail⟩ := generate_plain hshape hplain h
  rw [hwritten]
  exact ⟨hupcoming, htrail, fun s hs => Program.stands hcode hs,
    fun hexchanges => Program.tally_code hcode hexchanges⟩

/-- One number is read and one is written. -/
theorem generate_complete_calling : ∃ parsed g,
    parse (tokenize callingText.toList).lines = .ok parsed ∧
    generate parsed.tree 0 = (.ok (), g) ∧ g.upcoming = [] ∧ g.trail = parsed.tree.listing ∧
    tally .input g.written.toList = 1 ∧ tally .output g.written.toList = 1 := by
  obtain ⟨parsed, g, hparse, hshape, hok⟩ := exists_generate_calling
  obtain ⟨hupcoming, htrail, -, htally⟩ := generate_complete hshape (by decide +kernel) hok
  exact ⟨parsed, g, hparse, hok, hupcoming, htrail, (htally rfl).trans (by decide +kernel),
    (htally rfl).trans (by decide +kernel)⟩

end ScoreLang
