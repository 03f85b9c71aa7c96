import ScoreLang.Proofs.Code.Discipline
import ScoreLang.Proofs.Code.Storage
import ScoreLang.Proofs.Labels.Program

/-!
# The Segments of a Program

The code of a program begins with a segment for the global variables, which ends with a jump to the
main function. Then comes a segment for each function, which begins with its label and ends with its
return, and last the segment of the main function. Labels are defined once, and the lines of each
segment follow a discipline: jumps stay in the segment, and calls go to the segments of functions.
-/

namespace ScoreLang

open List

namespace Discipline

/-- The discipline of a segment: only its own labels may be jumped to. -/
def within (d : Discipline) (body : List CodeLine) : Discipline :=
  { d with targets := fun name => .label name ∈ body }

end Discipline

/-- The code of a function: its label, its frame, a body and its return. -/
structure Segment where
  label : String
  /-- The number of cells of the frame, as it is written. -/
  size : String
  /-- The lines between the head and the return. -/
  body : List CodeLine
  /-- The cell of the result, as it is written. -/
  cell : String

/-- The lines of a segment. -/
def Segment.lines (segment : Segment) : List CodeLine :=
  .label segment.label :: Operation.allocate.line segment.size ::
    (segment.body ++ [Operation.leave.line segment.cell])

/-- A number of cells as it is written; there is one at least. -/
def IsSize (text : String) : Prop := ∃ size : Int, Text.readInteger text = .ok size ∧ 1 ≤ size

theorem IsSize.of_writeInteger {size : Int} {text : String} (h : Text.writeInteger size = .ok text)
    (hsize : 1 ≤ size) : IsSize text := ⟨size, Text.readInteger_of_writeInteger h, hsize⟩

/-- The segment of a function follows a discipline. -/
structure Segment.Follows (d : Discipline) (segment : Segment) (count : Nat) : Prop where
  /-- The number of cells is the spelling of one. -/
  size : IsSize segment.size
  /-- The arguments are on the stack at first, and nothing is left of them at the end. -/
  body : (d.within segment.body).Follows count segment.body 0

/-! ### Functions -/

section Functions

variable {d : Discipline}

variable {function : Function} {scopes : Scopes} {s s' : Surroundings}

theorem Scopes.Calls.mono {calls : String → Nat → Prop} {scopes' : Scopes} (h : scopes.Calls calls)
    (hsubset : ∀ scope ∈ scopes', scope ∈ scopes) : scopes'.Calls calls :=
  fun scope hscope => h scope (hsubset scope hscope)

theorem Scopes.Calls.empty {calls : String → Nat → Prop} (h : scopes.Calls calls) (id : Nat)
    (relative : Bool) (start : Int) :
    Scopes.Calls calls (.empty id relative start :: scopes) := by
  intro scope hscope item hitem
  rcases mem_cons.1 hscope with rfl | hscope
  · cases hitem
  · exact h scope hscope item hitem

/-- Declarations need no less than zero cells. -/
theorem declared?_nonneg {ds : List Declarator} {all : Declared}
    (h : declared? scopes ds = some all) : 0 ≤ all.size := by
  induction ds generalizing scopes all with
  | nil =>
    obtain rfl := Option.some.inj h
    exact Int.le_refl 0
  | cons declarator ds ih =>
    simp only [declared?, bind_eq_some, Option.some.injEq] at h
    obtain ⟨first, hfirst, others, hothers, rfl⟩ := h
    have hrest := ih hothers
    have hsize := (Declarator.code_enters hfirst).1
    change 0 ≤ first.size + others.size
    omega

/-- What is known at the statements of a function. -/
theorem Function.opening_follows {scopeCount : Nat} {label : String} {opening : Opening}
    (hcalls : scopes.Calls d.calls) (hcomputes : d.Computes)
    (hself : d.calls label function.parameters.length)
    (hexact : d.counted → (declarators function.body.declarations).all Declarator.exact = true)
    (h : function.opening scopes scopeCount label = some opening) :
    opening.scopes.Calls d.calls ∧ 1 ≤ opening.size ∧
      d.Follows function.parameters.length opening.lines 0 := by
  simp only [Function.opening, bind_eq_some, Option.some.injEq] at h
  obtain ⟨inner, hreturn, _, -, _, -, taken, htaken, outer, houter, declared, hdeclared, rfl⟩ := h
  have hinner := (hcalls.empty scopeCount true 0).enter (fun hf => absurd hf (by decide)) hreturn
  obtain ⟨hparameters, hlines⟩ := parametersCode_follows hinner hcomputes (.refl 0) htaken
  have houterCalls := (hparameters.mono fun _ => mem_of_mem_tail).enter (fun _ count hcount => by
    obtain rfl : function.parameters.length = count := by exact_mod_cast hcount
    exact hself) houter
  have hall : Scopes.Calls d.calls (taken.2.take 1 ++ outer) := by
    intro scope hscope
    rcases mem_append.1 hscope with hscope | hscope
    · exact hparameters scope (mem_of_mem_take hscope)
    · exact houterCalls scope hscope
  obtain ⟨hdeclaredCalls, hdeclaredLines⟩ := declared?_follows hall hcomputes hexact hdeclared
  have hsize := declared?_nonneg hdeclared
  refine ⟨hdeclaredCalls, ?_, ?_⟩
  · change 1 ≤ function.parameters.length + declared.size + 1
    omega
  · rw [length_nil, Nat.zero_add] at hlines
    exact hlines.append hdeclaredLines

/-- Whether the initial values and the statements of a body leave nothing on the stack. -/
def Body.exact (body : Body) : Bool :=
  (declarators body.declarations).all Declarator.exact && body.steps.exact

/-- Some lines end with the code of the statements of a body, in scopes where some functions may be
called. -/
def Body.CodedIn (body : Body) (calls : String → Nat → Prop) (lines : List CodeLine) : Prop :=
  ∃ scopes result m m' first steps, Scopes.Calls calls scopes ∧
    Stmt.Coded .lasting scopes result body.steps none m steps m' ∧ lines = first ++ steps

/-- **The code of a function** is a segment. -/
theorem Function.code_follows {lines : List CodeLine} (hcalls : s.scopes.Calls d.calls)
    (hgoes : d.GoesOn) (hself : d.calls (s.marks.label 1) function.parameters.length)
    (hplaced : function.body.steps.placed false false = true)
    (hexact : d.counted → function.body.exact = true) (h : function.code s = some (lines, s')) :
    s'.scopes.Calls d.calls ∧ ∃ segment : Segment, lines = segment.lines ∧
      segment.label = s.marks.label 1 ∧ segment.Follows d function.parameters.length ∧
      function.body.CodedIn d.calls segment.body := by
  simp only [Function.code, bind_eq_some, toOption_eq_some, Prod.exists] at h
  obtain ⟨opening, hopening, steps, marks, hsteps, size, hsize, entry, -, cell, -, hlines⟩ := h
  simp only [Body.exact, Bool.and_eq_true] at hexact
  obtain ⟨segment, hsegment⟩ : ∃ segment : Segment,
      segment = ⟨s.marks.label 1, size, opening.lines ++ steps, cell⟩ := ⟨_, rfl⟩
  have hwithin : (d.within segment.body).GoesOn := hgoes
  obtain ⟨hscopes, hpos, hopens⟩ := Function.opening_follows (d := d.within segment.body) hcalls
    hwithin.computes hself (fun hc => (hexact hc).1) hopening
  obtain ⟨hstepsFollow, -⟩ := Stmt.follows (d := d.within segment.body) hscopes hwithin
    (Stmt.coded hsteps) (by simp) hplaced ⟨by simp, by simp⟩
    (fun name hname => by rw [hsegment]; exact mem_append_right _ hname) fun hc => (hexact hc).2
  split at hlines
  · rename_i inner scope outer hnested
    obtain ⟨rfl, rfl⟩ := Prod.mk.inj (Option.some.inj hlines)
    refine ⟨hscopes.mono fun found hfound => ?_, segment, by simp [hsegment, Segment.lines],
      by rw [hsegment], ⟨?_, ?_⟩, ?_⟩
    · rw [hnested]
      exact mem_cons_of_mem _ hfound
    · rw [hsegment]
      exact IsSize.of_writeInteger hsize hpos
    · have hbody := hopens.append hstepsFollow
      rw [hsegment] at hbody ⊢
      exact hbody
    · exact ⟨_, _, _, _, _, _, hscopes, Stmt.coded hsteps, by rw [hsegment]⟩
  · cases hlines

/-- A function begins with its label. -/
theorem Function.head?_code {lines : List CodeLine} (h : function.code s = some (lines, s')) :
    lines.head? = some (.label (s.marks.label 1)) := by
  simp only [Function.code, bind_eq_some, Prod.exists] at h
  obtain ⟨opening, -, steps, marks, -, size, -, entry, -, cell, -, hlines⟩ := h
  split at hlines
  · obtain ⟨rfl, -⟩ := Prod.mk.inj (Option.some.inj hlines)
    rfl
  · cases hlines

/-- Some lines are the code of a function with the given label and number of parameters. -/
def Calls (functions : List Function) (parts : List (List CodeLine)) (label : String)
    (count : Nat) : Prop :=
  ∃ pair ∈ functions.zip parts, pair.2.head? = some (.label label) ∧
    pair.1.parameters.length = count

/-- **The code of some functions** consists of segments. -/
theorem functionsCode_follows {functions : List Function} {parts : List (List CodeLine)}
    (hcalls : s.scopes.Calls d.calls) (hgoes : d.GoesOn)
    (hself : ∀ {label : String} {count : Nat}, Calls functions parts label count →
      d.calls label count) (hplaced : ∀ f ∈ functions, f.body.steps.placed false false = true)
    (hexact : d.counted → ∀ f ∈ functions, f.body.exact = true)
    (h : functionsCode s functions = some (parts, s')) :
    s'.scopes.Calls d.calls ∧ Forall₂ (fun function part => ∃ segment : Segment,
      part = segment.lines ∧ segment.Follows d function.parameters.length ∧
      function.body.CodedIn d.calls segment.body) functions parts := by
  refine (functionsCode_induct (P := fun t => t.scopes.Calls d.calls) hcalls h ?_).symm
  intro function own t t' hmem ht hown
  have hcalled : d.calls (t.marks.label 1) function.parameters.length :=
    hself ⟨(function, own), hmem, Function.head?_code hown, rfl⟩
  have hfunction := (of_mem_zip hmem).1
  obtain ⟨ht', segment, hlines, -, hsegment⟩ := Function.code_follows ht hgoes hcalled
    (hplaced _ hfunction) (fun hc => hexact hc _ hfunction) hown
  exact ⟨⟨segment, hlines, hsegment⟩, ht'⟩

end Functions

/-! ### The parts of a program -/

/-- Some lines are the code of a body: the parameters and variables are set, and the statements
follow. -/
def Body.CodedAs (body : Body) (m : Marks) (lines : List CodeLine) (m' : Marks) : Prop :=
  ∃ scopes result first steps, lines = first ++ steps ∧
    (∃ count, Discipline.straight.Follows count first 0) ∧
    Stmt.Coded .lasting scopes result body.steps none m steps m'

/-- Some parts of the code are the segments of some functions. -/
inductive FunctionsCoded : Marks → List Function → List (List CodeLine) → Marks → Prop where
  | nil (m : Marks) : FunctionsCoded m [] [] m
  | cons {m m' m'' : Marks} {function : Function} {functions : List Function} {segment : Segment}
      {parts : List (List CodeLine)} : segment.label = m.label 1 →
      function.body.CodedAs (m.use 1) segment.body m' → FunctionsCoded m' functions parts m'' →
      FunctionsCoded m (function :: functions) (segment.lines :: parts) m''

/-- The parts of some code are those of a program. -/
structure ProgramCode.CodedAs (code : ProgramCode) (program : Program) (labels : Nat)
    (m m' : Marks) : Prop where
  globals : Discipline.straight.Follows 0 code.globals 0
  /-- The label of the main function is the first one. -/
  mainLabel : code.mainLabel = labelName (labels + 1)
  functions : FunctionsCoded ⟨labels + 1, none, none⟩ program.functions code.functions m
  main : program.body.CodedAs m code.main m'

variable {lines : List CodeLine} {m m' : Marks} {labels : Nat} {program : Program}
  {code : ProgramCode} {scopes : Scopes}

theorem declared?_straight {ds : List Declarator} {all : Declared}
    (h : declared? scopes ds = some all) : Discipline.straight.Follows 0 all.lines 0 :=
  (declared?_follows (.straight scopes) id False.elim h).2

/-- The code of a function is a segment. -/
theorem Function.codedAs {function : Function} {s s' : Surroundings}
    (h : function.code s = some (lines, s')) : ∃ segment : Segment, lines = segment.lines ∧
      segment.label = s.marks.label 1 ∧
      function.body.CodedAs (s.marks.use 1) segment.body s'.marks := by
  simp only [Function.code, bind_eq_some, Prod.exists] at h
  obtain ⟨opening, hopening, steps, marks, hsteps, size, -, entry, -, cell, -, hlines⟩ := h
  have hopens := (Function.opening_follows (.straight _) id trivial False.elim hopening).2.2
  split at hlines
  · obtain ⟨rfl, rfl⟩ := Prod.mk.inj (Option.some.inj hlines)
    exact ⟨⟨s.marks.label 1, size, opening.lines ++ steps, cell⟩, by simp [Segment.lines], rfl,
      opening.scopes, _, opening.lines, steps, rfl, ⟨_, hopens⟩, Stmt.coded hsteps⟩
  · cases hlines

/-- Their code, one after the other. -/
theorem functionsCoded {functions : List Function} {s s' : Surroundings}
    {parts : List (List CodeLine)} (h : functionsCode s functions = some (parts, s')) :
    FunctionsCoded s.marks functions parts s'.marks := by
  induction functions generalizing s parts with
  | nil =>
    obtain ⟨rfl, rfl⟩ := Prod.mk.inj (Option.some.inj h)
    exact .nil _
  | cons function functions ih =>
    simp only [functionsCode, bind_eq_some, Prod.exists, Option.some.injEq] at h
    obtain ⟨lines, t, hfirst, others, t', hothers, heq⟩ := h
    obtain ⟨rfl, rfl⟩ := Prod.mk.inj heq
    obtain ⟨segment, rfl, hlabel, hbody⟩ := Function.codedAs hfirst
    exact .cons hlabel hbody (ih hothers)

/-- **The parts of the code of a program.** -/
theorem Program.codedAs (h : program.code labels = some code) :
    ∃ m m', code.CodedAs program labels m m' := by
  simp only [Program.code, mainCode, bind_eq_some, Prod.exists, Option.some.injEq] at h
  obtain ⟨declared, hdeclared, parts, s, hparts, _, _, ⟨locals, hlocals, steps, marks, hsteps,
    size, -, hmain⟩, rfl⟩ := h
  obtain ⟨rfl, rfl⟩ := Prod.mk.inj hmain
  exact ⟨s.marks, marks, declared?_straight hdeclared, rfl, functionsCoded hparts, _, _, _, _, rfl,
    ⟨0, declared?_straight hlocals⟩, Stmt.coded hsteps⟩

/-- A function is part of the code. -/
theorem ProgramCode.infix_function (h : lines ∈ code.functions) : lines <:+: code.lines :=
  (infix_of_mem_flatten h).trans ⟨code.globals ++ [Operation.branch.line code.mainLabel],
    [.label code.mainLabel, Operation.allocate.line code.size] ++ code.main ++
      [.command stopWord ""], by simp [ProgramCode.lines]⟩

theorem ProgramCode.infix_segment {segment : Segment} (h : segment.lines ∈ code.functions) :
    segment.body <:+: code.lines :=
  IsInfix.trans ⟨[.label segment.label, Operation.allocate.line segment.size],
    [Operation.leave.line segment.cell], rfl⟩ (infix_function h)

theorem ProgramCode.infix_main (code : ProgramCode) : code.main <:+: code.lines :=
  ⟨code.globals ++ [Operation.branch.line code.mainLabel] ++ code.functions.flatten ++
    [.label code.mainLabel, Operation.allocate.line code.size], [.command stopWord ""],
    by simp [ProgramCode.lines]⟩

/-! ### Labels -/

open CodeLine

/-- The labels that a phrase finds open: the clauses of a switch define those of the clause before
them. -/
def Part.open : Part → Option Opened → List String
  | .clauses, some opened => [opened.clauses.test, opened.clauses.body]
  | _, _ => []

/-- The labels of some code are those that it finds open and those that it uses up. -/
def Defines (found : List String) (lines : List CodeLine) (m m' : Marks) : Prop :=
  ∃ count, m'.labels = m.labels + count ∧
    CodeLine.labels lines ~ found ++ freshLabels m.labels count

theorem Defines.nil (m : Marks) : Defines [] [] m m := ⟨0, rfl, by simp [freshLabels]⟩

theorem Defines.of_labels_eq_nil (h : CodeLine.labels lines = []) (m : Marks) :
    Defines [] lines m m := ⟨0, rfl, by simp [freshLabels, h]⟩

/-- Code after code. -/
theorem Defines.append {found found' : List String} {first second : List CodeLine} {m'' : Marks}
    (hfirst : Defines found first m m') (hsecond : Defines found' second m' m'') :
    Defines (found ++ found') (first ++ second) m m'' := by
  obtain ⟨count, hcount, hperm⟩ := hfirst
  obtain ⟨count', hcount', hperm'⟩ := hsecond
  refine ⟨count + count', by omega, ?_⟩
  rw [labels_append, freshLabels_add, ← hcount]
  calc CodeLine.labels first ++ CodeLine.labels second
      ~ (found ++ freshLabels m.labels count) ++ (found' ++ freshLabels m'.labels count') :=
        hperm.append hperm'
    _ = found ++ (freshLabels m.labels count ++ found') ++ freshLabels m'.labels count' := by simp
    _ ~ found ++ (found' ++ freshLabels m.labels count) ++ freshLabels m'.labels count' :=
        (perm_append_comm.append_left found).append_right _
    _ = found ++ found' ++ (freshLabels m.labels count ++ freshLabels m'.labels count') := by simp

/-- Some labels are defined around code that has used them up before. -/
theorem Defines.around {found found' : List String} {inner all : List CodeLine} {n : Marks}
    (used : Nat) (own : List String) (hinner : Defines found' inner n m')
    (hused : n.labels = m.labels + used) (hown : own ++ found' ~ found ++ freshLabels m.labels used)
    (hall : CodeLine.labels all ~ own ++ CodeLine.labels inner) : Defines found all m m' := by
  obtain ⟨count, hcount, hperm⟩ := hinner
  refine ⟨used + count, by omega, ?_⟩
  rw [freshLabels_add, ← hused]
  calc CodeLine.labels all
      ~ own ++ (found' ++ freshLabels n.labels count) := hall.trans (hperm.append_left own)
    _ = own ++ found' ++ freshLabels n.labels count := by simp
    _ ~ found ++ freshLabels m.labels used ++ freshLabels n.labels count := hown.append_right _
    _ = found ++ (freshLabels m.labels used ++ freshLabels n.labels count) := by simp

/-- The line that loads the value of a switch again is not a label. -/
theorem name?_getLast? {level : Level} {e : Expr level} {line : CodeLine}
    (h : e.code scopes = some lines) (hline : lines.getLast? = some line) :
    line.name? = none := by
  have hlabels : lines.filterMap name? = [] := Expr.labels_code h
  rw [filterMap_eq_nil_iff] at hlabels
  exact hlabels line (mem_of_getLast? hline)

/-- **Labels are defined once**: the labels of the code of a statement, of some statements or of the
clauses of a switch are those that are open before it and those that it uses up. -/
theorem Stmt.Coded.defines {result : String} {part : Part} {s : Stmt part} {opened : Option Opened}
    (hopened : ∀ o, opened = some o → o.line.name? = none)
    (h : Coded .lasting scopes result s opened m lines m') :
    Defines (part.open opened) lines m m' := by
  induction h with
  | empty | done => exact .nil _
  | expression hvalue | write hvalue | «return» hvalue =>
    exact .of_labels_eq_nil (by simp [Expr.labels_code hvalue]) _
  | read | jump => exact .of_labels_eq_nil (by simp) _
  | compound _ ih => exact ih (by simp)
  | @ifThen _ _ _ _ _ m _ _ _ htest _ ih =>
    refine (ih (by simp)).around 2 [m.label 1, m.label 2] rfl (.refl _) ?_
    refine perm_iff_count.2 fun name => ?_
    simp [Expr.labels_code htest, count_cons]
    omega
  | @ifElse _ _ _ _ _ _ m _ _ _ _ _ htest _ _ ih ih' =>
    refine ((ih (by simp)).append (ih' (by simp))).around 2 [m.label 1, m.label 2] rfl (.refl _) ?_
    refine perm_iff_count.2 fun name => ?_
    simp [Expr.labels_code htest, count_cons]
    omega
  | @«while» _ _ _ _ _ m _ _ _ htest _ ih | @doWhile _ _ _ _ m _ _ _ _ htest ih =>
    refine (ih (by simp)).around 2 [m.label 1, m.label 2] rfl (.refl _) ?_
    refine perm_iff_count.2 fun name => ?_
    simp [Expr.labels_code htest, count_cons]
  | @«for» _ _ _ _ _ _ _ m _ _ _ _ _ hfirst htest hstep _ ih =>
    refine (ih (by simp)).around 4 [m.label 1, m.label 2, m.label 3, m.label 4] rfl (.refl _) ?_
    refine perm_iff_count.2 fun name => ?_
    simp [Expr.labels_code hfirst, Expr.labels_code htest, Expr.labels_code hstep, count_cons]
    omega
  | @switch _ _ _ _ _ _ m _ _ _ _ _ _ htest hline _ _ ih ih' =>
    have hrest := ih' (by simpa using name?_getLast? htest hline)
    refine ((ih (by simp)).append hrest).around 3 [m.label 1] rfl (.refl _) ?_
    refine perm_iff_count.2 fun name => ?_
    simp [Expr.labels_code htest, clauseTest, count_cons]
    omega
  | next _ _ ih ih' => exact (ih (by simp)).append (ih' (by simp))
  | noClause => exact ⟨0, rfl, by simp [Part.open, freshLabels]⟩
  | @default _ _ opened _ _ _ _ ih =>
    exact (ih (by simp)).around 0 [opened.clauses.test, opened.clauses.body] rfl
      (by simp [Part.open, freshLabels]) (by simp)
  | @clause _ _ _ _ opened _ _ _ _ _ _ _ _ ih ih' =>
    have hrest := ih' (by simpa using hopened opened rfl)
    refine ((ih (by simp)).append hrest).around 2 [opened.clauses.test, opened.clauses.body] rfl
      (.refl _) ?_
    refine perm_iff_count.2 fun name => ?_
    simp [labels_cons_of_name?_eq_none (hopened opened rfl), clauseTest, count_cons]

theorem Body.CodedAs.defines {body : Body} (h : body.CodedAs m lines m') :
    Defines [] lines m m' := by
  obtain ⟨scopes, result, first, steps, rfl, ⟨count, hfirst⟩, hsteps⟩ := h
  exact (Defines.of_labels_eq_nil (hfirst.labels_eq_nil fun _ => id) m).append
    (hsteps.defines fun o ho => by cases ho)

/-- The labels of all functions are fresh. -/
theorem FunctionsCoded.defines {functions : List Function} {parts : List (List CodeLine)}
    (h : FunctionsCoded m functions parts m') : Defines [] parts.flatten m m' := by
  induction h with
  | nil m => exact .nil m
  | @cons m m' _ _ _ segment parts hlabel hbody _ ih =>
    have hsegment : Defines [] segment.lines m m' :=
      hbody.defines.around 1 [m.label 1] rfl (.refl _) (by simp [Segment.lines, hlabel])
    exact hsegment.append ih

/-- **Labels are defined once** in the code of a program. -/
theorem Program.nodup_labels_code (h : program.code labels = some code) :
    (CodeLine.labels code.lines).Nodup := by
  obtain ⟨m, m', hparts⟩ := Program.codedAs h
  have hglobals := hparts.globals.labels_eq_nil fun _ => id
  obtain ⟨count, -, hperm⟩ : Defines [] code.lines ⟨labels, none, none⟩ m' := by
    refine (hparts.functions.defines.append hparts.main.defines).around 1
      [labelName (labels + 1)] rfl (.refl _) ?_
    refine perm_iff_count.2 fun name => ?_
    have hstop : CodeLine.labels [.command stopWord ""] = [] := rfl
    simp [ProgramCode.lines, hparts.mainLabel, hglobals, hstop, count_cons]
    omega
  exact hperm.nodup_iff.2 (nodup_freshLabels _ _)

/-- **The machine loads what is written for a program** as it is meant. -/
theorem generate_holds {tree : SyntaxTree} {g : Generator} (hshape : tree.shape = program.tree)
    (h : generate tree labels = (.ok (), g)) (hcode : program.code labels = some code)
    (hwritten : g.written.toList = code.lines) : (Machine.Code.ofText g.code).Holds code.lines := by
  have hmatches := generate_matches hshape labels 0
  rw [h] at hmatches
  generalize generate tree (labels + 0) = other at hmatches
  cases hmatches with
  | ok _ hg =>
    rw [Generator.code, hwritten]
    refine Machine.Code.holds_ofText (fun line hline => (hg.regular.written line ?_).tidy)
      (Program.nodup_labels_code hcode)
    rwa [← Array.mem_toList_iff, hwritten]

/-! ### Programs -/

/-- Whether every jump of a program is placed. -/
def Program.placed (program : Program) : Bool :=
  program.functions.all (·.body.steps.placed false false) && program.body.steps.placed false false

/-- Whether no statement of a program leaves anything on the stack. -/
def Program.exact (program : Program) : Bool :=
  (declarators program.globals).all Declarator.exact &&
    program.functions.all (·.body.exact) && program.body.exact

/-- The discipline of the code of a program: its functions may be called. -/
def ProgramCode.discipline (code : ProgramCode) (program : Program) (counted : Prop) : Discipline :=
  ⟨Calls program.functions code.functions, fun _ => False, fun _ => True, counted⟩

/-- The segments of the code of a program follow its discipline. -/
structure ProgramCode.Follows (code : ProgramCode) (program : Program) (counted : Prop) : Prop where
  /-- No function is called before the main function. -/
  globals : Discipline.Follows ⟨fun _ _ => False, fun _ => False, fun _ => True, counted⟩ 0
    code.globals 0
  functions : Forall₂ (fun function part => ∃ segment : Segment, part = segment.lines ∧
    segment.Follows (code.discipline program counted) function.parameters.length ∧
    function.body.CodedIn (Calls program.functions code.functions) segment.body) program.functions
    code.functions
  /-- The number of cells of the main function is the spelling of one. -/
  size : IsSize code.size
  main : ((code.discipline program counted).within code.main).Follows 0 code.main 0
  steps : program.body.CodedIn (Calls program.functions code.functions) code.main
  nodup : (CodeLine.labels code.lines).Nodup

/-- **The code of a program** follows its discipline if every jump is placed. -/
theorem Program.code_follows {counted : Prop} (hplaced : program.placed = true)
    (hexact : counted → program.exact = true) (h : program.code labels = some code) :
    code.Follows program counted := by
  have hnodup := Program.nodup_labels_code h
  simp only [Program.code, mainCode, bind_eq_some, toOption_eq_some, Prod.exists, Option.some.injEq]
    at h
  obtain ⟨declared, hdeclared, parts, s, hparts, _, _, ⟨locals, hlocals, steps, marks, hsteps, size,
    hsize, hmain⟩, rfl⟩ := h
  obtain ⟨rfl, rfl⟩ := Prod.mk.inj hmain
  simp only [placed, Bool.and_eq_true, all_eq_true] at hplaced
  simp only [exact, Body.exact, Bool.and_eq_true] at hexact
  obtain ⟨code, hcode⟩ : ∃ code : ProgramCode, code = ⟨declared.lines,
    labelName (labels + 1), parts,
      size, locals.lines ++ steps⟩ := ⟨_, rfl⟩
  rw [← hcode] at hnodup ⊢
  have hnone : ∀ calls, Scopes.Calls calls [.empty 0 false 0] := fun _ => by
    simp [Scopes.Calls, Scope.empty]
  have hgoes : (code.discipline program counted).GoesOn := fun _ => trivial
  have hglobals : Discipline.Follows ⟨fun _ _ => False, fun _ => False, fun _ => True, counted⟩ 0
      declared.lines 0 :=
    (declared?_follows (hnone _) (fun _ => trivial) (fun hc => (hexact hc).1.1) hdeclared).2
  have hscopes : declared.scopes.Calls (code.discipline program counted).calls :=
    (declared?_follows (hnone _) hgoes.computes (fun hc => (hexact hc).1.1) hdeclared).1
  obtain ⟨hscopes', hfunctions⟩ := functionsCode_follows (d := code.discipline program counted)
    hscopes hgoes (fun hcall => by rw [hcode]; exact hcall) hplaced.1
    (fun hc => all_eq_true.1 (hexact hc).1.2) hparts
  obtain ⟨hscopes'', hlocalLines⟩ := declared?_follows
    (d := (code.discipline program counted).within code.main)
    (hscopes'.empty s.scopeCount false declared.size) hgoes.computes
    (fun hc => (hexact hc).2.1) hlocals
  obtain ⟨hstepLines, -⟩ := Stmt.follows (d := (code.discipline program counted).within code.main)
    hscopes'' hgoes (Stmt.coded hsteps) (by simp) hplaced.2 ⟨by simp, by simp⟩
    (fun name hname => by rw [hcode]; exact mem_append_right _ hname) fun hc => (hexact hc).2.2
  have hpos : 1 ≤ (if locals.size + declared.size = 0 then 1 else locals.size + declared.size) := by
    have hfirst := declared?_nonneg hdeclared
    have hsecond := declared?_nonneg hlocals
    split <;> omega
  have hbody := hlocalLines.append hstepLines
  refine ⟨?_, ?_, ?_, ?_, ?_, hnodup⟩
  · rw [hcode]
    exact hglobals
  · have hparts' : code.functions = parts := by rw [hcode]
    rw [← hparts'] at hfunctions
    exact hfunctions
  · rw [hcode]
    exact IsSize.of_writeInteger hsize hpos
  · have hlines : code.main = locals.lines ++ steps := by rw [hcode]
    rw [hlines] at hbody ⊢
    exact hbody
  · exact ⟨_, _, _, _, _, _, hscopes'', Stmt.coded hsteps, by rw [hcode]⟩

/-! ### An example -/

/-- A loop that is left in a function, which is called by the main function. -/
def callingText : String :=
  "int a; function f(int x)\x7b while (x) \x7b x = x - 1; break; \x7d return x; \x7d " ++
    "main()\x7b read a; write 1 + call f(a); \x7d"

/-- The program that the text spells. -/
def calling : Program where
  globals := [⟨⟨"int", Eq.refl "int"⟩, .plain "a", []⟩]
  functions := [⟨⟨"function", Eq.refl "function"⟩, "f", ["x"], [],
    .next (.while ⟨"while", Eq.refl "while"⟩ (test (use "x")) (.compound (.next
      (.expression (.assign ⟨"x", none⟩ (.sum (.plus (.product (use "x")) .minus
        (.factor (.number (Text.numeral 1)))))))
        (.next (.jump (.stop ⟨"break", Eq.refl "break"⟩)) .done))))
      (.next (.return (test (use "x"))) .done)⟩]
  keyword := ⟨"main", Eq.refl "main"⟩
  body.declarations := []
  body.steps := .next (.read ⟨"read", Eq.refl "read"⟩ ⟨"a", none⟩) (.next
    (.write ⟨"write", Eq.refl "write"⟩ (.logical (.sum (.plus
      (.product (.factor (.number (Text.numeral 1)))) .plus
      (.factor (.call "f" (.argument (test (use "a"))))))))) .done)
where
  use (name : String) : Expr .product := .factor (.variable ⟨name, none⟩)
  test (e : Expr .product) : Expr .expression := .logical (.sum (.product e))

/-- The generator succeeds with the text. -/
theorem exists_generate_calling : ∃ parsed g, parse (tokenize callingText.toList).lines = .ok
    parsed ∧ parsed.tree.shape = calling.tree ∧ generate parsed.tree 0 = (.ok (), g) := by
  have hspelled : calling.IsSpelledBy callingText := by decide +kernel
  exact hspelled.exists_generate

end ScoreLang
