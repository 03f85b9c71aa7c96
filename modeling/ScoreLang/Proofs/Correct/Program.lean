import ScoreLang.Proofs.Code.Segments
import ScoreLang.Proofs.Correct.Declaration
import ScoreLang.Proofs.Parse.Scope

/-!
# The Code of a Program Does What the Program Means

The code of a program of the core begins with its global declarations and then jumps to the main
function. That one opens its frame, whose cells come after those of the global variables, and goes
on with its declarations and statements. The first part runs before the frame is opened, and the
second one after it; the two settings have the same layout, so the configuration is handed on.

## Main results

* `Program.code_core`: the parts of the code of a program of the core;
* `Program.Compiled.exists_haltsIn`: if the program comes to an end, then so does its code;
* `Program.Compiled.exists_evaluates`: if the code comes to an end, then so does the program.
-/

namespace ScoreLang

open List Machine Text

/-! ### Cells -/

theorem Declarator.owner_of_mem_cells {isLocal : Bool} {d : Declarator} {cell : Cell}
    (h : cell ∈ d.cells isLocal) : cell.owner = ⟨isLocal, d.name⟩ := by
  obtain ⟨k, -, rfl⟩ := mem_map.1 h
  rfl

theorem Declarator.nodup_flatMap_cells {isLocal : Bool} {ds : List Declarator}
    (h : (ds.map Declarator.name).Nodup) : (ds.flatMap (Declarator.cells isLocal)).Nodup := by
  induction ds with
  | nil => exact nodup_nil
  | cons d ds ih =>
    rw [map_cons, nodup_cons] at h
    rw [flatMap_cons, nodup_append']
    refine ⟨?_, ih h.2, ?_⟩
    · exact List.Nodup.map (fun a b hab => (Cell.mk.inj hab).2) nodup_range
    · intro cell hd hds
      obtain ⟨e, he, hmem⟩ := mem_flatMap.1 hds
      have howner := (owner_of_mem_cells hd).symm.trans (owner_of_mem_cells hmem)
      exact h.1 (mem_map.2 ⟨e, he, (Variable.mk.inj howner).2.symm⟩)

/-- The cells of a program are different from each other. -/
theorem Program.nodup_cells {program : Program} (h : program.WellNamed) : program.cells.Nodup := by
  rw [cells, nodup_append']
  refine ⟨Declarator.nodup_flatMap_cells h.1, Declarator.nodup_flatMap_cells h.2, ?_⟩
  intro cell hglobal hlocal
  obtain ⟨d, -, hd⟩ := mem_flatMap.1 hglobal
  obtain ⟨e, -, he⟩ := mem_flatMap.1 hlocal
  have howner := (Declarator.owner_of_mem_cells hd).symm.trans (Declarator.owner_of_mem_cells he)
  exact Bool.noConfusion (Variable.mk.inj howner).1

/-! ### Parts of the code -/

/-- The code of a program of the core and its parts. -/
structure Program.Compiled (program : Program) (labels : Nat) (lines : List CodeLine)
    (globals locals : Declared) (steps : List CodeLine) (marks : Marks) (size : String) : Prop where
  globals_eq : declared? [.empty 0 false 0] (declarators program.globals) = some globals
  locals_eq : declared? (.empty 1 false globals.size :: globals.scopes)
    (declarators program.body.declarations) = some locals
  steps_eq : program.body.steps.code locals.scopes "" none ⟨labels + 1, none, none⟩
    = some (steps, marks)
  size_eq : writeInteger (if locals.size + globals.size = 0 then 1
    else locals.size + globals.size) = .ok size
  lines_eq : lines = globals.lines ++ Operation.branch.line (labelName (labels + 1)) ::
    .label (labelName (labels + 1)) :: Operation.allocate.line size ::
      (locals.lines ++ (steps ++ [.command stopWord ""]))

namespace Program

theorem functions_eq_nil {program : Program} (h : program.isCore = true) :
    program.functions = [] := by
  simp only [isCore, Bool.and_eq_true, List.isEmpty_iff] at h
  exact h.1.1.1

theorem isCore_globals {program : Program} (h : program.isCore = true) :
    ∀ d ∈ declarators program.globals, d.isCore = true := by
  simp only [isCore, Bool.and_eq_true, List.all_eq_true] at h
  exact h.1.1.2

theorem isCore_locals {program : Program} (h : program.isCore = true) :
    ∀ d ∈ declarators program.body.declarations, d.isCore = true := by
  simp only [isCore, Bool.and_eq_true, all_eq_true] at h
  exact h.1.2

theorem isCore_steps {program : Program} (h : program.isCore = true) :
    program.body.steps.isCore = true := by
  simp only [isCore, Bool.and_eq_true] at h
  exact h.2

/-- **The code of a program of the core** is made of that of its declarations and its statements. -/
theorem code_core {program : Program} {labels : Nat} {code : ProgramCode}
    (hcore : program.isCore = true) (h : program.code labels = some code) :
    ∃ globals locals steps marks size,
      program.Compiled labels code.lines globals locals steps marks size := by
  simp only [Program.code, functions_eq_nil hcore, functionsCode, mainCode, bind_eq_some,
    Option.some.injEq, exists_eq_left', toOption_eq_some, Prod.exists] at h
  obtain ⟨globals, hglobals, _, _, ⟨locals, hlocals, steps, marks, hsteps, size, hsize, hmain⟩,
    rfl⟩ := h
  obtain ⟨rfl, rfl⟩ := Prod.mk.inj hmain
  exact ⟨globals, locals, steps, marks, size, hglobals, hlocals, hsteps, hsize,
    by simp [ProgramCode.lines]⟩

namespace Compiled

variable {program : Program} {labels : Nat} {lines : List CodeLine} {globals locals : Declared}
  {steps : List CodeLine} {marks : Marks} {size : String}

/-- The variables are where the layout has them. -/
theorem placed (h : program.Compiled labels lines globals locals steps marks size)
    (hcore : program.isCore = true) (hnamed : program.WellNamed) :
    Laid program.cells false [] (declarators program.globals) globals.lines [] ∧
      (∃ names inner done,
        Laid program.cells true [] (declarators program.body.declarations) locals.lines names ∧
        Placed program.cells names inner done locals.scopes) ∧
      ∃ count, Spells size count := by
  obtain ⟨_, _, hlaid, hempty, hplaced, hsize⟩ := Placed.laid []
    (Placed.empty program.cells 0) (isCore_globals hcore) (by simp) hnamed.1 (fun _ => rfl) rfl
    h.globals_eq
  obtain rfl := hempty rfl
  have hlocals := h.locals_eq
  rw [hsize] at hlocals
  obtain ⟨names, inner, hlaid', -, hplaced', hsize'⟩ :=
    Placed.laid _ (hplaced.nest 1) (isCore_locals hcore) (by simp) hnamed.2
      (fun hfalse => Bool.noConfusion hfalse) (by rw [append_nil]; rfl) hlocals
  refine ⟨hlaid, ⟨names, inner, _, hlaid', hplaced'⟩, ?_⟩
  have htext := h.size_eq
  rw [hsize, hsize'] at htext
  split at htext
  · exact ⟨1, htext⟩
  · exact ⟨_, by exact_mod_cast htext⟩

/-! ### The run -/

variable {S : Setting}

variable (h : program.Compiled labels S.lines globals locals steps marks size)

include h

/-- The code in a setting. -/
theorem has :
    S.Has 0 (globals.lines ++ Operation.branch.line (labelName (labels + 1)) ::
      .label (labelName (labels + 1)) :: Operation.allocate.line size ::
        (locals.lines ++ (steps ++ [.command stopWord ""]))) := by
  intro i line hline
  rw [Nat.zero_add, h.lines_eq, hline]

/-- The code goes through the global declarations to the label of the main function. -/
theorem realises_globals (hcore : program.isCore = true)
    (hlaid : Laid S.layout false [] (declarators program.globals) globals.lines []) :
    S.Realises 0 (globals.lines.length + 1) (fun c c' => ∃ store,
      Declarator.runAll false [] (declarators program.globals) c.store = some ([], store) ∧
        c' = { c with store := store }) := by
  have hglobals := Setting.realises_laid (isCore_globals hcore) hlaid h.has.left
  rw [Nat.zero_add] at hglobals
  have hrest := h.has.right
  rw [Nat.zero_add] at hrest
  exact hglobals.branch (labelName_ne_empty _) hrest.head hrest.tail.head

/-- The frame of the main function is opened. -/
theorem moves_opened (hbase : S.base = 0) {count : Nat} (hcount : Spells size count)
    (stack : List Int) (c : Config) :
    Moves S.code (S.state (globals.lines.length + 1) stack c)
      ((S.opened count).state (globals.lines.length + 3) stack c) := by
  have hrest := h.has.right
  rw [Nat.zero_add] at hrest
  rw [Setting.state_label hrest.tail.head]
  exact Setting.moves_allocate hrest.tail.tail.head hcount hbase

/-- The code goes through the declarations and the statements of the main function. -/
theorem realises_main (hcore : program.isCore = true) {names inner : List String} {done : Nat}
    (hlaid : Laid S.layout true [] (declarators program.body.declarations) locals.lines names)
    (hplaced : Placed S.layout names inner done locals.scopes) (count : Nat) :
    (S.opened count).Realises (globals.lines.length + 3)
      (globals.lines.length + 3 + locals.lines.length + steps.length)
      (fun c c' => ∃ d, (∃ store, Declarator.runAll true [] (declarators program.body.declarations)
        c.store = some (names, store) ∧ d = { c with store := store }) ∧
          program.body.steps.Runs names d c') := by
  have hrest : (S.opened count).Has (globals.lines.length + 3)
      (locals.lines ++ (steps ++ [.command stopWord ""])) := by
    have hhas := h.has.right.tail.tail.tail
    rwa [Nat.zero_add] at hhas
  have hlocals := Setting.realises_laid (S := S.opened count) (isCore_locals hcore) hlaid hrest.left
  exact hlocals.seq (Setting.realises_stmt (S := S.opened count) hplaced (isCore_steps hcore)
    h.steps_eq hrest.right.left)

/-- The code is at its end. -/
theorem haltsIn_stop (hlayout : S.layout = program.cells) (count : Nat) (stack : List Int)
    (final : Config) :
    ∃ out, HaltsIn S.code 0 ((S.opened count).state
        (globals.lines.length + 3 + locals.lines.length + steps.length) stack final) out ∧
      out.console = shownText final.shown ++ finishedReport ∧
      out.cells = memory program.cells final.store := by
  have hstop := h.has.right.tail.tail.tail.right.right.head
  rw [Nat.zero_add] at hstop
  exact ⟨_, S.holds.haltsIn_stop hstop rfl, rfl, by rw [← hlayout]; rfl⟩

/-- **Forward**: if a program comes to an end, then so does its code, with the same values. -/
theorem exists_haltsIn (hcore : program.isCore = true) (hnamed : program.WellNamed)
    (hlayout : S.layout = program.cells) (hbase : S.base = 0) {input : List Entered}
    {final : Config} (heval : program.Evaluates input final) (hfits : final.Fits) :
    ∃ n out, HaltsIn S.code n (S.state 0 [] ⟨.zero, input, []⟩) out ∧
      out.console = shownText final.shown ++ finishedReport ∧
      out.cells = memory program.cells final.store := by
  obtain ⟨hglobals, ⟨names, inner, done, hlocals, hplaced⟩, count, hcount⟩ := h.placed hcore hnamed
  rw [← hlayout] at hglobals hlocals hplaced
  obtain ⟨global, names', store, hglobal, hlocal, hruns⟩ := heval
  obtain rfl := hlocals.locals_eq hlocal
  have hmain := h.realises_main hcore hlocals hplaced count
  obtain ⟨n, stack, hn⟩ := (h.realises_globals hcore hglobals).forward []
    (c := ⟨.zero, input, []⟩) ⟨global, hglobal, rfl⟩ (by simp [Config.Fits])
  obtain ⟨m, stack', hm⟩ := hmain.forward stack (c := ⟨global, input, []⟩)
    ⟨_, ⟨store, hlocal, rfl⟩, hruns⟩ hfits
  obtain ⟨out, hout, hconsole, hcells⟩ := h.haltsIn_stop hlayout count stack' final
  have hhalts := (hn.trans (.head (h.moves_opened hbase hcount _ _) hm)).haltsIn hout
  exact ⟨_, out, hhalts, hconsole, hcells⟩

/-- **Backward**: if the code comes to an end, then so does the program, with the same values. -/
theorem exists_evaluates (hcore : program.isCore = true) (hnamed : program.WellNamed)
    (hlayout : S.layout = program.cells) (hbase : S.base = 0) {input : List Entered} {n : Nat}
    {out : State} (hhalts : HaltsIn S.code n (S.state 0 [] ⟨.zero, input, []⟩) out) :
    ∃ final, program.Evaluates input final ∧ final.Fits ∧
      out.console = shownText final.shown ++ finishedReport ∧
      out.cells = memory program.cells final.store := by
  obtain ⟨hglobals, ⟨names, inner, done, hlocals, hplaced⟩, count, hcount⟩ := h.placed hcore hnamed
  rw [← hlayout] at hglobals hlocals hplaced
  have hmain := h.realises_main hcore hlocals hplaced count
  obtain ⟨_, stack, m, ⟨global, hglobal, rfl⟩, hfirst, -, hm⟩ :=
    (h.realises_globals hcore hglobals).backward (by simp [Config.Fits]) hhalts
  obtain ⟨k, -, hk⟩ := hm.of_moves (h.moves_opened hbase hcount _ _)
  obtain ⟨final, stack', l, ⟨_, ⟨store, hlocal, rfl⟩, hruns⟩, hfits, -, hl⟩ :=
    hmain.backward hfirst hk
  obtain ⟨out', hout, hconsole, hcells⟩ := h.haltsIn_stop hlayout count stack' final
  obtain rfl := hout.unique hl
  exact ⟨final, ⟨global, names, store, hglobal, hlocal, hruns⟩, hfits, hconsole, hcells⟩

end Compiled

/-! ### The machine -/

/-- The setting in which the code of a program begins to run. -/
def setting (program : Program) (hnamed : program.WellNamed)
    (hroom : program.cells.length ≤ memorySize) {lines : List CodeLine}
    (hholds : (Code.ofText (CodeLine.listText lines)).Holds lines) : Setting where
  code := .ofText (CodeLine.listText lines)
  lines := lines
  holds := hholds
  layout := program.cells
  nodup := program.nodup_cells hnamed
  length_le := hroom
  base := 0
  frames := []

/-- The run begins with a configuration in which all cells are zero. -/
theorem settle_initial {program : Program} (hnamed : program.WellNamed)
    (hroom : program.cells.length ≤ memorySize) {lines : List CodeLine}
    (hholds : (Code.ofText (CodeLine.listText lines)).Holds lines) (input : List Entered) :
    (State.initial (input.map Entered.text)).settle (.ofText (CodeLine.listText lines))
      = (program.setting hnamed hroom hholds).state 0 [] ⟨.zero, input, []⟩ := by
  have hcells : Vector.replicate memorySize (.integer 0) = memory program.cells .zero := by
    ext i hi
    cases hcell : program.cells[i]? <;> simp [memory, hcell, Store.zero]
  simp [State.initial, State.settle, Setting.state, setting, hcells, shownText]

/-- If a program of the core comes to an end, then its code is run to its end. -/
theorem Evaluates.exists_stopsIn {program : Program} {labels : Nat} {code : ProgramCode}
    {input : List Entered} {final : Config} (heval : program.Evaluates input final)
    (hfits : final.Fits) (hcore : program.isCore = true) (hnamed : program.WellNamed)
    (hroom : program.cells.length ≤ memorySize) (hcode : program.code labels = some code)
    (hholds : (Code.ofText (CodeLine.listText code.lines)).Holds code.lines) :
    ∃ out, (Code.ofText (CodeLine.listText code.lines)).StopsIn (input.map Entered.text) out ∧
      out.console = shownText final.shown ++ finishedReport ∧
      out.cells = memory program.cells final.store := by
  obtain ⟨globals, locals, steps, marks, size, h⟩ := code_core hcore hcode
  obtain ⟨n, out, hhalts, hout⟩ :=
    h.exists_haltsIn (S := program.setting hnamed hroom hholds) hcore hnamed rfl rfl heval hfits
  rw [← settle_initial] at hhalts
  exact ⟨out, stopsIn_iff.2 ⟨n, hhalts⟩, hout⟩

/-- If the code of a program of the core is run to its end, then the program comes to an end. -/
theorem exists_evaluates_of_stopsIn {program : Program} {labels : Nat} {code : ProgramCode}
    {input : List Entered} {out : State}
    (hstops : (Code.ofText (CodeLine.listText code.lines)).StopsIn (input.map Entered.text) out)
    (hcore : program.isCore = true) (hnamed : program.WellNamed)
    (hroom : program.cells.length ≤ memorySize) (hcode : program.code labels = some code)
    (hholds : (Code.ofText (CodeLine.listText code.lines)).Holds code.lines) :
    ∃ final, program.Evaluates input final ∧ final.Fits ∧
      out.console = shownText final.shown ++ finishedReport ∧
      out.cells = memory program.cells final.store := by
  obtain ⟨globals, locals, steps, marks, size, h⟩ := code_core hcore hcode
  obtain ⟨n, hhalts⟩ := stopsIn_iff.1 hstops
  rw [settle_initial hnamed hroom hholds] at hhalts
  exact h.exists_evaluates (S := program.setting hnamed hroom hholds) hcore hnamed rfl rfl hhalts

end Program

/-! ### The compiler -/

theorem Stmt.plain_of_isCore {part : Part} {s : Stmt part} (h : s.isCore = true) :
    s.plain = true := by
  induction s with
  | _ => simp_all [isCore, plain]

theorem Program.plain_of_isCore {program : Program} (h : program.isCore = true) :
    program.plain = true := by
  rw [plain, functions_eq_nil h, Stmt.plain_of_isCore (isCore_steps h)]
  rfl

/-- **Compiler correctness**: the code that is generated for a program of the core is run to its end
exactly if the program comes to an end, and then it has shown what the program shows, and the memory
holds the values of all variables. -/
theorem stopsIn_iff_evaluates {text : List Char} {parsed : Parsed} {program : Program}
    {labels : Nat} {g : Generator} (hparse : parse (tokenize text).lines = .ok parsed)
    (hshape : parsed.tree.shape = program.tree) (hcore : program.isCore = true)
    (hroom : program.cells.length ≤ memorySize)
    (hgenerate : generate parsed.tree labels = (.ok (), g)) (input : List Entered) :
    ((∃ out, (Code.ofText g.code).StopsIn (input.map Entered.text) out) ↔
        ∃ final, program.Evaluates input final ∧ final.Fits) ∧
      ∀ {out : State} {final : Config},
        (Code.ofText g.code).StopsIn (input.map Entered.text) out →
        program.Evaluates input final →
        out.console = shownText final.shown ++ finishedReport ∧
          out.cells = memory program.cells final.store := by
  have hnamed := wellNamed_of_parse (isWellSpelled_tokenize text) hparse hshape
    (program.functions_eq_nil hcore)
  obtain ⟨code, hcode, hwritten, -⟩ :=
    generate_plain hshape (Program.plain_of_isCore hcore) hgenerate
  have htext : g.code = CodeLine.listText code.lines := by
    rw [Generator.code, hwritten]
  have hholds := generate_holds hshape hgenerate hcode hwritten
  rw [htext] at hholds ⊢
  refine ⟨⟨?_, ?_⟩, ?_⟩
  · rintro ⟨out, hstops⟩
    obtain ⟨final, heval, hfits, -⟩ :=
      Program.exists_evaluates_of_stopsIn hstops hcore hnamed hroom hcode hholds
    exact ⟨final, heval, hfits⟩
  · rintro ⟨final, heval, hfits⟩
    obtain ⟨out, hstops, -⟩ := heval.exists_stopsIn hfits hcore hnamed hroom hcode hholds
    exact ⟨out, hstops⟩
  · intro out final hstops heval
    obtain ⟨other, hother, -, hout⟩ :=
      Program.exists_evaluates_of_stopsIn hstops hcore hnamed hroom hcode hholds
    obtain rfl := heval.unique hother
    exact hout

/-! ### An example -/

/-- A program that counts down from a number. -/
def countdownText : String :=
  "int a; main()\x7b read a; while (a) \x7b write a; a = a - 1; \x7d \x7d"

/-- The variable of the program as an operand. -/
def countdownUse : Expr .sum := .product (.factor (.variable ⟨"a", none⟩))

/-- The program that the text spells. -/
def countdown : Program where
  globals := [⟨⟨"int", Eq.refl "int"⟩, .plain "a", []⟩]
  functions := []
  keyword := ⟨"main", Eq.refl "main"⟩
  body.declarations := []
  body.steps :=
    .next (.read ⟨"read", Eq.refl "read"⟩ ⟨"a", none⟩)
      (.next (.while ⟨"while", Eq.refl "while"⟩ (.logical (.sum countdownUse))
        (.compound (.next (.write ⟨"write", Eq.refl "write"⟩ (.logical (.sum countdownUse)))
          (.next (.expression (.assign ⟨"a", none⟩
            (.sum (.plus countdownUse .minus (.factor (.number (numeral 1)))))))
            .done)))) .done)

/-- The number from which it counts down. -/
def countdownInput : Entered := ⟨"1", 1, by decide⟩

/-- The configuration at its end. -/
def countdownEnd : Config where
  store := (Store.zero.set ⟨⟨false, "a"⟩, 0⟩ 1).set ⟨⟨false, "a"⟩, 0⟩ 0
  input := []
  shown := [.prompt, .value 1]

theorem evaluates_countdown : countdown.Evaluates [countdownInput] countdownEnd := by
  refine ⟨.zero, [], .zero, rfl, rfl, ⟨_, [], [.prompt]⟩, ⟨countdownInput, [], rfl, rfl⟩,
    countdownEnd, ?_, rfl⟩
  have hstop : (Expr.logical (.sum countdownUse)).Yields [] countdownEnd 0 countdownEnd :=
    ⟨_, rfl, rfl⟩
  refine .again ⟨_, rfl, rfl⟩ (by decide) ?_ (.stop hstop)
  exact ⟨_, ⟨1, _, ⟨_, rfl, rfl⟩, rfl⟩, _, ⟨0, _, rfl, rfl⟩, rfl⟩

theorem fits_countdownEnd : countdownEnd.Fits := by
  intro item hitem
  simp only [countdownEnd, mem_cons, not_mem_nil, or_false] at hitem
  rcases hitem with rfl | rfl
  · exact trivial
  · exact one_lt_writeLimit

/-- The code for the program is run to its end, and shows the number. -/
theorem stopsIn_countdown : ∃ parsed g,
    parse (tokenize countdownText.toList).lines = .ok parsed ∧
    generate parsed.tree 0 = (.ok (), g) ∧
    ∃ out, (Code.ofText g.code).StopsIn ["1"] out ∧
      out.console = shownText [.prompt, .value 1] ++ finishedReport := by
  have hspelled : countdown.IsSpelledBy countdownText := by decide +kernel
  obtain ⟨parsed, g, hparse, hshape, hcode⟩ := hspelled.exists_generate
  have hcorrect := stopsIn_iff_evaluates hparse hshape (by decide) (by decide) hcode
    [countdownInput]
  obtain ⟨out, hout⟩ := hcorrect.1.2 ⟨countdownEnd, evaluates_countdown, fits_countdownEnd⟩
  exact ⟨parsed, _, hparse, hcode, out, hout, (hcorrect.2 hout evaluates_countdown).1⟩

end ScoreLang
