import ScoreLang.Proofs.Machine.Running

/-!
# The Flow of Control

The code of a program consists of segments: one for the global variables, one for each function and
one for the main function. Jumps stay in a segment and calls go to the segments of functions, so
the calls that are pending tell in which segment the machine is. It does not run from one segment
into the next, and a function returns only if it has been called.

This does not hold of every program that is accepted: a jump that is not spelled `break` goes to the
last loop before it if there is none around it, which may be that of another function.

## Main results

* `ProgramCode.IsConfined`: the segments of some code;
* `ProgramCode.Located`: where the machine may be, by the calls that are pending;
* `generate_located`: **the flow of control** when the code of a program is run.
-/

namespace ScoreLang

open List Machine

/-! ### Segments -/

/-- Where an operation may lead: a jump to one of some labels, a call to one of some functions. It
does not open or close a frame. -/
def Operation.Confined (labels functions : String → Prop) (operand : String) : Operation → Prop
  | .branch | .branchFalse => labels operand
  | .call => functions operand
  | .allocate | .leave => False
  | _ => True

/-- Jumps in some lines go to labels of these lines, calls go to some functions, and frames are
neither opened nor closed. -/
structure Confined (functions : String → Prop) (lines : List CodeLine) : Prop where
  /-- Commands. -/
  command : ∀ {operation : Operation} {operand : String}, operation.line operand ∈ lines →
    operation.Confined (fun name => .label name ∈ lines) functions operand
  /-- Commands that have been written without an operand. -/
  bare : ∀ {operation : Operation}, .bare operation.mnemonic ∈ lines → operation.goesOn = true

theorem Discipline.Passes.confined {d : Discipline} {height height' : Nat} {operation : Operation}
    {operand : String} (h : d.Passes height (operation.line operand) height') :
    operation.Confined d.targets (fun label => ∃ count, d.calls label count) operand := by
  generalize hline : operation.line operand = line at h
  cases h with
  | label | bare => cases hline
  | branch htarget | branchFalse htarget =>
    obtain ⟨rfl, rfl⟩ := Operation.line_injective hline
    exact htarget
  | call hcall =>
    obtain ⟨rfl, rfl⟩ := Operation.line_injective hline
    exact ⟨_, hcall⟩
  | operation hgoes =>
    obtain ⟨rfl, rfl⟩ := Operation.line_injective hline
    cases operation with
    | branch | branchFalse | call | allocate | leave => exact Bool.noConfusion hgoes
    | _ => trivial

theorem Discipline.Follows.confined {d : Discipline} {lines : List CodeLine} {height height' : Nat}
    (h : d.Follows height lines height') {functions : String → Prop}
    (htargets : ∀ name, d.targets name → .label name ∈ lines)
    (hcalls : ∀ label count, d.calls label count → functions label) : Confined functions lines := by
  have hpasses : ∀ line ∈ lines, ∃ k k', d.Passes k line k' := by
    intro line hline
    obtain ⟨first, second, rfl⟩ := append_of_mem hline
    obtain ⟨k, k', -, hpasses, -⟩ := h.passes
    exact ⟨k, k', hpasses⟩
  constructor
  · intro operation operand hline
    obtain ⟨k, k', hpasses⟩ := hpasses _ hline
    have hconfined := hpasses.confined
    cases operation with
    | branch | branchFalse => exact htargets _ hconfined
    | call =>
      obtain ⟨count, hcall⟩ := hconfined
      exact hcalls _ count hcall
    | _ => exact hconfined
  · intro operation hline
    obtain ⟨k, k', hpasses⟩ := hpasses _ hline
    generalize hbare : CodeLine.bare operation.mnemonic = line at hpasses
    cases hpasses with
    | bare hgoes => rwa [Operation.mnemonic_injective (CodeLine.bare.inj hbare)]
    | _ => cases hbare

namespace ProgramCode

/-- The label of a function. -/
def IsFunction (code : ProgramCode) (label : String) : Prop :=
  ∃ part ∈ code.functions, part.head? = some (.label label)

/-- The segments of some code are confined. -/
structure IsConfined (code : ProgramCode) : Prop where
  /-- Labels are defined once. -/
  nodup : (CodeLine.labels code.lines).Nodup
  /-- The global variables are set without labels, jumps or calls. -/
  globals : CodeLine.labels code.globals = [] ∧ Confined (fun _ => False) code.globals
  /-- The segment of a function begins with its label and ends with its return. -/
  functions : ∀ part ∈ code.functions, ∃ segment : Segment, part = segment.lines ∧
    Confined code.IsFunction segment.body
  /-- The main function. -/
  main : Confined code.IsFunction code.main

/-- Where the machine may be in some code, by the calls from which it has not come back. -/
inductive Located (code : ProgramCode) : List Nat → Nat → Prop where
  /-- The global variables are being set. -/
  | globals {place : Nat} : place ≤ code.globals.length → Located code [] place
  /-- The main function is active. -/
  | main {place : Nat} : code.mainStart < place → place < code.lines.length → Located code [] place
  /-- A function is active that has been called. -/
  | function {returns : List Nat} {line place : Nat} {label : String}
      {first second part : List CodeLine} : Located code returns line →
      code.lines[line]? = some (Operation.call.line label) → part ∈ code.functions →
      part.head? = some (.label label) → code.lines = first ++ (part ++ second) →
      first.length < place → place < first.length + part.length → Located code (line ::
        returns) place

/-- The code of a program is confined. -/
theorem Follows.isConfined {code : ProgramCode} {program : Program} {counted : Prop}
    (h : code.Follows program counted) : code.IsConfined := by
  have hcalls : ∀ label count, Calls program.functions code.functions label count →
      code.IsFunction label := by
    rintro label count ⟨pair, hpair, hhead, -⟩
    exact ⟨pair.2, (of_mem_zip hpair).2, hhead⟩
  refine ⟨h.nodup, ⟨h.globals.labels_eq_nil fun _ => id, ?_⟩, ?_, ?_⟩
  · exact h.globals.confined (fun _ => False.elim) fun _ _ => id
  · intro part hpart
    obtain ⟨i, hi, rfl⟩ := getElem_of_mem hpart
    obtain ⟨hlength, hfunctions⟩ := forall₂_iff_get.1 h.functions
    obtain ⟨segment, hlines, hsegment, -⟩ := hfunctions i (hlength ▸ hi) hi
    exact ⟨segment, hlines, hsegment.body.confined (fun _ => id) hcalls⟩
  · exact h.main.confined (fun _ => id) hcalls

end ProgramCode

/-- A place is one of a block, after the label with which it begins, or just after the block. -/
def Block.Has (b : Block) (place : Nat) : Prop :=
  b.start + min 1 b.head.length ≤ place ∧ place ≤ b.stop

theorem Block.Spot.has {b : Block} {lines first second : List CodeLine} {place height : Nat}
    (h : b.Spot lines first second place height) : b.Has place := by
  rw [Block.Has, h.place_eq, Block.stop]
  simp only [Block.lines, h.body, length_append]
  omega

section Control

variable {machine : Code} {code : ProgramCode} {program : Program} {counted : Prop} {s : State}
  {bottom : List Value} {block : Block} {below : List Value} {height : Nat}

theorem Pending.located {returns : List Nat} {place : Nat}
    (h : Pending code program counted (code.Base program counted) bottom returns block below)
    (hplace : block.Has place) : code.Located returns place := by
  induction h generalizing place with
  | base hbase =>
    obtain ⟨rfl, rfl | rfl⟩ := hbase
    · have hlast := hplace.2
      simp only [Block.stop, Block.lines, ProgramCode.opening, nil_append] at hlast
      exact .globals (by omega)
    · obtain ⟨before, after, hlines, hstart⟩ := code.mainBlock_stands program counted
      refine .main hplace.1 ?_
      have hlast := hplace.2
      rw [Block.stop] at hlast
      simp only [hlines, length_append, length_cons]
      omega
  | @call _ _ _ _ _ _ _ _ _ _ segment _ _ _ hspot hsegment _ _ ih =>
    obtain ⟨before, after, hlines, hstart⟩ := hsegment.stands
    have hparts : code.lines = before ++ (segment.lines ++ after) := by
      simp [hlines, Block.lines, Segment.block, Segment.lines]
    refine .function (ih hspot.has) hspot.getElem? hsegment.mem
      (by rw [← hsegment.label_eq]; rfl) hparts ?_ ?_
    · exact hstart ▸ hplace.1
    · have hlast := hplace.2
      simp only [Block.stop, Block.lines, Segment.block, length_append, length_cons, length_nil]
        at hlast hstart
      simp only [Segment.lines, length_append, length_cons, length_nil]
      omega

/-- A block of a program is followed by a command. -/
theorem Pending.settle_stop (hholds : machine.Holds code.lines) {returns : List Nat}
    (h : Pending code program counted (code.Base program counted) bottom returns block below) :
    machine.settle block.stop = block.stop := by
  cases h with
  | base hbase =>
    obtain ⟨-, rfl | rfl⟩ := hbase
    · exact hholds.settle_command (code.opening_stands counted).getElem?
    · exact hholds.settle_command (code.mainBlock_stands program counted).getElem?
  | call _ _ hsegment => exact hholds.settle_command hsegment.stands.getElem?

theorem Running.located (hholds : machine.Holds code.lines)
    (h : Running code program counted machine (code.Base program counted) bottom s block below
    height) :
    ∃ place, s.next = some place ∧ code.Located s.returns place := by
  cases h.contains with
  | head henters =>
    obtain ⟨label, hhead⟩ := henters.head
    refine ⟨_, henters.next, h.pending.located ⟨by simp [hhead], ?_⟩⟩
    simp [hhead, Block.stop, Block.lines]
  | @body second place _ hbody =>
    obtain ⟨first, hspot⟩ := hbody.spot
    refine ⟨place, ?_, h.pending.located hspot.has⟩
    cases second with
    | cons => exact hbody.next_eq hholds
    | nil => rw [hbody.next, hspot.eq_stop, h.pending.settle_stop hholds]

theorem Machine.State.At.operation_eq {place place' : Nat} {operation operation' : Operation}
    {operand operand' : Option String} (h : s.At machine place operation operand)
    (h' : s.At machine place' operation' operand') : operation = operation' := by
  have hplace := h'.next.symm.trans h.next
  have hinstruction := h'.instruction
  rw [Option.some.inj hplace, h.instruction] at hinstruction
  exact (Instruction.perform.inj (Option.some.inj hinstruction)).1

/-- A function returns to where it has been called. -/
theorem Running.returns_ne_nil (hholds : machine.Holds code.lines) {place : Nat}
    {operand : Option String}
    (h : Running code program counted machine (code.Base program counted) bottom s block below
    height)
    (hleave : s.At machine place .leave operand) : s.returns ≠ [] := by
  intro hreturns
  have hother : ∀ {line : CodeLine} {place : Nat} {operation : Operation} {text : String},
      code.lines[place]? = some line → line.row = (operation.line text).row →
      s.next = some (machine.settle place) → operation = .leave := fun hline hrow hnext =>
    (hholds.at_line hline hrow hnext).operation_eq hleave
  cases h.contains with
  | head henters => exact Operation.noConfusion ((henters.at hholds).operation_eq hleave)
  | @body second place height hbody =>
    obtain ⟨first, hspot⟩ := hbody.spot
    cases second with
    | nil =>
      have hpending := h.pending
      have hnext := hbody.next
      rw [hreturns] at hpending
      rw [hspot.eq_stop] at hnext
      cases hpending with
      | base hbase =>
        obtain ⟨-, rfl | rfl⟩ := hbase
        · have hbranch : Operation.branch = .leave :=
            hother (code.opening_stands counted).getElem? rfl hnext
          exact Operation.noConfusion hbranch
        · have hline := (code.mainBlock_stands program counted).getElem?
          have hplace := hleave.next
          rw [hnext, Option.map_some, hholds.settle_command hline,
            hholds.settle_command hline] at hplace
          have hstop := hleave.instruction
          rw [← Option.some.inj hplace, hholds.row, hline] at hstop
          exact Instruction.noConfusion (Option.some.inj hstop)
    | cons line second =>
      cases hspot.ahead with
      | cons hline _ =>
        have hthere := hspot.getElem?
        cases hline with
        | label => exact absurd (hbody.command _ rfl) (by simp [CodeLine.name?])
        | branch | branchFalse | call =>
          exact Operation.noConfusion (hother hthere rfl hbody.next)
        | operation hgoes =>
          rw [hother hthere rfl hbody.next] at hgoes
          exact Bool.noConfusion hgoes
        | @bare _ operation hgoes =>
          have hrow : (CodeLine.bare operation.mnemonic).row = (operation.line "").row := rfl
          rw [hother hthere hrow hbody.next] at hgoes
          exact Bool.noConfusion hgoes

end Control

/-- **The flow of control** in a program in which no semicolon stands alone, and every jump stands
in a loop of its function, or in a switch if it is spelled `break`. Its labels are defined once,
jumps stay in a segment, and calls go to segments of functions. When the code is run, the machine
is always in the segment of the function that has been called last and has not returned. -/
theorem generate_located {tree : SyntaxTree} {program : Program} {labels : Nat} {g : Generator}
    (hshape : tree.shape = program.tree) (hplain : program.plain = true)
    (hplaced : program.placed = true) (h : generate tree labels = (.ok (), g)) :
    ∃ code : ProgramCode, g.written.toList = code.lines ∧
      code.functions.length = program.functions.length ∧ code.IsConfined ∧
      ∀ {input : List String} {n : Nat} {s : State},
        Steps (Code.ofText g.code) n ((State.initial input).settle (Code.ofText g.code)) s →
        (∃ place, s.next = some place ∧ code.Located s.returns place) ∧
        ∀ {place : Nat} {operand : Option String}, s.At (Code.ofText g.code) place .leave operand →
          s.returns ≠ [] := by
  obtain ⟨code, hcode, hwritten, -⟩ := generate_plain hshape hplain h
  have hholds := generate_holds hshape h hcode hwritten
  have hfollows : code.Follows program False := Program.code_follows hplaced False.elim hcode
  refine ⟨code, hwritten, hfollows.functions.length_eq.symm, hfollows.isConfined, ?_⟩
  intro input n s hsteps
  obtain ⟨block, below, height, hrunning⟩ := hfollows.running hholds hsteps
  exact ⟨hrunning.located hholds, hrunning.returns_ne_nil hholds⟩

theorem generate_located_calling : ∃ parsed g, ∃ code : ProgramCode,
    parse (tokenize callingText.toList).lines = .ok parsed ∧
    generate parsed.tree 0 = (.ok (), g) ∧ g.written.toList = code.lines ∧
    code.functions.length = 1 ∧ code.IsConfined ∧ ∀ {input : List String} {n : Nat} {s : State},
      Steps (Code.ofText g.code) n ((State.initial input).settle (Code.ofText g.code)) s →
      ∃ place, s.next = some place ∧ code.Located s.returns place := by
  obtain ⟨parsed, g, hparse, hshape, hok⟩ := exists_generate_calling
  obtain ⟨code, hwritten, hcount, hconfined, hruns⟩ :=
    generate_located hshape (by decide +kernel) (by decide +kernel) hok
  exact ⟨parsed, g, code, hparse, hok, hwritten, hcount, hconfined, fun hsteps => (hruns hsteps).1⟩

end ScoreLang
