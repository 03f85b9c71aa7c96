import ScoreLang.Proofs.Machine.Control

/-!
# Runs of Programs

A run of the code of a program is followed from block to block. When a function is called, its
block becomes active, and the caller waits at the next line; when it returns, the caller goes on
there with one more value on the stack. So the lines to which the machine will come back, and the
values that lie on the stack below those of the active block, are those of the calls that are
pending.

The invariant is stated for runs that begin in any block, since it serves for the whole program as
well as for the code of a single statement: `base` says which blocks may be active when no call is
pending, and `bottom` is what lies on the stack below their values.

## Main results

* `Pending`: a block is active, and certain calls are pending;
* `Pending.advances`: **what a step does** to the block that is active;
* `Running.moves`: the invariant is preserved by a step;
* `ProgramCode.Follows.running`: it holds along every run of a program.
-/

namespace ScoreLang

open List Machine

/-! ### The blocks of a program -/

/-- The block of a function. -/
def Segment.block (segment : Segment) (d : Discipline) (count start : Nat) : Block where
  start := start
  head := [.label segment.label, Operation.allocate.line segment.size]
  discipline := d.within segment.body
  count := count
  body := segment.body
  final := 0

namespace ProgramCode

variable (code : ProgramCode) (program : Program) (counted : Prop)

/-- The block of the global variables. -/
def opening : Block where
  start := 0
  head := []
  discipline := ⟨fun _ _ => False, fun _ => False, fun _ => True, counted⟩
  count := 0
  body := code.globals
  final := 0

/-- The number of the line at which the main function begins. -/
def mainStart : Nat :=
  (code.globals ++ [Operation.branch.line code.mainLabel] ++ code.functions.flatten).length

/-- The block of the main function. -/
def mainBlock : Block where
  start := code.mainStart
  head := [.label code.mainLabel, Operation.allocate.line code.size]
  discipline := (code.discipline program counted).within code.main
  count := 0
  body := code.main
  final := 0

/-- A segment is that of a function with the given label and number of arguments, and begins at the
given line. -/
structure IsSegment (segment : Segment) (label : String) (count start : Nat) : Prop where
  mem : segment.lines ∈ code.functions
  label_eq : segment.label = label
  follows : segment.Follows (code.discipline program counted) count
  /-- It begins at the line, and ends with the return. -/
  stands : (segment.block (code.discipline program counted) count start).StandsBefore code.lines
    (Operation.leave.line segment.cell)

/-- After the global variables the machine goes to the main function. -/
theorem opening_stands : (code.opening counted).StandsBefore code.lines
    (Operation.branch.line code.mainLabel) :=
  ⟨[], code.functions.flatten ++ ([.label code.mainLabel, Operation.allocate.line code.size] ++
    code.main ++ [.command stopWord ""]), by simp [lines, Block.lines, opening], rfl⟩

/-- The program ends after the main function. -/
theorem mainBlock_stands : (code.mainBlock program counted).StandsBefore code.lines
    (.command stopWord "") :=
  ⟨_, [], by simp [lines, Block.lines, mainBlock], rfl⟩

variable {code program counted}

theorem Follows.exists_segment (h : code.Follows program counted) {label : String} {count : Nat}
    (hcall : Calls program.functions code.functions label count) :
    ∃ segment start, code.IsSegment program counted segment label count start := by
  obtain ⟨⟨function, part⟩, hpair, hhead, rfl⟩ := hcall
  obtain ⟨segment, rfl, hsegment, -⟩ := (forall₂_iff_zip.1 h.functions).2 hpair
  have hmem := (of_mem_zip hpair).2
  obtain ⟨before, after, hparts⟩ := append_of_mem hmem
  refine ⟨segment, _, hmem, by simpa [Segment.lines] using hhead, hsegment,
    code.globals ++ [Operation.branch.line code.mainLabel] ++ before.flatten,
    after.flatten ++ ([.label code.mainLabel, Operation.allocate.line code.size] ++ code.main ++
      [.command stopWord ""]), ?_, rfl⟩
  simp [lines, hparts, Block.lines, Segment.block, Segment.lines]

end ProgramCode

/-! ### Runs -/

section Definitions

variable (code : ProgramCode) (program : Program) (counted : Prop)

/-- A block is one of a program as far as its discipline is concerned. -/
structure Block.Obeys (b : Block) : Prop where
  /-- Whether the height of the stack is known. -/
  counted_eq : b.discipline.counted = counted
  calls : ∀ {label : String} {count : Nat}, b.discipline.calls label count →
    Calls program.functions code.functions label count
  targets : ∀ name, b.discipline.targets name → .label name ∈ b.body

/-- A block is active, calls from the given lines are pending, and some values are on the stack
below what belongs to the block. Before any call, one of some blocks is active, and the values at
the bottom of the stack are given. -/
inductive Pending (base : List Nat → Block → Prop) (bottom : List Value) :
    List Nat → Block → List Value → Prop where
  | base {returns : List Nat} {block : Block} : base returns block →
      Pending base bottom returns block bottom
  /-- A function has been called. The caller goes on at the next line with one more value on the
  stack. -/
  | call {returns : List Nat} {caller : Block} {own below : List Value}
      {line count start height height' : Nat} {label : String} {segment : Segment}
      {first second : List CodeLine} : Pending base bottom returns caller below →
      caller.Spot code.lines first (Operation.call.line label :: second) line height →
      code.IsSegment program counted segment label count start →
      caller.Spot code.lines (first ++ [Operation.call.line label]) second (line + 1) height' →
      (counted → own.length + 1 = height') →
      Pending base bottom (line :: returns)
        (segment.block (code.discipline program counted) count start) (own ++ below)

/-- The machine has come to a block and is about to open a frame for it. -/
structure Block.Enters (b : Block) (lines : List CodeLine) (s : State) (size : String) : Prop where
  head : ∃ label, b.head = [.label label, Operation.allocate.line size]
  isSize : IsSize size
  next : s.next = some (b.start + 1)
  stands : b.StandsIn lines
  follows : b.discipline.Follows b.count b.body b.final

/-- What a step does to a block that is active. -/
inductive Advances (machine : Code) (base : List Nat → Block → Prop) (bottom : List Value)
    (s t : State) (block : Block) (below : List Value) (height : Nat) : Prop where
  /-- The machine stays in the block. -/
  | stays {second : List CodeLine} {place height' : Nat} :
      block.Holds machine code.lines t second place height' → t.calls = s.calls →
      (counted → Trades s t height height') → Advances machine base bottom s t block below height
  /-- A function is called. -/
  | calls {label : String} {line count start height' : Nat} {segment : Segment}
      {first second : List CodeLine} :
      block.Spot code.lines first (Operation.call.line label :: second) line height →
      code.IsSegment program counted segment label count start →
      block.Spot code.lines (first ++ [Operation.call.line label]) second (line + 1) height' →
      (counted → ∃ k, height = k + count ∧ height' = k + 1) →
      (segment.block (code.discipline program counted) count start).Enters code.lines t
        segment.size →
      t.calls = (s.base, s.frames, line :: s.returns) → t.stack = s.stack →
      Advances machine base bottom s t block below height
  /-- A function returns. -/
  | leaves {caller : Block} {own below' : List Value} {line place height' : Nat}
      {returns : List Nat}
      {second : List CodeLine} {cell : Fin memorySize} {limit : Int} {frames : List Int} :
      s.returns = line :: returns → below = own ++ below' →
      Pending code program counted base bottom returns caller below' →
      caller.Holds machine code.lines t second place height' →
      (counted → height' = own.length + 1) → (counted → height = 0) →
      cell? s.base = some cell → s.frames = limit :: frames →
      t.calls = (baseOf frames, frames, returns) → t.stack = s.cells.get cell :: s.stack →
      Advances machine base bottom s t block below height
  /-- No call is pending, and the machine is at the end of the block. -/
  | ends : base s.returns block → below = bottom → s.next = some (machine.settle block.stop) →
      (counted → height = block.final) → Advances machine base bottom s t block below height

/-- The machine is in a block, and the stack has the given height. -/
inductive Block.Contains (b : Block) (machine : Code) (lines : List CodeLine) (s : State) :
    Nat → Prop where
  | head {size : String} : b.Enters lines s size → b.Contains machine lines s b.count
  | body {second : List CodeLine} {place height : Nat} :
      b.Holds machine lines s second place height → b.Contains machine lines s height

/-- **The invariant of a run**: a block is active, and the stack consists of what belongs to it and
what lies below. -/
structure Running (machine : Code) (base : List Nat → Block → Prop) (bottom : List Value)
    (s : State) (block : Block) (below : List Value) (height : Nat) : Prop where
  pending : Pending code program counted base bottom s.returns block below
  contains : block.Contains machine code.lines s height
  stack : counted → ∃ own, s.stack = own ++ below ∧ own.length = height

end Definitions

section Runs

variable {machine : Code} {code : ProgramCode} {program : Program} {counted : Prop} {s t : State}
  {base : List Nat → Block → Prop} {bottom : List Value} {block : Block} {below : List Value}
  {height : Nat}

theorem Segment.obeys (segment : Segment) (count start : Nat) :
    (segment.block (code.discipline program counted) count start).Obeys code program counted :=
  ⟨rfl, id, fun _ => id⟩

theorem Pending.obeys (hbase : ∀ {returns block}, base returns block →
    block.Obeys code program counted) {returns : List Nat}
    (h : Pending code program counted base bottom returns block below) :
    block.Obeys code program counted := by
  cases h with
  | base h => exact hbase h
  | call => exact Segment.obeys ..

variable {lines : List CodeLine} {size : String}

/-- Where the machine finds the label of a block, and what comes next. -/
theorem Block.StandsIn.find? {label : String} (hholds : machine.Holds lines)
    (h : block.StandsIn lines) (hhead : block.head = [.label label, Operation.allocate.line size]) :
    machine.find? label = some block.start ∧
      lines[block.start + 1]? = some (Operation.allocate.line size) := by
  have hlines : block.lines = .label label :: Operation.allocate.line size :: block.body := by
    rw [Block.lines, hhead]
    rfl
  have hlabel := h.getElem? (i := 0) (by simp [hlines])
  have hallocate := h.getElem? (i := 1) (by simp [hlines])
  rw [hlines] at hlabel hallocate
  exact ⟨hholds.find hlabel, hallocate⟩

/-- The machine comes to a block by a jump to its label. -/
theorem Block.StandsIn.enters {label : String} (hholds : machine.Holds lines)
    (h : block.StandsIn lines) (hhead : block.head = [.label label, Operation.allocate.line size])
    (hsize : IsSize size) (hfollows : block.discipline.Follows block.count block.body block.final)
    (hnext : s.next = (machine.find? label).map (· + 1)) :
    block.Enters lines (s.settle machine) size := by
  obtain ⟨hfind, hallocate⟩ := h.find? hholds hhead
  refine ⟨⟨label, hhead⟩, hsize, ?_, h, hfollows⟩
  rw [hfind, Option.map_some] at hnext
  rw [State.settle, hnext, Option.map_some]
  exact congrArg some (hholds.settle_command hallocate)

/-- The machine is about to open a frame. -/
theorem Block.Enters.at (hholds : machine.Holds lines) (h : block.Enters lines s size) :
    s.At machine (block.start + 1) .allocate (some size) := by
  obtain ⟨label, hhead⟩ := h.head
  have hline := (h.stands.find? hholds hhead).2
  have hgiven : givenOperand size = some size := by
    rw [givenOperand, if_neg]
    rintro rfl
    obtain ⟨found, hfound, -⟩ := h.isSize
    cases hfound
  exact hgiven ▸ hholds.at_line hline rfl (by rw [h.next, hholds.settle_command hline])

/-- The head of a block has been read, and the body begins. -/
theorem Block.Enters.moves (hholds : machine.Holds lines) (h : block.Enters lines s size)
    (hmove : Moves machine s t) :
    ∃ second place height t', block.Holds machine lines t second place height ∧
      (block.discipline.counted → height = block.count) ∧ t = t'.settle machine ∧
      t.stack = s.stack ∧
      t.returns = s.returns ∧ ∃ place, Ends (perform machine .allocate (some size))
        { s with next := some place } () t' := by
  obtain ⟨t', hstep, rfl⟩ := hmove
  obtain ⟨label, hhead⟩ := h.head
  obtain ⟨-, hperform⟩ := (h.at hholds).ends_step.1 hstep
  have hexchanges := perform_exchanges rfl hperform
  obtain ⟨before, after, rest, hstack, hbefore, hstack', hafter⟩ := hexchanges.stack
  obtain rfl := length_eq_zero_iff.1 hbefore
  obtain rfl := length_eq_zero_iff.1 hafter
  have hspot : block.Spot lines [] block.body (block.start + 1 + 1) block.count :=
    ⟨rfl, h.stands, by simp [hhead], .refl _, h.follows⟩
  obtain ⟨second, place, height, hthere, hheight⟩ := hspot.holds hholds hexchanges.next
  exact ⟨second, place, height, t', hthere, hheight, rfl, hstack'.trans hstack.symm,
    hexchanges.returns, _, hperform⟩

/-- **A step in the body of a block.** -/
theorem Pending.advances (hholds : machine.Holds code.lines) (hcode : code.Follows program counted)
    (hbase : ∀ {returns block}, base returns block → block.Obeys code program counted)
    (hpending : Pending code program counted base bottom s.returns block below)
    {second : List CodeLine} {place : Nat}
    (h : block.Holds machine code.lines s second place height) (hmove : Moves machine s t) :
    Advances code program counted machine base bottom s t block below height := by
  have hobeys := hpending.obeys hbase
  obtain ⟨first, hspot⟩ := h.spot
  cases second with
  | cons line second =>
    cases h.leads hholds hobeys.targets hmove with
    | stays _ _ hthere hsame htrades =>
      exact .stays hthere hsame fun hc => htrades (hobeys.counted_eq ▸ hc)
    | calls hat hcall hline hspot hheights ht =>
      obtain ⟨segment, start, hsegment⟩ := hcode.exists_segment (hobeys.calls hcall)
      refine .calls hline hsegment hspot (fun hc => hheights (hobeys.counted_eq ▸ hc)) ?_
        (by rw [ht]; rfl) (by rw [ht]; rfl)
      rw [ht]
      exact hsegment.stands.standsIn.enters hholds rfl hsegment.follows.size
        hsegment.follows.body (by rw [hsegment.label_eq])
  | nil =>
    have hfinal : counted → height = block.final := fun hc => by
      cases hspot.ahead with
      | nil hheight => exact hheight (hobeys.counted_eq ▸ hc)
    have hnext := h.next
    rw [hspot.eq_stop] at hnext
    generalize hreturns : s.returns = returns at hpending
    cases hpending with
    | base hblock => exact .ends (hreturns ▸ hblock) rfl hnext hfinal
    | call hpending hcall hsegment hreturn hown =>
      obtain ⟨t', hstep, rfl⟩ := hmove
      have hat : s.At machine _ .leave _ :=
        hholds.at_line hsegment.stands.getElem? rfl hnext
      obtain ⟨-, hperform⟩ := hat.ends_step.1 hstep
      obtain ⟨cell, limit, frames, place', returns', hcell, hframes, hreturns', ht⟩ :=
        ends_perform_leave.1 hperform
      obtain ⟨rfl, rfl⟩ := cons.inj (hreturns.symm.trans hreturns')
      obtain ⟨second', place'', height', hthere, hheight⟩ :=
        hreturn.holds hholds (congrArg State.next ht)
      refine .leaves hreturns rfl hpending hthere (fun hc => ?_) hfinal hcell hframes
        (by rw [ht]; rfl) (by rw [ht]; rfl)
      rw [hheight ((hpending.obeys hbase).counted_eq ▸ hc), hown hc]

/-- Some values of the block are replaced. -/
theorem Machine.Trades.own {height' : Nat} {own : List Value} (h : Trades s t height height')
    (hstack : s.stack = own ++ below) (hlength : own.length = height) :
    ∃ own', t.stack = own' ++ below ∧ own'.length = height' := by
  obtain ⟨before, after, rest, hbefore, hafter, hheights, hle⟩ := h
  rw [hstack] at hbefore
  obtain ⟨kept, rfl⟩ := prefix_of_prefix_length_le (prefix_append before rest)
    (hbefore ▸ prefix_append own below) (hlength ▸ hle)
  rw [append_assoc, append_cancel_left_eq] at hbefore
  subst hbefore
  refine ⟨after ++ kept, by rw [hafter, append_assoc], ?_⟩
  rw [length_append] at hlength ⊢
  omega

/-- **A step of a run**, unless no call is pending and the machine is at the end of the block. -/
theorem Running.moves (hholds : machine.Holds code.lines) (hcode : code.Follows program counted)
    (hbase : ∀ {returns block}, base returns block → block.Obeys code program counted)
    (h : Running code program counted machine base bottom s block below height)
    (hmove : Moves machine s t) :
    (∃ block below height, Running code program counted machine base bottom t block below height) ∨
      base s.returns block ∧ below = bottom ∧ s.next = some (machine.settle block.stop) ∧
        (counted → height = block.final) := by
  have hobeys := h.pending.obeys hbase
  cases h.contains with
  | head henters =>
    obtain ⟨second, place, height, t', hthere, hheight, -, hstack, hreturns, -⟩ :=
      henters.moves hholds hmove
    refine .inl ⟨block, below, height, hreturns ▸ h.pending, .body hthere, fun hc => ?_⟩
    rw [hstack, hheight (hobeys.counted_eq ▸ hc)]
    exact h.stack hc
  | body hbody =>
    cases h.pending.advances hholds hcode hbase hbody hmove with
    | ends hblock hbelow hnext hfinal => exact .inr ⟨hblock, hbelow, hnext, hfinal⟩
    | stays hthere hsame htrades =>
      have hreturns := (State.calls_eq_iff.1 hsame).2.2
      refine .inl ⟨block, below, _, hreturns ▸ h.pending, .body hthere, fun hc => ?_⟩
      obtain ⟨own, hstack, hlength⟩ := h.stack hc
      exact Trades.own (htrades hc) hstack hlength
    | @calls label line count start height' segment first second hline hsegment hspot hheights
        henters hcalls hstack =>
      have hreturns : t.returns = line :: s.returns := congrArg (·.2.2) hcalls
      -- the arguments go to the function
      obtain ⟨kept, arguments, hown, hcounts⟩ : ∃ kept arguments : List Value,
          (counted → s.stack = arguments ++ (kept ++ below)) ∧
          (counted → arguments.length = count ∧ kept.length + 1 = height') := by
        by_cases hc : counted
        · obtain ⟨own, hown, hlength⟩ := h.stack hc
          obtain ⟨k, hk, hk'⟩ := hheights hc
          refine ⟨own.drop count, own.take count, fun _ => ?_, fun _ => ?_⟩
          · rw [hown, ← append_assoc, take_append_drop]
          · simp [hlength, hk, hk']
        · exact ⟨[], [], fun hc' => absurd hc' hc, fun hc' => absurd hc' hc⟩
      refine .inl ⟨_, kept ++ below, _, hreturns ▸ .call h.pending hline hsegment hspot
        (fun hc => (hcounts hc).2), .head henters, fun hc => ?_⟩
      exact ⟨arguments, hstack.trans (hown hc), (hcounts hc).1⟩
    | @leaves caller own below' line place height' returns second cell limit frames hreturns hbelow
        hpending hthere hheight hzero hcell hframes hcalls hstack =>
      have hreturns' : t.returns = returns := congrArg (·.2.2) hcalls
      refine .inl ⟨caller, below', height', hreturns' ▸ hpending, .body hthere, fun hc => ?_⟩
      obtain ⟨none, hnone, hlength⟩ := h.stack hc
      obtain rfl := length_eq_zero_iff.1 (hlength.trans (hzero hc))
      exact ⟨s.cells.get cell :: own, by rw [hstack, hnone, hbelow]; rfl, (hheight hc).symm⟩

end Runs

/-! ### From the start -/

/-- The blocks that are active in the whole program when no call is pending. -/
def ProgramCode.Base (code : ProgramCode) (program : Program) (counted : Prop) (returns : List Nat)
    (block : Block) : Prop :=
  returns = [] ∧ (block = code.opening counted ∨ block = code.mainBlock program counted)

section Start

variable {machine : Code} {code : ProgramCode} {program : Program} {counted : Prop} {s t : State}
  {n : Nat} {input : List String} {block : Block} {below : List Value} {height : Nat}

theorem ProgramCode.Base.obeys {returns : List Nat} (h : code.Base program counted returns block) :
    block.Obeys code program counted := by
  obtain ⟨-, rfl | rfl⟩ := h
  · exact ⟨rfl, False.elim, fun _ => False.elim⟩
  · exact ⟨rfl, id, fun _ => id⟩

variable (hholds : machine.Holds code.lines)

include hholds

/-- After the global variables the machine comes to the main function. -/
theorem ProgramCode.Follows.enters_main (hcode : code.Follows program counted)
    (hnext : s.next = some (machine.settle (code.opening counted).stop)) (hmove : Moves machine s t)
    :
    (code.mainBlock program counted).Enters code.lines t code.size ∧ t.calls = s.calls ∧
      t.stack = s.stack := by
  obtain ⟨t', hstep, rfl⟩ := hmove
  have hat : s.At machine _ .branch (givenOperand code.mainLabel) :=
    hholds.at_line (code.opening_stands counted).getElem? rfl hnext
  have hsame := hat.calls_eq rfl hstep
  obtain ⟨-, hperform⟩ := hat.ends_step.1 hstep
  simp only [perform, ends_bind, ends_needed, ends_jump] at hperform
  obtain ⟨text, _, ⟨htext, rfl⟩, rfl⟩ := hperform
  obtain rfl := givenOperand_eq_some htext
  exact ⟨(code.mainBlock_stands program counted).standsIn.enters hholds rfl hcode.size
    hcode.main rfl, hsame, rfl⟩

/-- After the main function the program is at its end. -/
theorem not_moves_of_stop
    (hnext : s.next = some (machine.settle (code.mainBlock program counted).stop)) :
    ¬Moves machine s t := by
  intro hmove
  have hline := (code.mainBlock_stands program counted).getElem?
  have hhalts := hholds.haltsIn_stop hline (s := s) (by
    rw [hholds.settle_command hline, hnext, hholds.settle_command hline])
  obtain ⟨m, hm, -⟩ := hhalts.of_moves hmove
  omega

/-- **A step of a run of the whole program.** -/
theorem Running.moves_base (hcode : code.Follows program counted)
    (h : Running code program counted machine (code.Base program counted) [] s block below height)
    (hmove : Moves machine s t) : ∃ block below height,
      Running code program counted machine (code.Base program counted) [] t block below height := by
  rcases h.moves hholds hcode ProgramCode.Base.obeys hmove with
    h' | ⟨⟨hreturns, rfl | rfl⟩, rfl, hnext, hfinal⟩
  · exact h'
  · obtain ⟨henters, hsame, hstack⟩ := hcode.enters_main hholds hnext hmove
    have hreturns' := (State.calls_eq_iff.1 hsame).2.2.trans hreturns
    refine ⟨code.mainBlock program counted, [], _, .base ⟨hreturns', .inr rfl⟩, .head henters,
      fun hc => ?_⟩
    obtain ⟨own, hown, hlength⟩ := h.stack hc
    exact ⟨own, hstack.trans hown, hlength.trans (hfinal hc)⟩
  · exact absurd hmove (not_moves_of_stop hholds hnext)

/-- **Every state of a run** satisfies the invariant. -/
theorem ProgramCode.Follows.running (h : code.Follows program counted)
    (hsteps : Steps machine n ((State.initial input).settle machine) s) : ∃ block below height,
      Running code program counted machine (code.Base program counted) [] s block below height := by
  have hstart : ∃ block below height, Running code program counted machine
      (code.Base program counted) [] ((State.initial input).settle machine) block below height := by
    have hspot : (code.opening counted).Spot code.lines [] code.globals 0 0 :=
      ⟨rfl, (code.opening_stands counted).standsIn, rfl, .refl 0, h.globals⟩
    obtain ⟨second, place, height, hthere, hheight⟩ :=
      hspot.holds hholds (t := State.initial input) rfl
    exact ⟨_, [], height, .base ⟨rfl, .inl rfl⟩, .body hthere, fun hc =>
      ⟨[], rfl, (hheight hc).symm⟩⟩
  generalize (State.initial input).settle machine = start at hsteps hstart
  induction hsteps with
  | refl => exact hstart
  | head hmove _ ih =>
    obtain ⟨_, _, _, hrunning⟩ := hstart
    exact ih (hrunning.moves_base hholds h hmove)

end Start

end ScoreLang
