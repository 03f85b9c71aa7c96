import ScoreLang.Proofs.Machine.Flow

/-!
# The Frames of a Program

The frame of the main function holds the global variables as well. It begins at the start of the
memory, and the frame of a function is to begin where that of its caller ends. This is so until a
function that the main function has called returns: the machine then takes the start of the memory
for the base of the main function, so that the next call from there opens a frame that may lie
anywhere above the start.

## Main results

* `ProgramCode.Layout`: the frames of the functions that are active;
* `ProgramCode.Layout.pairwise_disjoint`: they do not overlap;
* `generate_layout`: **frames do not overlap** as long as nothing has returned to the main function.
-/

namespace ScoreLang

open List Machine

/-! ### Layouts -/

/-- The frames of the functions that are active, with the innermost one first, by the lines of the
calls that are pending. A frame begins where the one below ends, and has as many cells as the
function asks for. -/
inductive ProgramCode.Layout (code : ProgramCode) : List Nat → List Frame → Prop where
  /-- The main function. -/
  | main {size : Int} : Text.readInteger code.size = .ok size → 1 ≤ size →
      Layout code [] [⟨0, size⟩]
  /-- A function that has been called. -/
  | call {returns : List Nat} {line : Nat} {label : String} {segment : Segment} {size : Int}
      {frame : Frame} {frames : List Frame} : Layout code returns (frame :: frames) →
      code.lines[line]? = some (Operation.call.line label) → segment.lines ∈ code.functions →
      segment.label = label → Text.readInteger segment.size = .ok size → 1 ≤ size →
      Layout code (line :: returns) (⟨frame.limit, size⟩ :: frame :: frames)

namespace ProgramCode.Layout

variable {code : ProgramCode} {returns : List Nat} {frames : List Frame}

/-- No frame goes further than the innermost one. -/
theorem le_limit (h : code.Layout returns frames) : ∃ frame rest, frames = frame :: rest ∧
    ∀ other ∈ frames, 0 ≤ other.base ∧ other.base < other.limit ∧ other.limit ≤ frame.limit := by
  induction h with
  | main hsize hpos =>
    refine ⟨_, _, rfl, ?_⟩
    simp only [mem_singleton, forall_eq, Frame.limit]
    omega
  | @call _ _ _ _ size frame frames _ _ _ _ _ hpos ih =>
    obtain ⟨_, _, heq, hall⟩ := ih
    obtain ⟨rfl, rfl⟩ := cons.inj heq
    refine ⟨_, _, rfl, ?_⟩
    have hframe := hall frame mem_cons_self
    intro other hother
    rcases mem_cons.1 hother with rfl | hother
    · simp only [Frame.limit] at hframe ⊢
      omega
    · have hlimit := hall other hother
      simp only [Frame.limit] at hframe hlimit ⊢
      omega

/-- **The frames do not overlap.** -/
theorem pairwise_disjoint (h : code.Layout returns frames) : frames.Pairwise Frame.Disjoint := by
  induction h with
  | main => exact pairwise_singleton _ _
  | @call _ _ _ _ size frame frames hbelow _ _ _ _ _ ih =>
    obtain ⟨_, _, heq, hall⟩ := hbelow.le_limit
    obtain ⟨rfl, rfl⟩ := cons.inj heq
    refine ih.cons fun other hother cell hcell hcell' => ?_
    have hlimit := (hall other hother).2.2
    have hbase : frame.limit ≤ cell := hcell.1
    have hlt : cell < other.limit := hcell'.2
    omega

end ProgramCode.Layout

/-- Where the machine takes the active frame to begin. In the main function this is where the frame
ends. -/
def activeBase : List Frame → Int
  | [] => 0
  | [frame] => frame.limit
  | frame :: _ => frame.base

/-- The machine keeps the ends of some frames. -/
structure Machine.State.Holds (s : State) (frames : List Frame) : Prop where
  limits_eq : s.frames = frames.map Frame.limit ++ [0]
  base_eq : s.base = activeBase frames

theorem Machine.State.Holds.congr {s t : State} {frames : List Frame} (h : s.Holds frames)
    (hcalls : t.calls = s.calls) : t.Holds frames := by
  obtain ⟨hbase, hframes, -⟩ := State.calls_eq_iff.1 hcalls
  exact ⟨hframes.trans h.limits_eq, hbase.trans h.base_eq⟩

theorem ProgramCode.Layout.activeBase_pos {code : ProgramCode} {returns : List Nat}
    {frames : List Frame} (h : code.Layout returns frames) : 0 < activeBase frames := by
  cases h with
  | main _ hpos =>
    simp only [activeBase, Frame.limit]
    omega
  | call hbelow =>
    obtain ⟨_, _, heq, hall⟩ := hbelow.le_limit
    obtain ⟨rfl, rfl⟩ := cons.inj heq
    have hframe := hall _ mem_cons_self
    simp only [activeBase]
    omega

/-! ### Runs -/

section Runs

variable {machine : Code} {code : ProgramCode} {program : Program} {s t : State} {block : Block}
  {below : List Value}

/-- Where the machine is, and which frames are open. -/
inductive Framed (machine : Code) (code : ProgramCode) (program : Program) (s : State)
    (block : Block) : Prop where
  /-- The global variables are being set. -/
  | opening {second : List CodeLine} {place height : Nat} : block = code.opening False →
      block.Holds machine code.lines s second place height → s.calls = (0, [], []) →
      Framed machine code program s block
  /-- The main function is about to open its frame. -/
  | main : block = code.mainBlock program False → block.Enters code.lines s code.size →
      s.calls = (0, [], []) → Framed machine code program s block
  /-- A function is about to open its frame. -/
  | enters {segment : Segment} {label : String} {count start line : Nat} {returns : List Nat}
      {frames : List Frame} : code.IsSegment program False segment label count start →
      block = segment.block (code.discipline program False) count start →
      block.Enters code.lines s segment.size → s.returns = line :: returns →
      code.lines[line]? = some (Operation.call.line label) → code.Layout returns frames →
      s.Holds frames → Framed machine code program s block
  /-- The frame of the active function is open. -/
  | inside {second : List CodeLine} {place height : Nat} {frames : List Frame} : block.head ≠ [] →
      block.Holds machine code.lines s second place height → code.Layout s.returns frames →
      s.Holds frames → Framed machine code program s block

/-- The first frame begins at the start of the memory. -/
theorem Machine.ends_perform_allocate_first {text : String} (hbase : s.base = 0)
    (h : Ends (perform machine .allocate (some text)) s () t) :
    ∃ size, Text.readInteger text = .ok size ∧
      t = { s with base := size, frames := size :: 0 :: s.frames } := by
  simp only [perform, ends_bind, ends_needed, allocate, ends_get] at h
  obtain ⟨_, _, ⟨hfound, rfl⟩, _, _, ⟨rfl, rfl⟩, h⟩ := h
  obtain rfl := Option.some.inj hfound
  rw [if_pos hbase] at h
  simp only [ends_bind, ends_ofInteger, ends_modify] at h
  obtain ⟨size, _, ⟨hsize, rfl⟩, rfl⟩ := h
  exact ⟨size, hsize, rfl⟩

/-- A block, the calls that are pending in it, and the frames. -/
def Framed.Some (machine : Code) (code : ProgramCode) (program : Program) (s : State) : Prop :=
  ∃ block below, Pending code program False (code.Base program False) [] s.returns block below ∧
    Framed machine code program s block

variable (hholds : machine.Holds code.lines)

include hholds

/-- A step while the global variables are being set. -/
theorem Framed.moves_opening (hcode : code.Follows program False) {second : List CodeLine}
    {place height : Nat}
    (hthere : (code.opening False).Holds machine code.lines s second place height)
    (hcalls : s.calls = (0, [], [])) (hmove : Moves machine s t) :
    Framed.Some machine code program t := by
  have hreturns : s.returns = [] := congrArg (·.2.2) hcalls
  have hpending : Pending code program False (code.Base program False) [] s.returns
      (code.opening False) [] := .base ⟨hreturns, .inl rfl⟩
  cases hpending.advances hholds hcode ProgramCode.Base.obeys hthere hmove with
  | stays hthere' hsame _ =>
    have hcalls' := hsame.trans hcalls
    exact ⟨_, _, .base ⟨congrArg (·.2.2) hcalls', .inl rfl⟩, .opening rfl hthere' hcalls'⟩
  | calls hspot =>
    -- no function is called there
    cases hspot.ahead with
    | cons hline _ =>
      obtain ⟨count, hcall⟩ := hline.confined
      exact hcall.elim
  | leaves hreturns' => exact absurd (hreturns.symm.trans hreturns') (by simp)
  | ends _ _ hnext _ =>
    obtain ⟨henters, hsame, -⟩ := hcode.enters_main hholds hnext hmove
    have hcalls' := hsame.trans hcalls
    exact ⟨_, _, .base ⟨congrArg (·.2.2) hcalls', .inr rfl⟩, .main rfl henters hcalls'⟩

/-- The main function opens its frame. -/
theorem Framed.moves_main (henters : (code.mainBlock program False).Enters code.lines s code.size)
    (hcalls : s.calls = (0, [], [])) (hmove : Moves machine s t) :
    Framed.Some machine code program t := by
  obtain ⟨hbase, hframes, hreturns⟩ : s.base = 0 ∧ s.frames = [] ∧ s.returns = [] := by
    simpa [State.calls] using hcalls
  obtain ⟨second, place, height, t', hthere, -, rfl, -, hreturns', place', hperform⟩ :=
    henters.moves hholds hmove
  obtain ⟨size, hsize, rfl⟩ :=
    ends_perform_allocate_first (s := { s with next := some place' }) hbase hperform
  obtain ⟨found, hfound, hpos⟩ := henters.isSize
  obtain rfl : size = found := Except.ok.inj (hsize.symm.trans hfound)
  have hlayout : code.Layout [] [⟨0, size⟩] := .main hsize hpos
  rw [← hreturns, ← hreturns'] at hlayout
  refine ⟨_, _, .base ⟨hreturns'.trans hreturns, .inr rfl⟩,
    .inside (cons_ne_nil _ _) hthere hlayout ⟨?_, ?_⟩⟩
  · simp [State.settle, hframes, Frame.limit]
  · simp [State.settle, activeBase, Frame.limit]

/-- A function opens its frame. -/
theorem Framed.moves_enters
    (hpending : Pending code program False (code.Base program False) [] s.returns block below)
    {segment : Segment} {label : String} {count start line : Nat} {returns : List Nat}
    {frames : List Frame} (hsegment : code.IsSegment program False segment label count start)
    (hblock : block = segment.block (code.discipline program False) count start)
    (henters : block.Enters code.lines s segment.size) (hreturns : s.returns = line :: returns)
    (hline : code.lines[line]? = some (Operation.call.line label))
    (hlayout : code.Layout returns frames) (hframes : s.Holds frames) (hmove : Moves machine s t) :
    Framed.Some machine code program t := by
  obtain ⟨second, place, height, t', hthere, -, rfl, -, hreturns', place', hperform⟩ :=
    henters.moves hholds hmove
  obtain ⟨frame, rest, rfl, -⟩ := hlayout.le_limit
  have hlive : s.base ≠ 0 := by
    have hpos := hlayout.activeBase_pos
    rw [hframes.base_eq]
    omega
  obtain ⟨size, hsize, rfl⟩ := (ends_perform_allocate (s := { s with next := some place' }) hlive
    hframes.limits_eq).1 hperform
  obtain ⟨found, hfound, hpos⟩ := henters.isSize
  obtain rfl : size = found := Except.ok.inj (hsize.symm.trans hfound)
  have hlayout' : code.Layout (line :: returns) (⟨frame.limit, size⟩ :: frame :: rest) :=
    .call hlayout hline hsegment.mem hsegment.label_eq hsize hpos
  rw [← hreturns, ← hreturns'] at hlayout'
  exact ⟨block, below, hreturns' ▸ hpending,
    .inside (hblock ▸ cons_ne_nil _ _) hthere hlayout' ⟨rfl, rfl⟩⟩

/-- A step while the frame of the active function is open. -/
theorem Framed.moves_inside (hcode : code.Follows program False)
    (hpending : Pending code program False (code.Base program False) [] s.returns block below)
    {second : List CodeLine} {place height : Nat} {frames : List Frame} (hhead : block.head ≠ [])
    (hthere : block.Holds machine code.lines s second place height)
    (hlayout : code.Layout s.returns frames) (hframes : s.Holds frames) (hmove : Moves machine s t)
    (hstays : s.returns ≠ [] → t.returns ≠ []) : Framed.Some machine code program t := by
  cases hpending.advances hholds hcode ProgramCode.Base.obeys hthere hmove with
  | stays hthere' hsame _ =>
    have hreturns := (State.calls_eq_iff.1 hsame).2.2
    exact ⟨block, below, hreturns ▸ hpending, .inside hhead hthere' (hreturns ▸ hlayout)
      (hframes.congr hsame)⟩
  | @calls label line count start height' segment first second' hspot hsegment hspot' _
      henters hcalls _ =>
    obtain ⟨hbase, hlimits, hreturns⟩ : t.base = s.base ∧ t.frames = s.frames ∧
        t.returns = line :: s.returns := by
      simpa [State.calls] using hcalls
    refine ⟨_, [] ++ below, hreturns ▸ .call hpending hspot hsegment hspot' False.elim,
      .enters hsegment rfl henters hreturns hspot.getElem? hlayout
        ⟨hlimits.trans hframes.limits_eq, hbase.trans hframes.base_eq⟩⟩
  | @leaves caller own below' line place' height' returns second' cell limit limits hreturns hbelow
      hcaller hthere' _ _ hcell hlimits hcalls _ =>
    obtain ⟨hbase, hlimits', hreturns'⟩ : t.base = baseOf limits ∧ t.frames = limits ∧
        t.returns = returns := by
      simpa [State.calls] using hcalls
    have hnot : returns ≠ [] := hreturns' ▸ hstays (by simp [hreturns])
    rw [hreturns] at hlayout
    cases hlayout with
    | @call _ _ _ _ size frame frames hlayout =>
      have hrest : limits = (frame :: frames).map Frame.limit ++ [0] :=
        (cons.inj (hlimits.symm.trans hframes.limits_eq)).2
      have hbase' : baseOf limits = activeBase (frame :: frames) := by
        cases hlayout with
        | main => exact absurd rfl hnot
        | call => rw [hrest]; rfl
      have hcaller' : caller.head ≠ [] := by
        cases hcaller with
        | base hbase => exact absurd hbase.1 hnot
        | call => exact cons_ne_nil _ _
      exact ⟨caller, below', hreturns' ▸ hcaller, .inside hcaller' hthere' (hreturns' ▸ hlayout)
        ⟨hlimits'.trans hrest, hbase.trans hbase'⟩⟩
  | ends hbase _ hnext _ =>
    obtain ⟨-, rfl | rfl⟩ := hbase
    · exact absurd rfl hhead
    · exact absurd hmove (not_moves_of_stop hholds hnext)

/-- **A step of a run**, if it does not return to the main function. -/
theorem Framed.moves (hcode : code.Follows program False) (h : Framed.Some machine code program s)
    (hmove : Moves machine s t) (hstays : s.returns ≠ [] → t.returns ≠ []) :
    Framed.Some machine code program t := by
  obtain ⟨block, below, hpending, hframed⟩ := h
  cases hframed with
  | opening hblock hthere hcalls =>
    subst hblock
    exact moves_opening hholds hcode hthere hcalls hmove
  | main hblock henters hcalls =>
    subst hblock
    exact moves_main hholds henters hcalls hmove
  | enters hsegment hblock henters hreturns hline hlayout hframes =>
    exact moves_enters hholds hpending hsegment hblock henters hreturns hline hlayout hframes hmove
  | inside hhead hthere hlayout hframes =>
    exact moves_inside hholds hcode hpending hhead hthere hlayout hframes hmove hstays

/-- The machine makes some steps, none of which returns to the main function. -/
inductive Machine.Descends (code : Code) : State → State → Prop where
  /-- No step. -/
  | refl (s : State) : Descends code s s
  /-- One more step before others. -/
  | head {s t u : State} : Moves code s t → (s.returns ≠ [] → t.returns ≠ []) → Descends code t u →
      Descends code s u

theorem ProgramCode.Follows.framed (h : code.Follows program False) {input : List String}
    (hsteps : Descends machine ((State.initial input).settle machine) s) :
    Framed.Some machine code program s := by
  have hstart : Framed.Some machine code program ((State.initial input).settle machine) := by
    have hspot : (code.opening False).Spot code.lines [] code.globals 0 0 :=
      ⟨rfl, (code.opening_stands False).standsIn, rfl, .refl 0, h.globals⟩
    obtain ⟨second, place, height, hthere, -⟩ :=
      hspot.holds hholds (t := State.initial input) rfl
    exact ⟨_, [], .base ⟨rfl, .inl rfl⟩, .opening rfl hthere rfl⟩
  generalize (State.initial input).settle machine = start at hsteps hstart
  induction hsteps with
  | refl => exact hstart
  | head hmove hstays _ ih => exact ih (Framed.moves hholds h hstart hmove hstays)

end Runs

/-- **Frames do not overlap** in a program in which no semicolon stands alone and every jump is
placed, as long as no function has returned to the main function. Each function that is active has
a frame of its own, which begins where that of its caller ends, and the first of them begins where
that of the main function ends, which holds the global variables. The machine takes the active
frame for its base. -/
theorem generate_layout {tree : SyntaxTree} {program : Program} {labels : Nat} {g : Generator}
    (hshape : tree.shape = program.tree) (hplain : program.plain = true)
    (hplaced : program.placed = true) (h : generate tree labels = (.ok (), g)) :
    ∃ code : ProgramCode, g.written.toList = code.lines ∧ ∀ {input : List String} {s : State},
      Descends (Code.ofText g.code) ((State.initial input).settle (Code.ofText g.code)) s →
      s.calls = (0, [], []) ∨ ∃ returns frames, code.Layout returns frames ∧
        frames.Pairwise Frame.Disjoint ∧ s.Holds frames ∧
        (s.returns = returns ∨ ∃ line place size, s.returns = line :: returns ∧
          s.At (Code.ofText g.code) place .allocate (some size)) := by
  obtain ⟨code, hcode, hwritten, -⟩ := generate_plain hshape hplain h
  have hholds := generate_holds hshape h hcode hwritten
  have hfollows : code.Follows program False := Program.code_follows hplaced False.elim hcode
  refine ⟨code, hwritten, fun hsteps => ?_⟩
  obtain ⟨block, below, -, hframed⟩ := hfollows.framed hholds hsteps
  cases hframed with
  | opening _ _ hcalls => exact .inl hcalls
  | main _ _ hcalls => exact .inl hcalls
  | enters _ _ henters hreturns _ hlayout hframes =>
    exact .inr ⟨_, _, hlayout, hlayout.pairwise_disjoint, hframes,
      .inr ⟨_, _, _, hreturns, henters.at hholds⟩⟩
  | inside _ _ hlayout hframes =>
    exact .inr ⟨_, _, hlayout, hlayout.pairwise_disjoint, hframes, .inl rfl⟩

theorem generate_layout_calling : ∃ parsed g, ∃ code : ProgramCode,
    parse (tokenize callingText.toList).lines = .ok parsed ∧
    generate parsed.tree 0 = (.ok (), g) ∧ g.written.toList = code.lines ∧
    ∀ {input : List String} {s : State},
      Descends (Code.ofText g.code) ((State.initial input).settle (Code.ofText g.code)) s →
      s.calls = (0, [], []) ∨ ∃ returns frames, code.Layout returns frames ∧
        frames.Pairwise Frame.Disjoint ∧ s.Holds frames := by
  obtain ⟨parsed, g, hparse, hshape, hok⟩ := exists_generate_calling
  obtain ⟨code, hwritten, hruns⟩ :=
    generate_layout hshape (by decide +kernel) (by decide +kernel) hok
  refine ⟨parsed, g, code, hparse, hok, hwritten, fun hsteps => (hruns hsteps).imp id ?_⟩
  rintro ⟨returns, frames, hlayout, hdisjoint, hframes, -⟩
  exact ⟨returns, frames, hlayout, hdisjoint, hframes⟩

end ScoreLang
