import ScoreLang.Proofs.Stack.Effect

/-!
# Calls Are Nested

A call is made by three operations: one goes to the function and notes the line to come back to,
one opens a frame for the function, and one leaves the function and closes the frame. The machine
does not note where the frame of the caller begins. It keeps the ends of the frames only, and takes
the base of a frame for the end of the frame below.

`Nested code s calls u` says that the machine comes from `s` to `u` by operations that open and
close calls in the order of a stack, where `calls` are those that are still open. The theory rests
on one invariant: the ends of the frames that are open stand on top of those that `s` has, each
frame begins where the one below ends, and the base is what `leave` would compute.

## Main results

* `perform_keeps`: no other operation touches what the machine knows about the calls;
* `Nested.stacked`: the invariant holds along every run;
* `Nested.frames_disjoint_and_leave`: frames do not overlap, and a call leaves no trace but its
  result.
-/

namespace ScoreLang

/-- The operations that calls are made of. -/
def Operation.isOfCalls : Operation → Bool
  | .call | .allocate | .leave => true
  | _ => false

namespace Machine

variable {code : Code} {s t u v : State} {operand : Option String}

/-- What a state knows about the calls: the base, the ends of the frames and the lines to come back
to. -/
def State.calls (s : State) : Int × List Int × List Nat := (s.base, s.frames, s.returns)

/-- The calls are the same if the base, the frames and the lines are. -/
theorem State.calls_eq_iff :
    s.calls = t.calls ↔ s.base = t.base ∧ s.frames = t.frames ∧ s.returns = t.returns := by
  simp [State.calls]

/-! ### Operations that have nothing to do with calls -/

/-- An action does not change what is known about the calls. -/
structure Keeps {α : Type} (action : Action α) : Prop where
  calls_eq : ∀ {s : State} {a : α} {t : State}, Ends action s a t → t.calls = s.calls

namespace Keeps

variable {α β : Type}

theorem pure {a : α} : Keeps (Pure.pure a) where
  calls_eq h := by rw [(ends_pure.1 h).2]

theorem throw {fault : Fault} : Keeps (MonadExcept.throw fault : Action α) where
  calls_eq h := (ends_throw.1 h).elim

theorem get : Keeps (MonadState.get : Action State) where
  calls_eq h := by rw [(ends_get.1 h).2]

/-- One such action after another. -/
theorem bind {action : Action α} {next : α → Action β} (h : Keeps action)
    (hnext : ∀ a, Keeps (next a)) : Keeps (action >>= next) where
  calls_eq hends := by
    obtain ⟨a, u, hfirst, hrest⟩ := ends_bind.1 hends
    rw [(hnext a).calls_eq hrest, h.calls_eq hfirst]

theorem ite {p : Prop} [Decidable p] {action other : Action α} (h : Keeps action)
    (hother : Keeps other) : Keeps (if p then action else other) := by
  split
  · exact h
  · exact hother

/-- A change that leaves the calls alone. -/
theorem modify {change : State → State} (h : ∀ s, (change s).calls = s.calls) :
    Keeps (modify change : Action Unit) where
  calls_eq hends := by rw [ends_modify.1 hends, h]

theorem push {value : Value} : Keeps (push value) := .modify fun _ => rfl

theorem pushFlag {flag : Bool} : Keeps (pushFlag flag) := .modify fun _ => rfl

theorem report {text : String} : Keeps (report text) := .modify fun _ => rfl

theorem replaceTop {value : Value} : Keeps (replaceTop value) := .modify fun _ => rfl

theorem jump {label : String} : Keeps (jump code label) := .modify fun _ => rfl

theorem needed : Keeps (needed operand) where
  calls_eq h := by rw [(ends_needed.1 h).2]

theorem ofInteger {result : Except Text.IntegerFault α} : Keeps (ofInteger result) where
  calls_eq h := by rw [(ends_ofInteger.1 h).2]

theorem ofValue {result : Except ValueFault α} : Keeps (ofValue result) where
  calls_eq h := by rw [(ends_ofValue.1 h).2]

theorem top : Keeps top where
  calls_eq h := by rw [(ends_top.1 h).2]

theorem pop : Keeps pop where
  calls_eq h := by
    obtain ⟨rest, -, rfl⟩ := ends_pop.1 h
    rfl

theorem read {number : Int} : Keeps (read number) where
  calls_eq h := by rw [eq_of_ends_read h]

theorem address {text : String} : Keeps (address text) where
  calls_eq h := by rw [eq_of_ends_address h]

/-- A value that is written is not a call. -/
theorem write {number : Int} {value : Value} : Keeps (write number value) where
  calls_eq h := by
    obtain ⟨cells, rfl⟩ := eq_of_ends_write h
    rfl

theorem arithmetic {combine : Value → Value → Except ValueFault Value} :
    Keeps (arithmetic combine) :=
  .bind pop fun _ => .bind top fun _ => .bind ofValue fun _ => replaceTop

theorem comparison {compare : Value → Value → Bool} : Keeps (comparison compare) :=
  .bind pop fun _ => .bind pop fun _ => pushFlag

theorem input : Keeps input := by
  refine .bind report fun _ => .bind get fun state => ?_
  cases state.input with
  | nil => exact throw
  | cons line rest =>
    exact .bind (.modify fun _ => rfl) fun _ => .bind ofInteger fun _ => push

end Keeps

/-- **No other operation touches the calls.** -/
theorem perform_keeps {operation : Operation} (h : operation.isOfCalls = false) :
    Keeps (perform code operation operand) := by
  cases operation with
  | call | allocate | leave => exact Bool.noConfusion h
  | branch => exact .bind .needed fun _ => .jump
  | branchFalse => exact .bind .pop fun _ => .ite (.bind .needed fun _ => .jump) .pure
  | store =>
    exact .bind .needed fun _ => .bind .address fun _ => .bind .top fun _ => .write
  | load =>
    exact .bind .needed fun _ => .bind .address fun _ => .bind .read fun _ =>
      .bind .ofValue fun _ => .push
  | push => exact .bind .needed fun _ => .bind .ofInteger fun _ => .push
  | pop => exact .bind .pop fun _ => .pure
  | input => exact .input
  | output => exact .bind .pop fun _ => .bind .ofInteger fun _ => .report
  | add | subtract | multiply => exact .arithmetic
  | divide =>
    exact .bind .pop fun _ => .ite (.bind .throw fun _ => .bind .top fun _ =>
      .bind .ofValue fun _ => .replaceTop)
      (.bind .top fun _ => .bind .ofValue fun _ => .replaceTop)
  | equal | notEqual | greater | less | greaterEqual | lessEqual => exact .comparison
  | both => exact .bind .pop fun _ => .ite .pushFlag (.bind .pop fun _ => .pushFlag)
  | either => exact .bind .pop fun _ => .ite (.bind .pop fun _ => .pushFlag) .pushFlag
  | negate => exact .bind .pop fun _ => .pushFlag

/-! ### Calls that are open -/

/-- The cells of a function that is active. -/
structure Frame where
  /-- The first cell. -/
  base : Int
  /-- The number of cells. -/
  size : Int
  deriving DecidableEq, Repr

/-- Where a frame ends. -/
def Frame.limit (frame : Frame) : Int := frame.base + frame.size

/-- A frame has the cell with a number. -/
def Frame.Has (frame : Frame) (cell : Int) : Prop := frame.base ≤ cell ∧ cell < frame.limit

/-- Two frames have no cell in common. -/
def Frame.Disjoint (first second : Frame) : Prop := ∀ cell, first.Has cell → ¬second.Has cell

/-- A call that has not returned. -/
structure Call where
  /-- The state just before the call. -/
  caller : State
  /-- The line of the call. -/
  line : Nat
  /-- The frame, once it is open. -/
  frame : Option Frame
  deriving DecidableEq, Repr

/-- The frames of some calls. -/
def openFrames (calls : List Call) : List Frame := calls.filterMap Call.frame

/-- From the state `s` the machine comes to another one, and the calls that it has made have
returned, except for some, which are given with the innermost one first. -/
inductive Nested (code : Code) (s : State) : List Call → State → Prop where
  /-- Nothing has happened. -/
  | start : Nested code s [] s
  /-- An operation that has nothing to do with calls. -/
  | other {calls : List Call} {u v : State} {line : Nat} {operation : Operation}
      {operand : Option String} : Nested code s calls u → u.At code line operation operand →
      operation.isOfCalls = false → step code u = (.ok false, v) → Nested code s calls v
  /-- A call is made. -/
  | call {calls : List Call} {u v : State} {line : Nat} {operand : Option String} :
      Nested code s calls u → u.At code line .call operand → step code u = (.ok false, v) →
      Nested code s (⟨u, line, none⟩ :: calls) v
  /-- The function that has been called opens its frame, of one cell at least. -/
  | «open» {calls : List Call} {caller u v : State} {line place : Nat} {text : String}
      {size : Int} :
      Nested code s (⟨caller, line, none⟩ :: calls) u → u.At code place .allocate (some text) →
      Text.readInteger text = .ok size → 1 ≤ size → step code u = (.ok false, v) →
      Nested code s (⟨caller, line, some ⟨v.base, size⟩⟩ :: calls) v
  /-- The function returns. -/
  | leave {calls : List Call} {caller u v : State} {line place : Nat} {frame : Frame}
      {operand : Option String} : Nested code s (⟨caller, line, some frame⟩ :: calls) u →
      u.At code place .leave operand → step code u = (.ok false, v) → Nested code s calls v

/-! ### What the machine knows about them -/

/-- A state knows about some calls that have been made from `s`. -/
structure Knows (s : State) (calls : List Call) (u : State) : Prop where
  frames : u.frames = (openFrames calls).map Frame.limit ++ s.frames
  /-- The innermost frame begins where the one below ends. -/
  base : u.base = baseOf u.frames
  returns : u.returns = calls.map Call.line ++ s.returns

/-- Some calls have been made from `s`, each one while those before it were open, and each frame
begins where the one below ends. -/
inductive Stacked (s : State) : List Call → Prop where
  | nil : Stacked s []
  | cons {call : Call} {calls : List Call} : Knows s calls call.caller →
      (∀ frame, call.frame = some frame → 1 ≤ frame.size ∧
        call.caller.frames.head? = some frame.base) →
      Stacked s calls → Stacked s (call :: calls)

/-- Only the calls matter. -/
theorem Knows.congr {calls : List Call} (h : Knows s calls u) (hcalls : v.calls = u.calls) :
    Knows s calls v := by
  obtain ⟨hbase, hframes, hreturns⟩ := State.calls_eq_iff.1 hcalls
  exact ⟨by rw [hframes, h.frames], by rw [hbase, hframes, h.base], by rw [hreturns, h.returns]⟩

section Stacked

variable {calls : List Call} {b top : Int} {rest : List Int}

/-- The end of the innermost frame is where the next frame begins. It is not below the last end that
`s` has, and no frame that is open goes further. -/
theorem Stacked.exists_top (hs : s.frames = top :: rest) (h : Stacked s calls) :
    ∃ limit below, (openFrames calls).map Frame.limit ++ s.frames = limit :: below ∧ top ≤ limit ∧
      ∀ frame ∈ openFrames calls,
        top ≤ frame.base ∧ frame.base < frame.limit ∧ frame.limit ≤ limit := by
  induction h with
  | nil => exact ⟨top, rest, by simp [openFrames, hs], Int.le_refl _, by simp [openFrames]⟩
  | @cons call calls hknows hframe _ ih =>
    obtain ⟨limit, below, hlimits, hle, hall⟩ := ih
    cases hcall : call.frame with
    | none => exact ⟨limit, below, by simpa [openFrames, hcall] using hlimits, hle,
        by simpa [openFrames, hcall] using hall⟩
    | some frame =>
      obtain ⟨hsize, hbase⟩ := hframe frame hcall
      obtain rfl : limit = frame.base := by
        rw [hknows.frames, hlimits] at hbase
        exact Option.some.inj hbase
      have hlimit : frame.base < frame.limit := by
        unfold Frame.limit
        omega
      have hopen : openFrames (call :: calls) = frame :: openFrames calls := by
        simp [openFrames, hcall]
      refine ⟨frame.limit, _, by rw [hopen]; rfl, by omega, ?_⟩
      intro other hother
      rw [hopen, List.mem_cons] at hother
      rcases hother with rfl | hother
      · exact ⟨hle, hlimit, Int.le_refl _⟩
      · obtain ⟨hbelow, hsized, hwithin⟩ := hall other hother
        exact ⟨hbelow, hsized, by omega⟩

/-- **Frames that are open do not overlap.** -/
theorem Stacked.pairwise_disjoint (hs : s.frames = top :: rest) (h : Stacked s calls) :
    (openFrames calls).Pairwise Frame.Disjoint := by
  induction h with
  | nil => exact .nil
  | @cons call calls hknows hframe hcalls ih =>
    cases hcall : call.frame with
    | none => simpa [openFrames, hcall] using ih
    | some frame =>
      have hopen : openFrames (call :: calls) = frame :: openFrames calls := by
        simp [openFrames, hcall]
      rw [hopen]
      refine .cons ?_ ih
      intro other hother
      obtain ⟨limit, below, hlimits, -, hall⟩ := hcalls.exists_top hs
      have hbase := (hframe frame hcall).2
      rw [hknows.frames, hlimits] at hbase
      have hwithin := (hall other hother).2.2
      rw [Option.some.inj hbase] at hwithin
      intro cell hinner houter
      have hbegins : frame.base ≤ cell := hinner.1
      have hends : cell < other.limit := houter.2
      omega

/-- The base is not zero, so that no frame is taken for the first one. -/
theorem Stacked.baseOf_pos (hs : s.frames = top :: b :: rest) (hb : 0 < b) (htop : b < top)
    (h : Stacked s calls) : 0 < baseOf ((openFrames calls).map Frame.limit ++ s.frames) := by
  obtain ⟨_, _, -, -, hall⟩ := h.exists_top hs
  rw [hs]
  cases hopen : openFrames calls with
  | nil => exact hb
  | cons frame others =>
    cases others with
    | nil => exact Int.lt_trans hb htop
    | cons other others =>
      obtain ⟨hbelow, hsized, -⟩ := hall other (by simp [hopen])
      change 0 < other.limit
      omega

/-- The innermost frame begins at the base. -/
theorem Stacked.base_eq {call : Call} {frame : Frame} (h : Stacked s (call :: calls))
    (hframe : call.frame = some frame) (hknows : Knows s (call :: calls) u) :
    u.base = frame.base := by
  cases h with
  | cons hcaller hbegins _ =>
    have hhead := (hbegins frame hframe).2
    rw [hcaller.frames] at hhead
    rw [hknows.base, hknows.frames]
    cases hlimits : (openFrames calls).map Frame.limit ++ s.frames with
    | nil => simp [hlimits] at hhead
    | cons limit below =>
      rw [hlimits] at hhead
      obtain rfl : limit = frame.base := Option.some.inj hhead
      simp [openFrames, hframe] at hlimits ⊢
      simp [hlimits, baseOf]

/-- **A call leaves no trace but its result**: the state after it, in terms of the state before
it. -/
theorem Stacked.step_leave {call : Call} {frame : Frame} {place : Nat}
    (h : Stacked s (call :: calls)) (hframe : call.frame = some frame)
    (hknows : Knows s (call :: calls) u) (hat : u.At code place .leave operand) :
    step code u = (.ok false, v) ↔ ∃ cell, cell? frame.base = some cell ∧ v = { u with
      stack := u.cells.get cell :: u.stack
      base := call.caller.base
      frames := call.caller.frames
      returns := call.caller.returns
      next := some (call.line + 1) } := by
  have hbase := h.base_eq hframe hknows
  cases h with
  | cons hcaller _ _ =>
    have hframes : u.frames = frame.limit :: call.caller.frames := by
      rw [hknows.frames, hcaller.frames]
      simp [openFrames, hframe]
    have hreturns : u.returns = call.line :: call.caller.returns := by
      rw [hknows.returns, hcaller.returns]
      rfl
    have hends : step code u = (.ok false, v) ↔ Ends (stepAction code) u false v := Iff.rfl
    rw [hends, hat.ends_step, ends_perform_leave]
    simp only [true_and, hbase, hframes, hreturns, List.cons.injEq]
    constructor
    · rintro ⟨cell, _, _, _, _, hcell, ⟨rfl, rfl⟩, ⟨rfl, rfl⟩, rfl⟩
      exact ⟨cell, hcell, by rw [hcaller.base]⟩
    · rintro ⟨cell, hcell, rfl⟩
      exact ⟨cell, _, _, _, _, hcell, ⟨rfl, rfl⟩, ⟨rfl, rfl⟩, by rw [hcaller.base]⟩

end Stacked

section Nested

variable {calls : List Call} {b top : Int} {rest : List Int}

/-- **The invariant of nested calls**, along every run. -/
theorem Nested.stacked (hs : s.frames = top :: b :: rest) (hbase : s.base = b) (hb : 0 < b)
    (htop : b < top) (h : Nested code s calls u) : Stacked s calls ∧ Knows s calls u := by
  induction h with
  | start => exact ⟨.nil, by simp [openFrames], by rw [hbase, hs]; rfl, rfl⟩
  | other _ hat hother hstep ih =>
    obtain ⟨-, hperform⟩ := hat.ends_step.1 hstep
    have hcalls := (perform_keeps hother).calls_eq hperform
    exact ⟨ih.1, ih.2.congr hcalls⟩
  | @call calls u v line operand _ hat hstep ih =>
    obtain ⟨hstacked, hknows⟩ := ih
    obtain ⟨-, hperform⟩ := hat.ends_step.1 hstep
    obtain ⟨label, -, rfl⟩ := ends_perform_call.1 hperform
    refine ⟨.cons hknows ?_ hstacked, hknows.frames, hknows.base, ?_⟩
    · intro frame hframe
      simp at hframe
    · simp [hknows.returns]
  | @«open» calls caller u v line place text size _ hat hsize hpos hstep ih =>
    obtain ⟨_ | ⟨hcaller, -, hstacked⟩, hknows⟩ := ih
    obtain ⟨limit, below, hlimits, -, -⟩ := hstacked.exists_top hs
    have hframes : u.frames = limit :: below := by
      rw [hknows.frames, ← hlimits]
      rfl
    have hlive : u.base ≠ 0 := by
      have hpositive := hstacked.baseOf_pos hs hb htop
      rw [hlimits, ← hframes, ← hknows.base] at hpositive
      omega
    obtain ⟨-, hperform⟩ := hat.ends_step.1 hstep
    obtain ⟨found, hfound, rfl⟩ := (ends_perform_allocate
      (s := { u with next := some (place + 1) }) hlive hframes).1 hperform
    obtain rfl : found = size := Except.ok.inj (hfound.symm.trans hsize)
    refine ⟨.cons hcaller ?_ hstacked, ?_, rfl, hknows.returns⟩
    · intro frame hframe
      obtain rfl := Option.some.inj hframe
      exact ⟨hpos, by rw [hcaller.frames, hlimits]; rfl⟩
    · change (limit + found) :: limit :: below = _
      rw [← hlimits]
      rfl
  | @leave calls caller u v line place frame operand _ hat hstep ih =>
    obtain ⟨cell, -, rfl⟩ := (ih.1.step_leave rfl ih.2 hat).1 hstep
    obtain ⟨_ | ⟨hcaller, -, hstacked⟩, -⟩ := ih
    exact ⟨hstacked, hcaller.congr rfl⟩

/-- **Nested calls obey the discipline of a stack.** From a state with a frame that is not at the
start of the memory, let the machine make calls that open frames and return in the order of a stack.
The frames that are open at any time lie above that frame and do not overlap, and the innermost one
begins at the base. When the innermost function is about to return and its frame lies within the
memory, the machine puts the content of the first cell of the frame on the stack, goes on after the
call, and knows about the calls what it knew just before the call; nothing else is changed. -/
theorem Nested.frames_disjoint_and_leave (hs : s.frames = top :: b :: rest) (hbase : s.base = b)
    (hb : 0 < b) (htop : b < top) (h : Nested code s calls u) :
    (∀ frame ∈ openFrames calls, top ≤ frame.base) ∧
    (openFrames calls).Pairwise Frame.Disjoint ∧
    ∀ {call : Call} {outer : List Call} {frame : Frame} {place : Nat} {operand : Option String},
      calls = call :: outer → call.frame = some frame → u.At code place .leave operand →
      frame.limit ≤ memorySize → u.base = frame.base ∧ ∃ cell, cell? frame.base = some cell ∧
        step code u = (.ok false, { u with
          stack := u.cells.get cell :: u.stack
          base := call.caller.base
          frames := call.caller.frames
          returns := call.caller.returns
          next := some (call.line + 1) }) := by
  obtain ⟨hstacked, hknows⟩ := h.stacked hs hbase hb htop
  obtain ⟨_, _, -, -, hall⟩ := hstacked.exists_top hs
  refine ⟨fun frame hframe => (hall frame hframe).1, hstacked.pairwise_disjoint hs, ?_⟩
  rintro call outer frame place operand rfl hframe hat hwithin
  obtain ⟨habove, hsized, -⟩ := hall frame (by simp [openFrames, hframe])
  obtain ⟨first, hfirst⟩ : ∃ first : Nat, frame.base = first := ⟨frame.base.toNat, by omega⟩
  have hcell := cell?_natCast (show first < memorySize by omega)
  rw [← hfirst] at hcell
  exact ⟨hstacked.base_eq hframe hknows, _, hcell,
    (hstacked.step_leave hframe hknows hat).2 ⟨_, hcell, rfl⟩⟩

/-- A function calls another one, whose result is seven. -/
def nestedCode : Code where
  rows := #[.command ["JSR", "LABEL0"], .label, .command ["ALLOCATE", "3"],
    .command ["JSR", "LABEL1"], .command ["RET"], .label, .command ["ALLOCATE", "2"],
    .command ["LOADI", "7"], .command ["STO", ":0"], .command ["POP"], .command ["RET"]]
  labels := [("LABEL1", 5), ("LABEL0", 1)]

/-- The machine after some steps with this code, in a frame from cell two to cell five. -/
def nestedState : Nat → State
  | 0 => { State.initial [] with base := 2, frames := [5, 2] }
  | count + 1 => (step nestedCode (nestedState count)).2

/-- One step of the sample. -/
theorem step_nestedState {count : Nat}
    (h : (step nestedCode (nestedState count)).1 = .ok false) :
    step nestedCode (nestedState count) = (.ok false, nestedState (count + 1)) := by
  rw [nestedState, ← h]

/-- Two frames are open when the inner function returns. -/
theorem Nested.frames_disjoint_and_leave_sample : ∃ calls, Nested nestedCode (nestedState 0) calls
    (nestedState 7) ∧ openFrames calls = [⟨8, 2⟩, ⟨5, 3⟩] ∧
    (∀ frame ∈ openFrames calls, 5 ≤ frame.base) ∧
    (openFrames calls).Pairwise Frame.Disjoint ∧
    ∃ v, step nestedCode (nestedState 7) = (.ok false, v) ∧ v.stack = [.integer 7] ∧
      v.calls = (nestedState 2).calls ∧ v.next = some 4 := by
  have hcall : (nestedState 0).At nestedCode 0 .call (some "LABEL0") := by decide +kernel
  have hopen : (nestedState 1).At nestedCode 2 .allocate (some "3") := by decide +kernel
  have hinner : (nestedState 2).At nestedCode 3 .call (some "LABEL1") := by decide +kernel
  have hframe : (nestedState 3).At nestedCode 6 .allocate (some "2") := by decide +kernel
  have hpush : (nestedState 4).At nestedCode 7 .push (some "7") := by decide +kernel
  have hstore : (nestedState 5).At nestedCode 8 .store (some ":0") := by decide +kernel
  have hpop : (nestedState 6).At nestedCode 9 .pop none := by decide +kernel
  have hleave : (nestedState 7).At nestedCode 10 .leave none := by decide +kernel
  have hsteps : ∀ count < 7, step nestedCode (nestedState count)
      = (.ok false, nestedState (count + 1)) := by
    intro count hcount
    apply step_nestedState
    revert count
    decide +kernel
  have hnested := Nested.start
    |>.call hcall (hsteps 0 (by omega))
    |>.open hopen (show Text.readInteger "3" = .ok 3 by decide +kernel) (by omega)
      (hsteps 1 (by omega))
    |>.call hinner (hsteps 2 (by omega))
    |>.open hframe (show Text.readInteger "2" = .ok 2 by decide +kernel) (by omega)
      (hsteps 3 (by omega))
    |>.other hpush rfl (hsteps 4 (by omega))
    |>.other hstore rfl (hsteps 5 (by omega))
    |>.other hpop rfl (hsteps 6 (by omega))
  have hframes : (nestedState 0).frames = [5, 2] := rfl
  obtain ⟨habove, hdisjoint, hreturns⟩ :=
    hnested.frames_disjoint_and_leave hframes rfl (by decide) (by decide)
  obtain ⟨-, cell, hcell, hstep⟩ := hreturns rfl rfl hleave (by decide +kernel)
  have hfirst : cell? (nestedState 4).base = some ⟨8, by decide⟩ := by decide +kernel
  obtain rfl := Option.some.inj (hfirst.symm.trans hcell)
  exact ⟨_, hnested, by decide +kernel, habove, hdisjoint, _, hstep, by decide +kernel,
    by decide +kernel, rfl⟩

end Nested

end Machine

end ScoreLang
