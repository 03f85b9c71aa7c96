import ScoreLang.Proofs.Code.Segments
import ScoreLang.Proofs.Machine.Calls

/-!
# Where the Machine Is

A *block* is a stretch of the code of a program that follows a discipline: the body of a function,
for instance, or the code of one statement. Its discipline gives a height of the stack to every
place. While the machine is in a block, one step leads to another place of the block or to a
function that is called, and the values on the stack change as the heights say, if the discipline
counts them.
-/

namespace ScoreLang

open List

/-- A stretch of code with a discipline: a head, which is met on the way in, and a body. -/
structure Block where
  /-- The number of the first line. -/
  start : Nat
  /-- The lines before the body. -/
  head : List CodeLine
  /-- The discipline of the body. -/
  discipline : Discipline
  /-- The height of the stack at the beginning of the body. -/
  count : Nat
  /-- The body. -/
  body : List CodeLine
  /-- The height of the stack at the end. -/
  final : Nat

/-- An operation that goes on has nothing to do with calls. -/
theorem Operation.isOfCalls_of_goesOn (operation : Operation) (h : operation.goesOn = true) :
    operation.isOfCalls = false := by
  cases operation with
  | branch | branchFalse | call | leave | allocate => exact Bool.noConfusion h
  | _ => rfl

namespace Block

/-- The lines of a block. -/
def lines (b : Block) : List CodeLine := b.head ++ b.body

/-- The number of the first line after a block. -/
def stop (b : Block) : Nat := b.start + b.lines.length

/-- The block stands in some lines, from its first line on. -/
def StandsIn (b : Block) (lines : List CodeLine) : Prop :=
  ∃ before after, lines = before ++ (b.lines ++ after) ∧ before.length = b.start

/-- The block stands in some lines, and the given line comes after it. -/
def StandsBefore (b : Block) (lines : List CodeLine) (line : CodeLine) : Prop :=
  ∃ before after, lines = before ++ (b.lines ++ line :: after) ∧ before.length = b.start

/-- The place of a line of the body, or the end of the block. The stack has the given height
there. -/
structure Spot (b : Block) (lines : List CodeLine) (first second : List CodeLine)
    (place height : Nat) : Prop where
  /-- The lines before the place, and those from it on. -/
  body : b.body = first ++ second
  stands : b.StandsIn lines
  place_eq : place = b.start + b.head.length + first.length
  /-- The lines before the place make the height. -/
  reached : b.discipline.Follows b.count first height
  /-- The lines from the place on begin with it. -/
  ahead : b.discipline.Follows height second b.final

variable {b : Block} {lines first second : List CodeLine} {line : CodeLine} {place height : Nat}

theorem StandsIn.getElem? (h : b.StandsIn lines) {i : Nat} (hi : i < b.lines.length) :
    lines[b.start + i]? = b.lines[i]? := by
  obtain ⟨before, after, rfl, hstart⟩ := h
  rw [← hstart, getElem?_append_right (by omega), Nat.add_sub_cancel_left, getElem?_append_left hi]

theorem StandsBefore.standsIn (h : b.StandsBefore lines line) : b.StandsIn lines := by
  obtain ⟨before, after, hlines, hstart⟩ := h
  exact ⟨before, line :: after, hlines, hstart⟩

theorem StandsBefore.getElem? (h : b.StandsBefore lines line) : lines[b.stop]? = some line := by
  obtain ⟨before, after, rfl, hstart⟩ := h
  rw [Block.stop, ← hstart, getElem?_append_right (by omega), Nat.add_sub_cancel_left,
    getElem?_append_right (by omega), Nat.sub_self]
  rfl

/-- The line at a place. -/
theorem Spot.getElem? (h : b.Spot lines first (line :: second) place height) :
    lines[place]? = some line := by
  have hlines : b.lines = b.head ++ first ++ line :: second := by
    simp [Block.lines, h.body]
  rw [h.place_eq, Nat.add_assoc, h.stands.getElem? (by simp [hlines]), hlines,
    getElem?_append_right (by simp)]
  simp

theorem Spot.eq_stop (h : b.Spot lines first [] place height) : place = b.stop := by
  rw [h.place_eq, Block.stop, Block.lines, h.body]
  simp [Nat.add_assoc]

/-- The next place. -/
theorem Spot.succ {height' : Nat} (h : b.Spot lines first (line :: second) place height)
    (hline : b.discipline.Passes height line height')
    (hsecond : b.discipline.Follows height' second b.final) :
    b.Spot lines (first ++ [line]) second (place + 1) height' :=
  ⟨by simp [h.body], h.stands, by simp [h.place_eq, Nat.add_assoc], h.reached.snoc hline, hsecond⟩

end Block

/-! ### Steps -/

namespace Machine

variable {code : Code} {s t : State} {lines : List CodeLine} {line : CodeLine} {place : Nat}

/-- The machine is about to read the operation of a line. -/
theorem Code.Holds.at_line (hholds : code.Holds lines) {operation : Operation} {operand : String}
    (hline : lines[place]? = some line) (hrow : line.row = (operation.line operand).row)
    (hnext : s.next = some (code.settle place)) :
    s.At code place operation (givenOperand operand) := by
  have hcode : code.rows[place]?
      = some (.command (CodeLine.commandWords operation.mnemonic operand)) := by
    rw [hholds.row, hline, Option.map_some, hrow]
    rfl
  have hsettle : code.settle place = place :=
    Code.settle_of_ne (by rw [hcode]; exact fun heq => nomatch heq)
  exact ⟨by rw [hnext, hsettle, Option.map_some, hsettle], by
    rw [hcode, Option.bind_some, Row.instruction?, Instruction.ofWords_commandWords]⟩

/-- An operation that goes on does so with the next line. -/
theorem next_perform {operation : Operation} {operand : Option String}
    (hgoes : operation.goesOn = true) (h : Ends (perform code operation operand) s () t) :
    t.next = s.next := by
  cases operation with
  | branch | branchFalse | call | leave | allocate => exact Bool.noConfusion hgoes
  | both =>
    simp only [perform, ends_bind, ends_pop] at h
    obtain ⟨value, _, ⟨rest, hstack, rfl⟩, h⟩ := h
    split at h
    · rw [ends_pushFlag.1 h]
    · simp only [ends_bind, ends_pop, ends_pushFlag] at h
      obtain ⟨_, _, ⟨_, -, rfl⟩, rfl⟩ := h
      rfl
  | either =>
    simp only [perform, ends_bind, ends_pop] at h
    obtain ⟨value, _, ⟨rest, hstack, rfl⟩, h⟩ := h
    split at h
    · simp only [ends_bind, ends_pop, ends_pushFlag] at h
      obtain ⟨_, _, ⟨_, -, rfl⟩, rfl⟩ := h
      rfl
    · rw [ends_pushFlag.1 h]
  | _ => exact (perform_exchanges rfl h).next

theorem State.At.calls_eq {operation : Operation} {operand : Option String} {ended : Bool}
    (h : s.At code place operation operand) (hother : operation.isOfCalls = false)
    (hstep : Ends (stepAction code) s ended t) : t.calls = s.calls := by
  obtain ⟨-, hperform⟩ := h.ends_step.1 hstep
  have hkeeps := (perform_keeps hother).calls_eq hperform
  exact hkeeps

theorem givenOperand_eq_some {operand text : String} (h : givenOperand operand = some text) :
    text = operand := by
  unfold givenOperand at h
  split at h
  · cases h
  · exact (Option.some.inj h).symm

/-- Some values on top of the stack are replaced. The heights are those of a part of the stack from
the top on. -/
def Trades (s t : State) (height height' : Nat) : Prop :=
  ∃ before after rest, s.stack = before ++ rest ∧ t.stack = after ++ rest ∧
    height + after.length = height' + before.length ∧ before.length ≤ height

theorem Exchanges.trades {taken given k : Nat} (h : Exchanges taken given s t) :
    Trades s t (k + taken) (k + given) := by
  obtain ⟨before, after, rest, hbefore, rfl, hafter, rfl⟩ := h.stack
  exact ⟨before, after, rest, hbefore, hafter, by omega, by omega⟩

end Machine

namespace Block

open Machine

variable {code : Code} {s t : State} {b : Block} {lines first second : List CodeLine}
  {line : CodeLine} {place height : Nat}

/-- A place of a block, once the labels are skipped. -/
theorem Spot.settle (hholds : code.Holds lines) (h : b.Spot lines first second place height) :
    ∃ first' second' place' height', b.Spot lines first' second' place' height' ∧
      code.settle place' = code.settle place ∧ (b.discipline.counted → height' = height) ∧
      ∀ line ∈ second'.head?, line.name? = none := by
  induction second generalizing first place height with
  | nil => exact ⟨first, [], place, height, h, rfl, fun _ => rfl, by simp⟩
  | cons line second ih =>
    cases h.ahead with
    | cons hline hsecond =>
      by_cases hname : line.name? = none
      · exact ⟨first, line :: second, place, height, h, rfl, fun _ => rfl, by simpa using hname⟩
      · cases hline with
        | label htarget hheight =>
          obtain ⟨first', second', place', height', hspot, hplace, hsame, hcommand⟩ :=
            ih (h.succ (.label htarget hheight) hsecond)
          rw [← hholds.settle_label h.getElem?] at hplace
          exact ⟨first', second', place', height', hspot, hplace, fun hc => by
            rw [hsame hc, (hheight hc).1, (hheight hc).2], hcommand⟩
        | _ => exact absurd rfl hname

/-- The machine is about to read a command of a block, or has come to its end. -/
structure Holds (b : Block) (code : Code) (lines : List CodeLine) (s : State) (second : List
    CodeLine) (place height : Nat) : Prop where
  next : s.next = some (code.settle place)
  spot : ∃ first, b.Spot lines first second place height
  command : ∀ line ∈ second.head?, line.name? = none

theorem Holds.next_eq (hholds : code.Holds lines)
    (h : b.Holds code lines s (line :: second) place height) : s.next = some place := by
  obtain ⟨first, hspot⟩ := h.spot
  have hname := h.command line rfl
  rw [h.next, Code.settle_of_ne]
  rw [hholds.row, hspot.getElem?]
  cases hspot.ahead with
  | cons hline _ =>
    cases hline with
    | label => cases hname
    | _ => exact fun heq => nomatch heq

/-- What a step of the machine does at a line of the body of a block. -/
inductive Leads (code : Code) (lines : List CodeLine) (b : Block) (place height : Nat)
    (s t : State) : Prop where
  /-- The machine stays in the block. -/
  | stays {operation : Operation} {operand : Option String} {second : List CodeLine}
      {place' height' : Nat} : s.At code place operation operand → operation.isOfCalls = false →
      b.Holds code lines t second place' height' → t.calls = s.calls →
      (b.discipline.counted → Trades s t height height') → Leads code lines b place height s t
  /-- A function is called, and the machine will come back to the next place. -/
  | calls {label : String} {count height' : Nat} {first second : List CodeLine} :
      s.At code place .call (some label) → b.discipline.calls label count →
      b.Spot lines first (Operation.call.line label :: second) place height →
      b.Spot lines (first ++ [Operation.call.line label]) second (place + 1) height' →
      (b.discipline.counted → ∃ k, height = k + count ∧ height' = k + 1) →
      t = State.settle code { s with
        next := (code.find? label).map (· + 1)
        returns := place :: s.returns } → Leads code lines b place height s t

/-- The machine stands at a place after it has come there. -/
theorem Spot.holds (hholds : code.Holds lines) (h : b.Spot lines first second place height)
    (hnext : t.next = some place) : ∃ second' place' height',
      b.Holds code lines (t.settle code) second' place' height' ∧
      (b.discipline.counted → height' = height) := by
  obtain ⟨first', second', place', height', hspot, hplace, hsame, hcommand⟩ := h.settle hholds
  exact ⟨second', place', height',
    ⟨by simp [State.settle, hnext, hplace], ⟨first', hspot⟩, hcommand⟩, hsame⟩

/-- **A step in a block** stays in it or calls a function. -/
theorem Holds.leads (hholds : code.Holds lines)
    (hlabels : ∀ name, b.discipline.targets name → .label name ∈ b.body)
    (h : b.Holds code lines s (line :: second) place height) (hmove : Moves code s t) :
    Leads code lines b place height s t := by
  obtain ⟨first, hspot⟩ := h.spot
  obtain ⟨t', hstep, rfl⟩ := hmove
  cases hspot.ahead with
  | @cons _ k _ _ _ hline hsecond =>
  -- a jump goes to a label of the body, where the height is zero
  have hjump : ∀ {target : String}, b.discipline.targets target →
      t'.next = (code.find? target).map (· + 1) → ∃ second' place' height',
        b.Holds code lines (t'.settle code) second' place' height' ∧
        (b.discipline.counted → height' = 0) := by
    intro target htarget hnext
    obtain ⟨before, after, hbody⟩ := append_of_mem (hlabels target htarget)
    have hall := hspot.reached.append hspot.ahead
    rw [← hspot.body, hbody] at hall
    obtain ⟨j, j', hbefore, hlabel, hafter⟩ := hall.passes
    have hthere : b.Spot lines before (.label target :: after)
        (b.start + b.head.length + before.length) j :=
      ⟨hbody, hspot.stands, rfl, hbefore, .cons hlabel hafter⟩
    rw [hholds.find hthere.getElem?, Option.map_some] at hnext
    obtain ⟨second', place', height', hholds', hheight⟩ :=
      (hthere.succ hlabel hafter).holds hholds hnext
    cases hlabel with
    | label _ hzero =>
      exact ⟨second', place', height', hholds', fun hc => by rw [hheight hc, (hzero hc).2]⟩
  -- an operation goes on with the next line
  have hgoesOn : ∀ {operation : Operation} {operand : String},
      line.row = (operation.line operand).row → operation.goesOn = true →
      b.discipline.Shifts operation height k → Leads code lines b place height s
        (t'.settle code) := by
    intro operation operand hrow hgoes hshifts
    have hat := hholds.at_line hspot.getElem? hrow h.next
    obtain ⟨-, hperform⟩ := hat.ends_step.1 hstep
    have hother := operation.isOfCalls_of_goesOn hgoes
    obtain ⟨second', place', height', hthere, hheight⟩ :=
      (hspot.succ hline hsecond).holds hholds (next_perform hgoes hperform)
    have hcalls := hat.calls_eq hother hstep
    refine .stays hat hother hthere hcalls fun hc => ?_
    obtain ⟨taken, given, j, heffect, rfl, rfl⟩ := hshifts hc
    rw [hheight hc]
    exact (perform_exchanges heffect hperform).trades
  cases hline with
  | label => exact absurd (h.command _ rfl) (by simp [CodeLine.name?])
  | branch htarget hzero =>
    have hat := hholds.at_line hspot.getElem? rfl h.next
    obtain ⟨-, hperform⟩ := hat.ends_step.1 hstep
    have hcalls := hat.calls_eq rfl hstep
    simp only [perform, ends_bind, ends_needed, ends_jump] at hperform
    obtain ⟨text, _, ⟨htext, rfl⟩, rfl⟩ := hperform
    obtain rfl := givenOperand_eq_some htext
    obtain ⟨second', place', height', hthere, hheight⟩ := hjump htarget rfl
    exact .stays hat rfl hthere hcalls fun hc => ⟨[], [], s.stack, rfl, rfl, by
      simp [hheight hc, (hzero hc).1], Nat.zero_le _⟩
  | branchFalse htarget hheights =>
    have hat := hholds.at_line hspot.getElem? rfl h.next
    obtain ⟨-, hperform⟩ := hat.ends_step.1 hstep
    have hcalls := hat.calls_eq rfl hstep
    simp only [perform, ends_bind, ends_pop] at hperform
    obtain ⟨value, _, ⟨rest, hstack, rfl⟩, hperform⟩ := hperform
    split at hperform
    · simp only [ends_bind, ends_needed, ends_jump] at hperform
      obtain ⟨text, _, ⟨htext, rfl⟩, rfl⟩ := hperform
      obtain rfl := givenOperand_eq_some htext
      obtain ⟨second', place', height', hthere, hheight⟩ := hjump htarget rfl
      exact .stays hat rfl hthere hcalls fun hc => ⟨[value], [], rest, hstack, rfl, by
        simp [hheight hc, (hheights hc).1], by simp [(hheights hc).1]⟩
    · obtain ⟨-, hsame⟩ := ends_pure.1 hperform
      have hnext : t'.next = some (place + 1) := by rw [← hsame]
      have hrest : t'.stack = rest := by rw [← hsame]
      obtain ⟨second', place', height', hthere, hheight⟩ :=
        (hspot.succ (.branchFalse htarget hheights) hsecond).holds hholds hnext
      exact .stays hat rfl hthere hcalls fun hc => ⟨[value], [], rest, hstack, hrest, by
        simp [hheight hc, (hheights hc).1, (hheights hc).2], by simp [(hheights hc).1]⟩
  | call hcall hheights =>
    have hat := hholds.at_line hspot.getElem? rfl h.next
    obtain ⟨-, hperform⟩ := hat.ends_step.1 hstep
    obtain ⟨text, htext, rfl⟩ := ends_perform_call.1 hperform
    obtain rfl := givenOperand_eq_some htext
    rw [htext] at hat
    exact .calls hat hcall hspot (hspot.succ (.call hcall hheights) hsecond) hheights rfl
  | operation hgoes _ hshifts => exact hgoesOn rfl hgoes hshifts
  | @bare _ operation hgoes _ hshifts =>
    have hrow : (CodeLine.bare operation.mnemonic).row = (operation.line "").row := rfl
    exact hgoesOn hrow hgoes hshifts

end Block

end ScoreLang
