import ScoreLang.Proofs.Code.Coverage
import ScoreLang.Proofs.Machine.Control
import ScoreLang.Proofs.Machine.Memory

/-!
# What a Return Does

The code of a `return` stores the value of its expression in the first cell of the frame, and then
goes on with the next statement. The function is left at its end only, where the value in that cell
is handed over. So a `return` ends the call if it is the last statement of its function. The
statements after any other one are run, and a later `return` replaces the value.

## Main results

* `Machine.Delivers`: a call is over and has delivered the value that was on top of the stack;
* `Machine.Code.Holds.endsCalls`: a return at the end of a function ends the call;
* `generate_returns`: **a return goes on, and the last one delivers its value**.
-/

namespace ScoreLang

open List Machine

/-! ### The end of a function -/

/-- Some statements end with a return of the given value. -/
inductive Stmt.EndsIn (value : Expr .expression) : Stmt .statements → Prop where
  | last : EndsIn value (.next (.return value) .done)
  | next {dangling : Bool} {first : Stmt (.statement dangling)} {rest : Stmt .statements} :
      EndsIn value rest → EndsIn value (.next first rest)

/-- The operand of the first cell of a frame. -/
def firstCell : String := ":0"

/-- The lines by which the value of a `return` is put into the first cell of the frame. -/
def returnLines : List CodeLine := [Operation.store.line firstCell, Operation.pop.line ""]

/-- The lines of a return, and the line behind them. -/
theorem getElem?_returnLines {lines before after : List CodeLine}
    (h : lines = before ++ (returnLines ++ after)) :
    lines[before.length]? = some (Operation.store.line firstCell) ∧
      lines[before.length + 1]? = some (Operation.pop.line "") ∧
      lines[before.length + 2]? = after[0]? := by
  have hget : ∀ i, lines[before.length + i]? = (returnLines ++ after)[i]? := fun i => by
    rw [h, getElem?_append_right (by omega), Nat.add_sub_cancel_left]
  exact ⟨hget 0, hget 1, hget 2⟩

/-- The code of the statements ends with that of the return. -/
theorem Stmt.EndsIn.code {value : Expr .expression} {steps : Stmt .statements} {scopes : Scopes}
    {m : Marks} {all : List CodeLine × Marks} (h : steps.EndsIn value)
    (hcode : steps.code scopes firstCell none m = some all) :
    ∃ before own, value.code scopes = some own ∧ all.1 = before ++ (own ++ returnLines) := by
  induction h generalizing m all with
  | last =>
    simp only [Stmt.code, bind_eq_some, Option.some.injEq] at hcode
    obtain ⟨_, ⟨own, hown, rfl⟩, _, rfl, rfl⟩ := hcode
    exact ⟨[], own, hown, by simp [returnLines]⟩
  | next _ ih =>
    simp only [Stmt.code, bind_eq_some, Option.some.injEq] at hcode
    obtain ⟨first, -, rest, hrest, rfl⟩ := hcode
    obtain ⟨before, own, hown, hlines⟩ := ih hrest
    exact ⟨first.1 ++ before, own, hown, by simp [hlines]⟩

/-- How the first cell is written. -/
theorem text?_firstCell : Address.text? (.relative 0) = some firstCell := by
  have hsmall : (0 : Int).natAbs < Text.writeLimit := Nat.zero_lt_of_lt Text.one_lt_writeLimit
  rw [Address.text?, Text.writeInteger, if_pos hsmall]
  rfl

/-- The result of a function is in the first cell of its frame. -/
theorem Function.opening_result {function : Function} {scopes : Scopes} {count : Nat}
    {label : String} {opening : Opening} (h : function.opening scopes count label = some opening) :
    opening.result = firstCell := by
  simp only [Function.opening, bind_eq_some, Option.some.injEq] at h
  obtain ⟨inner, hinner, entry, hentry, result, hresult, _, -, _, -, _, -, rfl⟩ := h
  simp only [Scopes.enter?, Option.map_eq_some_iff] at hinner
  obtain ⟨_, -, rfl⟩ := hinner
  obtain rfl : ⟨.relative 0, .result, none⟩ = entry := Option.some.inj hentry
  exact Option.some.inj (hresult.symm.trans text?_firstCell)

/-- **The code of a function**: the statements are compiled with the first cell for the result. -/
theorem Function.code_returns {function : Function} {s s' : Surroundings} {lines : List CodeLine}
    (h : function.code s = some (lines, s')) : ∃ scopes first m last cell,
      function.body.steps.code scopes firstCell none m = some last ∧
      lines = first ++ (last.1 ++ [Operation.leave.line cell]) := by
  simp only [Function.code, bind_eq_some] at h
  obtain ⟨opening, hopening, steps, hsteps, size, -, entry, -, cell, -, hlines⟩ := h
  rw [opening_result hopening] at hsteps
  split at hlines
  · obtain ⟨rfl, -⟩ := Prod.mk.inj (Option.some.inj hlines)
    exact ⟨opening.scopes, [.label (s.marks.label 1), Operation.allocate.line size] ++
      opening.lines, _, steps, cell, hsteps, by simp⟩
  · cases hlines

/-! ### Runs -/

section Runs

variable {machine : Code} {s t w w' : State} {place : Nat}

/-- A value is stored in the first cell of the frame. -/
theorem Machine.ends_store_firstCell
    (h : Ends (perform machine .store (givenOperand firstCell)) s () t) :
    ∃ value below cell, s.stack = value :: below ∧ cell? s.base = some cell ∧
      t = { s with cells := s.cells.set cell value cell.isLt } := by
  have hnumber : number? s.base firstCell = some s.base := by
    have hread : (Text.readInteger (String.ofList firstCell.toList.tail)).toOption = some 0 := by
      decide +kernel
    rw [number?, if_pos (by decide), hread, Option.map_some, Int.add_zero]
  have hgiven : givenOperand firstCell = some firstCell := if_neg (by decide)
  simp only [perform, hgiven, ends_bind, ends_needed, ends_address_iff, ends_top] at h
  obtain ⟨_, _, ⟨heq, rfl⟩, number, _, ⟨hfound, rfl⟩, value, _, ⟨⟨below, hstack⟩, rfl⟩, h⟩ := h
  obtain rfl := Option.some.inj heq
  obtain rfl := Option.some.inj (hnumber.symm.trans hfound)
  unfold write at h
  split at h
  · split at h
    · simp only [ends_bind, ends_throw, false_and, exists_false] at h
    · exact ⟨value, below, _, hstack, ‹_›, ends_modify.1 h⟩
  · split at h <;> simp only [ends_bind, ends_throw, false_and, exists_false] at h

/-- **What a return does**: the value goes to the first cell of the frame, and the machine goes
on. -/
theorem Machine.Code.Holds.returns {lines : List CodeLine} (hholds : machine.Holds lines)
    (hstore : lines[place]? = some (Operation.store.line firstCell))
    (hpop : lines[place + 1]? = some (Operation.pop.line "")) (hnext : w.next = some place)
    (hmove : Moves machine w w') : ∃ value cell x, Moves machine w' x ∧
      w.stack = value :: x.stack ∧ x.next = some (machine.settle (place + 2)) ∧
      x.calls = w.calls ∧ cell? x.base = some cell ∧ x.cells.get cell = value := by
  obtain ⟨t', hstep, rfl⟩ := hmove
  rw [hholds.ends_step hstore (by rw [hnext, hholds.settle_command hstore])] at hstep
  obtain ⟨value, below, cell, hstack, hcell, rfl⟩ := ends_store_firstCell hstep.2
  refine ⟨value, cell, _, hholds.moves (t := { w with
      next := some (place + 2)
      stack := below
      cells := w.cells.set cell value }) hpop rfl ?_, hstack, rfl, rfl, hcell, ?_⟩
  · simp [perform, State.settle, show w.stack = value :: below from hstack]
  · change (w.cells.set cell value)[cell.val] = value
    simp

namespace Machine

/-- A call is over: the value that was on top of the stack has been delivered to the caller, who
goes on behind the call. -/
structure Delivers (machine : Code) (value : Value) (s t : State) : Prop where
  /-- The value is on top of the stack before and after. -/
  stack : ∃ below, s.stack = value :: below ∧ t.stack = value :: below
  /-- The caller goes on. -/
  back : ∃ line, s.returns = line :: t.returns ∧ t.next = some (machine.settle (line + 1))

/-- At a place of the code a call is about to end, with the value on top of the stack. Once the
value has been stored, it is dropped from the stack, and the call is over with the next step, which
delivers it. -/
def EndsCalls (machine : Code) (place : Nat) : Prop :=
  ∀ s t : State, s.next = some place → Moves machine s t → ∃ u operand, Moves machine t u ∧
    u.At machine (place + 2) .leave operand ∧ u.calls = s.calls ∧
    ∀ v : State, Moves machine u v → ∃ value, Delivers machine value s v

end Machine

/-- **A return at the end of a function ends the call.** -/
theorem Machine.Code.Holds.endsCalls {lines before after : List CodeLine} {cell : String}
    (hholds : machine.Holds lines)
    (hlines : lines = before ++ (returnLines ++ (Operation.leave.line cell :: after))) :
    EndsCalls machine before.length := by
  obtain ⟨hstore, hpop, hleave⟩ := getElem?_returnLines hlines
  intro s t hnext hmove
  obtain ⟨value, first, u, hmove', hstack, hthere, hcalls, hfirst, hvalue⟩ :=
    hholds.returns hstore hpop hnext hmove
  have hat := hholds.at_line hleave rfl hthere
  refine ⟨u, _, hmove', hat, hcalls, ?_⟩
  rintro _ ⟨v, hstep, rfl⟩
  obtain ⟨found, limit, frames, line, returns, hfound, -, hreturns, rfl⟩ :=
    ends_perform_leave.1 (hat.ends_step.1 hstep).2
  obtain rfl : first = found := Option.some.inj (hfirst.symm.trans hfound)
  refine ⟨value, ⟨u.stack, hstack, congrArg (· :: u.stack) hvalue⟩, line, ?_, rfl⟩
  exact (State.calls_eq_iff.1 hcalls).2.2.symm.trans hreturns

end Runs

/-! ### Programs -/

/-- What the returns of a function do, whose code is part of some lines. -/
structure Returns (machine : Code) (lines own : List CodeLine) (scopes : Scopes)
    (steps : Stmt .statements) : Prop where
  /-- Every return has its code in the function. -/
  stands : ∀ value : Expr .expression, ⟨false, .return value⟩ ∈ steps.all →
    ∃ code, value.code scopes = some code ∧ code ++ returnLines <:+: own
  /-- A return puts the value of its expression into the first cell of the frame, and the machine
  goes on with the line behind. The call is not over. -/
  goesOn : ∀ {value : Expr .expression} {code before after : List CodeLine},
    value.code scopes = some code → lines = before ++ (code ++ returnLines ++ after) →
    ∀ {s t : State}, s.next = some (before.length + code.length) → Steps machine 2 s t →
      ∃ result cell, s.stack = result :: t.stack ∧
        t.next = some (machine.settle (before.length + code.length + 2)) ∧ t.calls = s.calls ∧
        cell? t.base = some cell ∧ t.cells.get cell = result
  /-- A return at the end of the function ends the call. -/
  last : ∀ {value : Expr .expression}, steps.EndsIn value → ∃ before code cell,
    value.code scopes = some code ∧
    own = before ++ (code ++ returnLines ++ [Operation.leave.line cell]) ∧
    ∀ {first second : List CodeLine}, lines = first ++ (own ++ second) →
      EndsCalls machine (first.length + before.length + code.length)

/-- What the returns of a function do. -/
theorem Function.returns {machine : Code} {lines own : List CodeLine} {function : Function}
    {s s' : Surroundings} (hholds : machine.Holds lines) (h : function.code s = some (own, s')) :
    ∃ scopes, Returns machine lines own scopes function.body.steps := by
  obtain ⟨scopes, first, m, last, cell, hsteps, rfl⟩ := function.code_returns h
  refine ⟨scopes, ?_, ?_, ?_⟩
  · intro value hvalue
    obtain ⟨_, _, own, hcoded, hstands⟩ := (Stmt.coded hsteps).stands hvalue
    cases hcoded with
    | «return» hown =>
      exact ⟨_, hown, hstands.trans ⟨first, [Operation.leave.line cell], by simp⟩⟩
  · intro value own before after _ hlines s t hnext hrest
    cases hrest with
    | head hmove hrest =>
      cases hrest with
      | head hmove' hrest =>
        cases hrest
        rw [← length_append] at hnext ⊢
        rw [append_assoc, ← append_assoc before] at hlines
        obtain ⟨hstore, hpop, -⟩ := getElem?_returnLines hlines
        obtain ⟨result, cell, x, hx, hstack, hthere, hcalls, hcell, hresult⟩ :=
          hholds.returns hstore hpop hnext hmove
        obtain rfl := hx.unique hmove'
        exact ⟨result, cell, hstack, hthere, hcalls, hcell, hresult⟩
  · intro value hends
    obtain ⟨before, own, hown, hlast⟩ := hends.code hsteps
    refine ⟨first ++ before, own, cell, hown, by simp [hlast], fun {init rest} hlines => ?_⟩
    have hlines' : lines = init ++ (first ++ before) ++ own ++ (returnLines ++
        (Operation.leave.line cell :: rest)) := by
      simp [hlines, hlast]
    have hends := hholds.endsCalls hlines'
    rwa [length_append, length_append] at hends

end ScoreLang
