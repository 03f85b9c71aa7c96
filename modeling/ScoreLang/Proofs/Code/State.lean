import ScoreLang.Code.Program
import ScoreLang.Proofs.Outcome
import ScoreLang.Proofs.Syntax.Basic

/-!
# States of the Code Generator

The generator sees a tree as the list of the labels from its current node on (`Generator.upcoming`).
The rules of the generator change its state in few ways: they move on by some nodes (`skip`), write
some lines (`emitLines`), use up labels (`relabel`), set where jumps go (`aim`) and declare names
(`within`). The lines can be written after the other changes.

`Generator.Goes` is what all these changes have in common inside the body of a function: the nodes
that have been passed and those ahead make up the same tree, and lines are only added to those that
are held back.
-/

namespace ScoreLang

namespace Generator

/-! ### Moving on -/

/-- The labels from the current node on. -/
def upcoming (g : Generator) : List Label :=
  match g.current with
  | none => []
  | some node => node.label :: g.ahead.map Node.label

/-- Moves on by some nodes. -/
def skip (g : Generator) (count : Nat) : Generator := count.repeat next g

theorem skip_succ (g : Generator) (count : Nat) : g.skip (count + 1) = (g.skip count).next := rfl

@[simp] theorem skip_skip (g : Generator) (m n : Nat) : (g.skip m).skip n = g.skip (m + n) := by
  induction n with
  | zero => rfl
  | succ n ih => rw [skip_succ, ih, ← Nat.add_assoc, skip_succ]

/-- Going on leaves the label at hand behind. -/
theorem upcoming_next {g : Generator} {label : Label} {rest : List Label}
    (h : g.upcoming = label :: rest) : g.next.upcoming = rest := by
  unfold upcoming at h
  cases hcurrent : g.current with
  | none => simp [hcurrent] at h
  | some node =>
    simp only [hcurrent, List.cons.injEq] at h
    obtain ⟨-, rfl⟩ := h
    cases hahead : g.ahead <;> simp [next, upcoming, hcurrent, hahead]

/-- If a label is at hand, then so is its node. -/
theorem exists_current {g : Generator} {label : Label} {rest : List Label}
    (h : g.upcoming = label :: rest) : ∃ node, g.current = some node := by
  cases hcurrent : g.current with
  | none => simp [upcoming, hcurrent] at h
  | some node => exact ⟨node, rfl⟩

/-- Within the tree, moving on drops labels. -/
theorem upcoming_skip (labels : List Label) {g : Generator} {rest : List Label}
    (h : g.upcoming = labels ++ rest) : (g.skip labels.length).upcoming = rest := by
  induction labels generalizing g with
  | nil => exact h
  | cons label labels ih =>
    have hnext : (g.skip 1).upcoming = labels ++ rest := upcoming_next h
    rw [List.length_cons, Nat.add_comm, ← skip_skip]
    exact ih hnext

/-! ### Writing -/

/-- Writes some lines, one after the other. -/
def emitLines (g : Generator) (lines : List CodeLine) : Generator :=
  lines.foldl (fun g line => g.write [line]) g

@[simp] theorem emitLines_nil (g : Generator) : g.emitLines [] = g := rfl

@[simp] theorem write_singleton (g : Generator) (line : CodeLine) :
    g.write [line] = g.emitLines [line] := rfl

/-- Lines are written one after the other. -/
@[simp] theorem emitLines_emitLines (g : Generator) (a b : List CodeLine) :
    (g.emitLines a).emitLines b = g.emitLines (a ++ b) :=
  (List.foldl_append).symm

section

variable (g : Generator) (lines : List CodeLine)

/-- Writing changes nothing but the lines. -/
theorem emitLines_eq : ∃ last held written,
    g.emitLines lines = { g with last := last, held := held, written := written } := by
  induction lines generalizing g with
  | nil => exact ⟨_, _, _, rfl⟩
  | cons line lines ih =>
    obtain ⟨last, held, written, h⟩ := ih (g.write [line])
    refine ⟨last, held, written, ?_⟩
    change (g.write [line]).emitLines lines = _
    rw [h, write]
    cases g.holding <;> rfl

@[simp] theorem emitLines_upcoming : (g.emitLines lines).upcoming = g.upcoming := by
  obtain ⟨_, _, _, h⟩ := emitLines_eq g lines
  rw [h]
  rfl

@[simp] theorem emitLines_scopes : (g.emitLines lines).scopes = g.scopes := by
  obtain ⟨_, _, _, h⟩ := emitLines_eq g lines
  rw [h]

@[simp] theorem emitLines_labels : (g.emitLines lines).labels = g.labels := by
  obtain ⟨_, _, _, h⟩ := emitLines_eq g lines
  rw [h]

@[simp] theorem emitLines_breakLabel : (g.emitLines lines).breakLabel = g.breakLabel := by
  obtain ⟨_, _, _, h⟩ := emitLines_eq g lines
  rw [h]

@[simp] theorem emitLines_continueLabel : (g.emitLines lines).continueLabel = g.continueLabel := by
  obtain ⟨_, _, _, h⟩ := emitLines_eq g lines
  rw [h]

@[simp] theorem emitLines_resultCell : (g.emitLines lines).resultCell = g.resultCell := by
  obtain ⟨_, _, _, h⟩ := emitLines_eq g lines
  rw [h]

@[simp] theorem emitLines_holding : (g.emitLines lines).holding = g.holding := by
  obtain ⟨_, _, _, h⟩ := emitLines_eq g lines
  rw [h]

/-- The last line is the one that is remembered. -/
theorem emitLines_last (hlines : lines ≠ []) :
    (g.emitLines lines).last = lines.getLast?.toList := by
  induction lines generalizing g with
  | nil => exact absurd rfl hlines
  | cons line lines ih =>
    change ((g.write [line]).emitLines lines).last = _
    cases lines with
    | nil =>
      change (g.write [line]).last = [line]
      unfold write
      split <;> rfl
    | cons next lines => rw [ih _ (List.cons_ne_nil _ _), List.getLast?_cons_cons]

end

/-! ### Labels and jumps -/

/-- The number of labels that have been used is set. -/
def relabel (g : Generator) (count : Nat) : Generator := { g with labels := count }

/-- The labels at which `break` and `continue` go on are set. -/
def aim (g : Generator) (breakLabel continueLabel : Option String) : Generator :=
  { g with breakLabel := breakLabel, continueLabel := continueLabel }

/-- The scopes are set. -/
def within (g : Generator) (scopes : Scopes) : Generator := { g with scopes := scopes }

section

variable (g : Generator) (count : Nat) (b c : Option String) (scopes : Scopes)

@[simp] theorem within_resultCell : (g.within scopes).resultCell = g.resultCell := rfl

@[simp] theorem relabel_emitLines (lines : List CodeLine) :
    (g.emitLines lines).relabel count = (g.relabel count).emitLines lines := by
  induction lines generalizing g with
  | nil => rfl
  | cons line lines ih =>
    have hwrite : (g.write [line]).relabel count = (g.relabel count).write [line] := by
      unfold write relabel
      cases g.holding <;> rfl
    change ((g.write [line]).emitLines lines).relabel count = _
    rw [ih, hwrite]
    rfl

@[simp] theorem aim_emitLines (lines : List CodeLine) :
    (g.emitLines lines).aim b c = (g.aim b c).emitLines lines := by
  induction lines generalizing g with
  | nil => rfl
  | cons line lines ih =>
    have hwrite : (g.write [line]).aim b c = (g.aim b c).write [line] := by
      unfold write aim
      cases g.holding <;> rfl
    change ((g.write [line]).emitLines lines).aim b c = _
    rw [ih, hwrite]
    rfl

@[simp] theorem within_emitLines (lines : List CodeLine) :
    (g.emitLines lines).within scopes = (g.within scopes).emitLines lines := by
  induction lines generalizing g with
  | nil => rfl
  | cons line lines ih =>
    have hwrite : (g.write [line]).within scopes = (g.within scopes).write [line] := by
      unfold write within
      cases g.holding <;> rfl
    change ((g.write [line]).emitLines lines).within scopes = _
    rw [ih, hwrite]
    rfl

end

end Generator

/-! ### Marks -/

/-- What is known about labels at a place in the code. -/
structure Marks where
  /-- The number of the label used last. -/
  labels : Nat
  /-- The label at which `break` goes on. -/
  breakLabel : Option String
  /-- The label at which `continue` goes on. -/
  continueLabel : Option String
  deriving DecidableEq, Repr

/-- The name of a label that has not been used yet; the next one has the number one. -/
def Marks.label (marks : Marks) (number : Nat) : String := labelName (marks.labels + number)

/-- The marks with some more labels used up. -/
def Marks.use (marks : Marks) (count : Nat) : Marks := { marks with labels := marks.labels + count }

/-- The marks in a loop that uses up some labels. -/
def Marks.loop (marks : Marks) (count : Nat) (breakLabel continueLabel : String) : Marks :=
  ⟨marks.labels + count, some breakLabel, some continueLabel⟩

namespace Generator

/-- The marks of the generator. -/
def marks (g : Generator) : Marks := ⟨g.labels, g.breakLabel, g.continueLabel⟩

/-- The marks are set. -/
def mark (g : Generator) (marks : Marks) : Generator :=
  (g.relabel marks.labels).aim marks.breakLabel marks.continueLabel

@[simp] theorem mark_emitLines (g : Generator) (m : Marks) (lines : List CodeLine) :
    (g.emitLines lines).mark m = (g.mark m).emitLines lines := by simp [mark]

/-! ### What the changes have in common -/

/-- The nodes of the tree: those that have been passed, the current one, and those ahead. -/
def trail (g : Generator) : List Node := g.passed.reverse ++ g.current.toList ++ g.ahead

/-- The second state comes from the first one by walking on and by writing lines that are held
back. -/
structure Goes (g g' : Generator) (lines : List CodeLine) : Prop where
  scopes : g'.scopes = g.scopes
  resultCell : g'.resultCell = g.resultCell
  holding : g'.holding = g.holding
  trail : g'.trail = g.trail
  length_le : g'.upcoming.length ≤ g.upcoming.length
  written : g.holding = true → g'.written = g.written
  held : g.holding = true → g'.held.toList = g.held.toList ++ lines

namespace Goes

variable {g g' : Generator}

theorem refl (g : Generator) : Goes g g [] :=
  ⟨rfl, rfl, rfl, rfl, Nat.le_refl _, fun _ => rfl, fun _ => by simp⟩

/-- One part of the walk after another. -/
theorem trans {g₁ g₂ g₃ : Generator} {first second : List CodeLine} (h₁ : Goes g₁ g₂ first)
    (h₂ : Goes g₂ g₃ second) : Goes g₁ g₃ (first ++ second) where
  scopes := h₂.scopes.trans h₁.scopes
  resultCell := h₂.resultCell.trans h₁.resultCell
  holding := h₂.holding.trans h₁.holding
  trail := h₂.trail.trans h₁.trail
  length_le := Nat.le_trans h₂.length_le h₁.length_le
  written h := (h₂.written (h₁.holding.trans h)).trans (h₁.written h)
  held h := by
    rw [h₂.held (h₁.holding.trans h), h₁.held h, List.append_assoc]

theorem write_singleton (g : Generator) (line : CodeLine) : Goes g (g.write [line]) [line] := by
  unfold Generator.write
  split
  · exact ⟨rfl, rfl, rfl, rfl, Nat.le_refl _, fun _ => rfl, fun _ => by simp⟩
  · rename_i hholding
    exact ⟨rfl, rfl, rfl, rfl, Nat.le_refl _, fun h => absurd h hholding, fun h =>
      absurd h hholding⟩

theorem emitLines (g : Generator) (lines : List CodeLine) : Goes g (g.emitLines lines) lines := by
  induction lines generalizing g with
  | nil => exact refl g
  | cons line lines ih => exact (write_singleton g line).trans (ih _)

end Goes

end Generator

end ScoreLang
