import ScoreLang.Proofs.Code.State

/-!
# The Actions of the Code Generator

The actions of the generator that look things up, write lines and use up labels: one lemma for each
of them says when the action succeeds and what the state is then. They are tagged for `simp`, so
that a rule can be taken apart into its steps.
-/

namespace ScoreLang

/-- The line of a command. -/
def Operation.line (operation : Operation) (operand : String) : CodeLine :=
  .command operation.mnemonic operand

/-! ### Actions -/

namespace Generate

open Generator

variable {g g' : Generator}

@[simp] theorem ends_ofInteger {α : Type} {value : Except Text.IntegerFault α} {a : α} :
    Ends (ofInteger value) g a g' ↔ value = .ok a ∧ g = g' := by
  cases value with
  | error fault => simp [ofInteger]
  | ok value =>
    simp only [ofInteger, ends_pure, Except.ok.injEq]
    exact and_congr_left fun _ => eq_comm

@[simp] theorem ends_part {α : Type} {value : Option α} {a : α} :
    Ends (part value) g a g' ↔ value = some a ∧ g = g' := by
  cases value with
  | none => simp [part]
  | some value =>
    simp only [part, ends_pure, Option.some.injEq]
    exact and_congr_left fun _ => eq_comm

@[simp] theorem ends_entry {name : String} {found : Entry} :
    Ends (entry name) g found g' ↔ g.scopes.find? name = some found ∧ g = g' := by
  simp only [entry, ends_bind, ends_get]
  constructor
  · rintro ⟨_, _, ⟨rfl, rfl⟩, h⟩
    split at h
    · simp only [ends_pure] at h
      obtain ⟨rfl, rfl⟩ := h
      exact ⟨‹_›, rfl⟩
    · simp at h
  · rintro ⟨h, rfl⟩
    exact ⟨g, g, ⟨rfl, rfl⟩, by simp [h]⟩

@[simp] theorem ends_emit {lines : List CodeLine} {u : Unit} :
    Ends (emit lines) g u g' ↔ g' = g.write lines := by
  rw [emit, ends_modify]

@[simp] theorem ends_newLabel {name : String} :
    Ends newLabel g name g' ↔
      name = labelName (g.labels + 1) ∧ g' = g.relabel (g.labels + 1) := by
  simp only [newLabel, ends_bind, ends_modify, ends_get, ends_pure]
  constructor
  · rintro ⟨_, _, rfl, _, _, ⟨rfl, rfl⟩, rfl, rfl⟩
    exact ⟨rfl, rfl⟩
  · rintro ⟨rfl, rfl⟩
    exact ⟨(), _, rfl, _, _, ⟨rfl, rfl⟩, rfl, rfl⟩

end Generate

end ScoreLang
