import Mathlib.Tactic.Common

/-!
# What an Action Does

The parser, the code generator and the machine are actions on a state that may fail. A proof about
one of them takes a successful run apart: an action that is made of smaller ones has succeeded if
each of these has, one after the other. The lemmas of this module do that for the two kinds of
actions, those that keep their state when they fail and those that do not:

* `Ends action state result state'`: an action of the first kind succeeds;
* `Reads action state result state'`: an action of the second kind succeeds.

Both are tagged for `simp`, so that `simp only` with the names of the definitions takes a `do` block
apart into its steps.

How an action of the second kind fails is followed step by step, too: `Meets` says that its fault,
if there is one, is among given ones, along with what holds if it succeeds.
-/

namespace ScoreLang

universe u

/-! ### Results -/

theorem bind_eq_some {α β : Type} {value : Option α} {f : α → Option β} {b : β} :
    (value >>= f) = some b ↔ ∃ a, value = some a ∧ f a = some b :=
  Option.bind_eq_some_iff

theorem bind_eq_ok {ε α β : Type} {value : Except ε α} {f : α → Except ε β} {b : β} :
    (value >>= f) = .ok b ↔ ∃ a, value = .ok a ∧ f a = .ok b := by
  cases value <;> simp [bind, Except.bind]

theorem mapError_eq_ok {ε δ α : Type} {value : Except ε α} {f : ε → δ} {a : α} :
    value.mapError f = .ok a ↔ value = .ok a := by
  cases value <;> simp [Except.mapError]

/-! ### Actions that keep their state -/

section Ends

variable {ε σ : Type u} {α β : Type u}

/-- What becomes of an action in a state. -/
def outcome (action : ExceptT ε (StateM σ) α) (state : σ) : Except ε α × σ :=
  action.run.run state

/-- The action takes the state to another one without failing, and has the given result. -/
def Ends (action : ExceptT ε (StateM σ) α) (state : σ) (result : α) (state' : σ) : Prop :=
  outcome action state = (.ok result, state')

variable {m : ExceptT ε (StateM σ) α} {a : α} {f : α → ExceptT ε (StateM σ) β} {e : ε} {s s' : σ}

/-- An action has at most one outcome. -/
theorem Ends.unique {action : ExceptT ε (StateM σ) α} {s₁ s₂ : σ} {a₁ a₂ : α}
    (h₁ : Ends action s a₁ s₁) (h₂ : Ends action s a₂ s₂) : a₁ = a₂ ∧ s₁ = s₂ := by
  have h := h₁.symm.trans h₂
  simpa using h

@[simp] theorem ends_pure {b : α} :
    Ends (pure a : ExceptT ε (StateM σ) α) s b s' ↔ b = a ∧ s = s' := by
  constructor
  · intro h
    have h' : ((.ok a, s) : Except ε α × σ) = (.ok b, s') := h
    simp only [Prod.mk.injEq, Except.ok.injEq] at h'
    exact ⟨h'.1.symm, h'.2⟩
  · rintro ⟨rfl, rfl⟩
    rfl

/-- An action goes on after another one that succeeds. -/
theorem outcome_bind_of_ok {t : σ} (h : outcome m s = (.ok a, t)) :
    outcome (m >>= f) s = outcome (f a) t := by
  change (StateT.bind m (ExceptT.bindCont f)).run s = _
  have hrun : m s = (.ok a, t) := h
  simp only [StateT.run, StateT.bind, hrun]
  rfl

/-- An action does not go on after another one that fails. -/
theorem outcome_bind_of_error {t : σ} (h : outcome m s = (.error e, t)) :
    outcome (m >>= f) s = (.error e, t) := by
  change (StateT.bind m (ExceptT.bindCont f)).run s = _
  have hrun : m s = (.error e, t) := h
  simp only [StateT.run, StateT.bind, hrun]
  rfl

@[simp] theorem ends_bind {b : β} :
    Ends (m >>= f) s b s' ↔ ∃ a t, Ends m s a t ∧ Ends (f a) t b s' := by
  rcases hm : outcome m s with ⟨_ | a, t⟩
  · simp [Ends, hm, outcome_bind_of_error hm]
  · simp only [Ends, hm, outcome_bind_of_ok hm, Prod.mk.injEq, Except.ok.injEq]
    constructor
    · intro h
      exact ⟨a, t, ⟨rfl, rfl⟩, h⟩
    · rintro ⟨_, _, ⟨rfl, rfl⟩, h⟩
      exact h

@[simp] theorem ends_map {f : α → β} {b : β} :
    Ends (f <$> m) s b s' ↔ ∃ a, Ends m s a s' ∧ b = f a := by
  rw [map_eq_pure_bind, ends_bind]
  simp only [ends_pure]
  constructor
  · rintro ⟨a, t, hm, rfl, rfl⟩
    exact ⟨a, hm, rfl⟩
  · rintro ⟨a, hm, rfl⟩
    exact ⟨a, s', hm, rfl, rfl⟩

@[simp] theorem ends_throw :
    Ends (throw e : ExceptT ε (StateM σ) α) s a s' ↔ False := by
  constructor
  · intro h
    have h' : ((.error e, s) : Except ε α × σ) = (.ok a, s') := h
    simp at h'
  · exact False.elim

@[simp] theorem ends_get {a : σ} :
    Ends (get : ExceptT ε (StateM σ) σ) s a s' ↔ s = a ∧ s = s' := by
  constructor
  · intro h
    have h' : ((.ok s, s) : Except ε σ × σ) = (.ok a, s') := h
    simpa only [Prod.mk.injEq, Except.ok.injEq] using h'
  · rintro ⟨rfl, rfl⟩
    rfl

end Ends

@[simp] theorem ends_modify {ε σ : Type} {f : σ → σ} {a : Unit} {s s' : σ} :
    Ends (modify f : ExceptT ε (StateM σ) Unit) s a s' ↔ s' = f s := by
  constructor
  · intro h
    have h' : ((.ok (), f s) : Except ε Unit × σ) = (.ok a, s') := h
    simp only [Prod.mk.injEq] at h'
    exact h'.2.symm
  · rintro rfl
    rfl

/-- Most actions have no result to speak of. -/
@[simp] theorem exists_unit {p : Unit → Prop} : (∃ u, p u) ↔ p () :=
  ⟨fun ⟨_, h⟩ => h, fun h => ⟨(), h⟩⟩

/-! ### Actions that lose their state -/

section Reads

variable {ε σ : Type u} {α β : Type u}

/-- The action takes the state to another one without failing, and has the given result. -/
def Reads (action : StateT σ (Except ε) α) (state : σ) (result : α) (state' : σ) : Prop :=
  action.run state = .ok (result, state')

@[simp] theorem reads_pure {a b : α} {s s' : σ} :
    Reads (pure a : StateT σ (Except ε) α) s b s' ↔ b = a ∧ s = s' := by
  constructor
  · intro h
    have h' : (.ok (a, s) : Except ε (α × σ)) = .ok (b, s') := h
    simp only [Except.ok.injEq, Prod.mk.injEq] at h'
    exact ⟨h'.1.symm, h'.2⟩
  · rintro ⟨rfl, rfl⟩
    rfl

@[simp] theorem reads_bind {m : StateT σ (Except ε) α} {f : α → StateT σ (Except ε) β} {b : β}
    {s s' : σ} : Reads (m >>= f) s b s' ↔ ∃ a t, Reads m s a t ∧ Reads (f a) t b s' := by
  have hrun : (m >>= f).run s = (m.run s).bind fun r => (f r.1).run r.2 := rfl
  rw [Reads, hrun]
  rcases hm : m.run s with _ | ⟨a, t⟩
  · simp [Reads, hm, Except.bind]
  · simp only [Reads, hm, Except.bind, Except.ok.injEq, Prod.mk.injEq]
    constructor
    · intro h
      exact ⟨a, t, ⟨rfl, rfl⟩, h⟩
    · rintro ⟨_, _, ⟨rfl, rfl⟩, h⟩
      exact h

@[simp] theorem reads_throw {e : ε} {a : α} {s s' : σ} :
    Reads (throw e : StateT σ (Except ε) α) s a s' ↔ False := by
  constructor
  · intro h
    have h' : (.error e : Except ε (α × σ)) = .ok (a, s') := h
    simp at h'
  · exact False.elim

@[simp] theorem reads_get {a s s' : σ} :
    Reads (get : StateT σ (Except ε) σ) s a s' ↔ s = a ∧ s = s' := by
  constructor
  · intro h
    have h' : (.ok (s, s) : Except ε (σ × σ)) = .ok (a, s') := h
    simpa only [Except.ok.injEq, Prod.mk.injEq] using h'
  · rintro ⟨rfl, rfl⟩
    rfl

end Reads

@[simp] theorem reads_set {ε σ : Type} {s s' t : σ} {a : Unit} :
    Reads (set t : StateT σ (Except ε) Unit) s a s' ↔ s' = t := by
  constructor
  · intro h
    have h' : (.ok ((), t) : Except ε (Unit × σ)) = .ok (a, s') := h
    simp only [Except.ok.injEq, Prod.mk.injEq] at h'
    exact h'.2.symm
  · rintro rfl
    rfl

@[simp] theorem reads_modify {ε σ : Type} {f : σ → σ} {a : Unit} {s s' : σ} :
    Reads (modify f : StateT σ (Except ε) Unit) s a s' ↔ s' = f s := by
  constructor
  · intro h
    have h' : (.ok ((), f s) : Except ε (Unit × σ)) = .ok (a, s') := h
    simp only [Except.ok.injEq, Prod.mk.injEq] at h'
    exact h'.2.symm
  · rintro rfl
    rfl

section Meets

variable {ε σ α β : Type}

/-- The action ends with a result and a state for which `post` holds, or with a fault for which
`fault` holds. -/
def Meets (action : StateT σ (Except ε) α) (state : σ) (fault : ε → Prop) (post : α → σ → Prop) :
    Prop :=
  match action.run state with
  | .ok (result, state') => post result state'
  | .error error => fault error

variable {s : σ} {fault : ε → Prop}

variable {action : StateT σ (Except ε) α} {post : α → σ → Prop}

theorem Meets.imp {post' : α → σ → Prop} (h : Meets action s fault post)
    (himp : ∀ a t, post a t → post' a t) :
    Meets action s fault post' := by
  unfold Meets at h ⊢
  split at h
  · exact himp _ _ h
  · exact h

/-- What holds if the action succeeds. -/
theorem Meets.of_reads {a : α} {s' : σ} (h : Meets action s fault post)
    (hreads : Reads action s a s') : post a s' := by
  have hrun : action.run s = .ok (a, s') := hreads
  rw [Meets, hrun] at h
  exact h

/-- What holds of an action that has succeeded may be used. -/
theorem Meets.andReads (h : Meets action s fault post) :
    Meets action s fault fun a t => post a t ∧ Reads action s a t := by
  unfold Meets at h ⊢
  split at h
  · exact ⟨h, ‹_›⟩
  · exact h

@[simp] theorem meets_pure {a : α} :
    Meets (pure a : StateT σ (Except ε) α) s fault post ↔ post a s :=
  Iff.rfl

@[simp] theorem meets_bind {f : α → StateT σ (Except ε) β} {post : β → σ → Prop} :
    Meets (action >>= f) s fault post
      ↔ Meets action s fault fun a t => Meets (f a) t fault post := by
  have hrun : (action >>= f).run s = (action.run s).bind fun r => (f r.1).run r.2 := rfl
  rw [Meets, Meets, hrun]
  cases action.run s <;> rfl

@[simp] theorem meets_throw {error : ε} :
    Meets (throw error : StateT σ (Except ε) α) s fault post ↔ fault error :=
  Iff.rfl

@[simp] theorem meets_get {post : σ → σ → Prop} :
    Meets (get : StateT σ (Except ε) σ) s fault post ↔ post s s :=
  Iff.rfl

@[simp] theorem meets_set {t : σ} {post : PUnit → σ → Prop} :
    Meets (set t : StateT σ (Except ε) PUnit) s fault post ↔ post () t :=
  Iff.rfl

@[simp] theorem meets_modify {f : σ → σ} {post : PUnit → σ → Prop} :
    Meets (modify f : StateT σ (Except ε) PUnit) s fault post ↔ post () (f s) :=
  Iff.rfl

end Meets

end ScoreLang
