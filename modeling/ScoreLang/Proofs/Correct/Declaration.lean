import ScoreLang.Proofs.Correct.Statement

/-!
# The Code of Declarations Sets Initial Values

The code of a declaration computes the initial values of a variable and stores them in its cells. An
array is filled from its first element on: a surplus value is computed and dropped, and the elements
without a value become zero.
-/

namespace ScoreLang

open List Machine Text

/-! ### Clearing -/

namespace Store

theorem clear_of_le {length first : Nat} (h : length ≤ first) (store : Store) (owner : Variable) :
    store.clear owner first length = store := by
  funext cell
  exact if_neg (by omega)

/-- An array is cleared one element after the other. -/
theorem clear_succ {length first : Nat} (h : first < length) (store : Store) (owner : Variable) :
    (store.set ⟨owner, first⟩ 0).clear owner (first + 1) length
      = store.clear owner first length := by
  funext cell
  obtain ⟨own, index⟩ := cell
  by_cases hfirst : own = owner ∧ index = first
  · obtain ⟨rfl, rfl⟩ := hfirst
    simp [clear, set, h]
  · have hset : (⟨own, index⟩ : Cell) ≠ ⟨owner, first⟩ := by simpa using hfirst
    simp only [clear, set, if_neg hset]
    refine if_congr (and_congr_right fun hown => and_congr_left fun _ => ?_) rfl rfl
    have hne : index ≠ first := fun hindex => hfirst ⟨hown, hindex⟩
    omega

end Store

namespace Setting

variable {S : Setting} {place base : Nat} {stack : List Int} {c : Config} {owner : Variable}
  {length : Nat} {address : String}

/-- A value is stored in an element of an array. -/
theorem steps_store (haddress : Spells address base)
    (hcells : ∀ k < length, S.layout[base + k]? = some ⟨owner, k⟩) {k : Nat} (hk : k < length)
    {cell : String} (hcell : cellAt? false address k = some cell)
    (hstore : S.lines[place]? = some (Operation.store.line cell))
    (hpop : S.lines[place + 1]? = some (Operation.pop.line "")) (n : Int) :
    Steps S.code 2 (S.state place (n :: stack) c)
      (S.state (place + 1 + 1) stack { c with store := c.store.set ⟨owner, k⟩ n }) :=
  .head (moves_store hstore (haddress.cellAt? hcell) (hcells k hk)) (moves_pop hpop).steps

variable {lines : List CodeLine} {locals : List String} {index : Nat} {store : Store}

/-- The elements of an array from an index on are set to zero. -/
theorem steps_zeros (haddress : Spells address base)
    (hcells : ∀ k < length, S.layout[base + k]? = some ⟨owner, k⟩)
    (hlines : zeros? false address index (length - index) = some lines) (hat : S.Has place lines) :
    ∃ n, Steps S.code n (S.state place stack c) (S.state (place + lines.length) stack
      { c with store := c.store.clear owner index length }) := by
  generalize hcount : length - index = count at hlines
  induction count generalizing index lines place c with
  | zero =>
    obtain rfl := Option.some.inj hlines
    rw [Store.clear_of_le (by omega)]
    exact ⟨0, .refl _⟩
  | succ count ih =>
    simp only [zeros?, bind_eq_some, Option.some.injEq] at hlines
    obtain ⟨cell, hcell, rest, hrest, rfl⟩ := hlines
    have hindex : index < length := by omega
    have hpush : Moves S.code (S.state place stack c) (S.state (place + 1) (0 :: stack) c) :=
      moves_push hat.head (by decide) (by decide)
    have hstored := hpush.steps.trans
      (steps_store haddress hcells hindex hcell hat.tail.head hat.tail.tail.head 0)
    have hless : length - (index + 1) = count := by omega
    obtain ⟨n, hn⟩ := ih (c := { c with store := c.store.set ⟨owner, index⟩ 0 })
      hat.tail.tail.tail hless hrest
    rw [Store.clear_succ hindex] at hn
    refine ⟨3 + n, ?_⟩
    have hplace : place + (rest.length + 1 + 1 + 1) = place + 1 + 1 + 1 + rest.length := by omega
    simp only [length_cons]
    rw [hplace]
    exact hstored.trans hn

/-- A value becomes an element of an array, or is dropped if there are enough. -/
theorem steps_element (haddress : Spells address base)
    (hcells : ∀ k < length, S.layout[base + k]? = some ⟨owner, k⟩) {stored : List CodeLine}
    (hstored : element? false address length index = some stored) (hat : S.Has place stored)
    (v : Int) :
    ∃ n, Steps S.code n (S.state place (v :: stack) c) (S.state (place + stored.length) stack
      { c with store := if index < length then c.store.set ⟨owner, index⟩ v else c.store }) := by
  by_cases hindex : index < length
  · rw [element?, if_pos (by omega), Option.map_eq_some_iff] at hstored
    obtain ⟨cell, hcell, rfl⟩ := hstored
    rw [if_pos hindex]
    exact ⟨2, steps_store haddress hcells hindex hcell hat.head hat.tail.head v⟩
  · rw [element?, if_neg (by omega), Option.some.injEq] at hstored
    subst hstored
    rw [if_neg hindex]
    exact ⟨1, (moves_pop hat.head).steps⟩

/-- **Arrays**: the code for the values of an array fills it. -/
theorem steps_fill {names : List String} {done : Nat} {scopes : Scopes}
    (hplaced : Placed S.layout locals names done scopes) (haddress : Spells address base)
    (hcells : ∀ k < length, S.layout[base + k]? = some ⟨owner, k⟩) {values : List (Expr .logical)}
    (hcore : values.all Expr.isCore = true) {first rest : List CodeLine}
    (hfirst : elements? scopes address length index values = some first) {size : Nat}
    (hsize : size = index + values.length)
    (hrest : zeros? false address size (length - size) = some rest)
    (hat : S.Has place (first ++ rest))
    (hfill : Declarator.fill locals owner length index values c.store = some store) :
    ∃ n, Steps S.code n (S.state place stack c)
      (S.state (place + (first ++ rest).length) stack { c with store := store }) := by
  induction values generalizing index first place c with
  | nil =>
    obtain rfl := Option.some.inj hfirst
    obtain rfl := Option.some.inj hfill
    obtain rfl : size = index := hsize
    exact steps_zeros haddress hcells hrest hat
  | cons value values ih =>
    rw [all_cons, Bool.and_eq_true] at hcore
    simp only [elements?, bind_eq_some, Option.some.injEq] at hfirst
    obtain ⟨lines, hlines, stored, hstored, others, hothers, rfl⟩ := hfirst
    rw [hplaced.inFrame] at hstored
    simp only [Declarator.fill, bind_eq_some, Prod.exists] at hfill
    obtain ⟨v, store₁, hv, hfill⟩ := hfill
    simp only [append_assoc] at hat
    obtain ⟨n, hn⟩ := steps_expr hplaced hcore.1 hlines hat.left hv
    obtain ⟨m, hm⟩ := steps_element (c := { c with store := store₁ }) haddress hcells hstored
      hat.right.left v
    obtain ⟨k, hk⟩ := ih (c := ⟨if index < length then store₁.set ⟨owner, index⟩ v else store₁,
      c.input, c.shown⟩) hcore.2 hothers (by rw [hsize, length_cons]; omega) hat.right.right
      hfill
    refine ⟨n + m + k, ?_⟩
    have hsteps := (hn.trans hm).trans hk
    have hplace : place + lines.length + stored.length + (others ++ rest).length
        = place + (lines ++ stored ++ others ++ rest).length := by
      simp only [length_append]
      omega
    rwa [hplace] at hsteps

/-- The code of a declaration. -/
theorem steps_declarator {isLocal : Bool} {names : List String} {done : Nat} {scopes : Scopes}
    {d : Declarator} (hcore : d.isCore = true) (hplaced : Placed S.layout locals names done scopes)
    (hcells : ∀ k < d.length, S.layout[base + k]? = some ⟨⟨isLocal, d.name⟩, k⟩)
    (hlines : d.Lines scopes base lines) (hat : S.Has place lines)
    (hrun : d.run isLocal locals c.store = some store) :
    ∃ n, Steps S.code n (S.state place stack c)
      (S.state (place + lines.length) stack { c with store := store }) := by
  cases hlines with
  | plain =>
    obtain rfl := Option.some.inj hrun
    exact ⟨0, .refl _⟩
  | array =>
    obtain rfl := Option.some.inj hrun
    exact ⟨0, .refl _⟩
  | initial hvalue hcell =>
    simp only [Declarator.run, bind_eq_some, Option.some.injEq, Prod.exists] at hrun
    obtain ⟨v, store₁, hv, rfl⟩ := hrun
    obtain ⟨n, hn⟩ := steps_expr hplaced hcore hvalue hat.left hv
    refine ⟨n + 2, ?_⟩
    rw [length_append, ← Nat.add_assoc]
    exact hn.trans (.head (moves_store hat.right.head hcell (hcells 0 Nat.one_pos))
      (moves_pop hat.right.tail.head).steps)
  | filled haddress hfirst hrest =>
    rw [Declarator.isCore, Bool.and_eq_true] at hcore
    exact steps_fill hplaced haddress hcells hcore.2 hfirst (Nat.zero_add _).symm hrest hat hrun

/-- The code of some declarations. -/
theorem steps_laid {isLocal : Bool} {locals' : List String} {ds : List Declarator}
    (h : Laid S.layout isLocal locals ds lines locals') (hat : S.Has place lines)
    {final : List String} (hrun : Declarator.runAll isLocal locals ds c.store = some (final, store))
    :
    ∃ n, Steps S.code n (S.state place stack c)
      (S.state (place + lines.length) stack { c with store := store }) := by
  induction h generalizing place c with
  | nil =>
    obtain ⟨-, rfl⟩ := Prod.mk.inj (Option.some.inj hrun)
    exact ⟨0, .refl _⟩
  | cons hcore hplaced hcells hlines _ ih =>
    simp only [Declarator.runAll, bind_eq_some] at hrun
    obtain ⟨store₁, hfirst, hrest⟩ := hrun
    obtain ⟨n, hn⟩ := steps_declarator hcore hplaced hcells hlines hat.left hfirst
    obtain ⟨m, hm⟩ := ih (c := { c with store := store₁ }) hat.right hrest
    refine ⟨n + m, ?_⟩
    rw [length_append, ← Nat.add_assoc]
    exact hn.trans hm

end Setting

/-- The names that have been declared after some declarations. -/
theorem Laid.locals_eq {layout : List Cell} {isLocal : Bool} {locals locals' : List String}
    {ds : List Declarator} {lines : List CodeLine} (h : Laid layout isLocal locals ds lines locals')
    {store : Store} {final : List String} {store' : Store}
    (hrun : Declarator.runAll isLocal locals ds store = some (final, store')) :
    final = locals' := by
  induction h generalizing store with
  | nil => exact (Prod.mk.inj (Option.some.inj hrun)).1.symm
  | cons _ _ _ _ _ ih =>
    simp only [Declarator.runAll, bind_eq_some] at hrun
    obtain ⟨_, -, hrest⟩ := hrun
    exact ih hrest

/-- **Declarations**: the code of some declarations of the core does what they mean. -/
theorem Setting.realises_laid {S : Setting} {isLocal : Bool} {locals locals' : List String}
    {ds : List Declarator} (hcore : ∀ d ∈ ds, d.isCore = true) {lines : List CodeLine} {place : Nat}
    (h : Laid S.layout isLocal locals ds lines locals') (hat : S.Has place lines) :
    S.Realises place (place + lines.length) (fun c c' => ∃ store,
      Declarator.runAll isLocal locals ds c.store = some (locals', store) ∧
        c' = { c with store := store }) := by
  refine .of_total ?_ ?_ ?_
  · intro c
    obtain ⟨final, store, hrun⟩ := Declarator.exists_runAll hcore isLocal locals c.store
    obtain rfl := h.locals_eq hrun
    exact ⟨_, store, hrun, rfl⟩
  · rintro c c' stack ⟨store, hrun, rfl⟩
    obtain ⟨n, hn⟩ := steps_laid h hat hrun
    exact ⟨n, stack, hn⟩
  · rintro c c' ⟨store, -, rfl⟩
    rfl

end ScoreLang
