import ScoreLang.Proofs.Machine.Situation

/-!
# The Code of an Expression Computes Its Value

The code of an expression of the core leaves its value on the stack, on top of what was there, and
the machine then holds the store after the expression. The operands are computed from left to right,
and each of them leaves one value.
-/

namespace ScoreLang

open Machine Text

/-! ### Comparisons of integers -/

namespace Value

theorem order?_integer (a b : Int) : order? (.integer a) (.integer b) = some (compare a b) := by
  simp [order?, place?, Place.order]

theorem same_integer (a b : Int) : same (.integer a) (.integer b) = decide (a = b) := by
  rw [same, order?_integer, Bool.eq_iff_iff]
  simp

theorem isLess_integer (a b : Int) : isLess (.integer a) (.integer b) = decide (a < b) := by
  rw [isLess, order?_integer, Bool.eq_iff_iff]
  simp [Int.compare_eq_lt]

theorem isAtMost_integer (a b : Int) : isAtMost (.integer a) (.integer b) = decide (a ≤ b) := by
  rw [isAtMost, isLess_integer, same_integer, Bool.eq_iff_iff]
  simp [Int.le_iff_lt_or_eq]

end Value

namespace Setting

variable {S : Setting} {place : Nat} {stack : List Int} {c : Config} {a b v : Int}

/-! ### Operators -/

theorem moves_mulSign {sign : MulSign} (hline : S.lines[place]? = some (sign.operation.line ""))
    (h : sign.apply? a b = some v) :
    Moves S.code (S.state place (b :: a :: stack) c) (S.state (place + 1) (v :: stack) c) := by
  cases sign with
  | times =>
    obtain rfl := Option.some.inj h
    exact moves_arithmetic hline rfl rfl
  | slash => exact nomatch h

theorem moves_addSign {sign : AddSign} (hline : S.lines[place]? = some (sign.operation.line "")) :
    Moves S.code (S.state place (b :: a :: stack) c)
      (S.state (place + 1) (sign.apply a b :: stack) c) := by
  cases sign with
  | plus => exact moves_arithmetic hline rfl rfl
  | minus => exact moves_arithmetic hline rfl rfl

/-- A comparison finds the right operand on top of the left one. -/
theorem moves_logicSign {sign : LogicSign}
    (hline : S.lines[place]? = some (sign.operation.line "")) (h : sign.apply? a b = some v) :
    Moves S.code (S.state place (b :: a :: stack) c) (S.state (place + 1) (v :: stack) c) := by
  cases sign with
  | less =>
    obtain rfl := Option.some.inj h
    exact moves_comparison hline rfl (Value.isLess_integer a b)
  | greater =>
    obtain rfl := Option.some.inj h
    exact moves_comparison hline rfl (Value.isLess_integer b a)
  | lessEqual =>
    obtain rfl := Option.some.inj h
    exact moves_comparison hline rfl (Value.isAtMost_integer a b)
  | greaterEqual =>
    obtain rfl := Option.some.inj h
    exact moves_comparison hline rfl (Value.isAtMost_integer b a)
  | notEqual =>
    obtain rfl := Option.some.inj h
    refine moves_comparison hline rfl ?_
    simp [Value.same_integer, eq_comm]
  | equal =>
    obtain rfl := Option.some.inj h
    refine moves_comparison hline rfl ?_
    simp [Value.same_integer, eq_comm]
  | both => exact nomatch h
  | either => exact nomatch h

/-! ### Expressions -/

/-- Two operands, one after the other, and an operator. -/
theorem steps_operator {first second : List CodeLine} {line : CodeLine} {c₁ c₂ : Config} {n m : Nat}
    (hfirst : Steps S.code n (S.state place stack c)
      (S.state (place + first.length) (a :: stack) c₁))
    (hsecond : Steps S.code m (S.state (place + first.length) (a :: stack) c₁)
      (S.state (place + first.length + second.length) (b :: a :: stack) c₂))
    (hmove : Moves S.code (S.state (place + first.length + second.length) (b :: a :: stack) c₂)
      (S.state (place + first.length + second.length + 1) (v :: stack) c₂)) :
    ∃ k, Steps S.code k (S.state place stack c)
      (S.state (place + (first ++ second ++ [line]).length) (v :: stack) c₂) := by
  refine ⟨n + m + 1, ?_⟩
  have hsteps := (hfirst.trans hsecond).trans hmove.steps
  simpa [Nat.add_assoc] using hsteps

theorem Has.operator {first second : List CodeLine} {line : CodeLine}
    (h : S.Has place (first ++ second ++ [line])) :
    S.lines[place + first.length + second.length]? = some line := by
  have hline := h.right.head
  rwa [List.length_append, ← Nat.add_assoc] at hline

variable {locals names : List String} {done : Nat} {scopes : Scopes}

variable {level : Level} {lines : List CodeLine}

/-- **Expressions**: the code of an expression of the core pushes its value, and the machine holds
the store after it. -/
theorem steps_expr (hplaced : Placed S.layout locals names done scopes) {e : Expr level}
    (hcore : e.isCore = true) (hcode : e.code scopes = some lines) (hat : S.Has place lines)
    {store : Store} (heval : e.eval locals c.store = some (v, store)) :
    ∃ n, Steps S.code n (S.state place stack c)
      (S.state (place + lines.length) (v :: stack) { c with store := store }) := by
  induction e generalizing place stack c v store lines with
  | number value =>
    obtain rfl := Option.some.inj hcode
    obtain ⟨rfl, rfl⟩ : (value.value : Int) = v ∧ c.store = store := by
      simpa [Expr.eval] using heval
    have hne : value.digits ≠ "" := fun h => value.digits_ne (by rw [h]; rfl)
    have hread : readInteger value.digits = .ok (value.value : Int) :=
      readInteger_numeral.2 ⟨of_decide_eq_true hcore, rfl⟩
    exact ⟨1, (moves_push hat.head hne hread).steps⟩
  | «variable» target =>
    simp only [Expr.code, Option.map_eq_some_iff] at hcode
    obtain ⟨text, htext, rfl⟩ := hcode
    obtain ⟨k, hspells, hcell⟩ := hplaced.cell? htext
    obtain ⟨rfl, rfl⟩ : c.store (target.cell locals) = v ∧ c.store = store := by
      simpa [Expr.eval] using heval
    exact ⟨1, (moves_load hat.head hspells hcell).steps⟩
  | group inner ih | factor inner ih | product inner ih | sum inner ih | logical inner ih =>
    exact ih hcore hcode hat heval
  | times left sign right ihLeft ihRight =>
    simp only [Expr.isCore, Bool.and_eq_true] at hcore
    simp only [Expr.code, bind_eq_some, Option.some.injEq] at hcode
    obtain ⟨first, hfirst, second, hsecond, rfl⟩ := hcode
    simp only [Expr.eval, bind_eq_some, Option.some.injEq, Prod.mk.injEq, Prod.exists] at heval
    obtain ⟨a, store₁, ha, b, store₂, hb, w, hw, rfl, rfl⟩ := heval
    obtain ⟨n, hn⟩ := ihLeft hcore.1.1 hfirst hat.left.left ha
    obtain ⟨m, hm⟩ := ihRight (c := { c with store := store₁ }) hcore.2 hsecond hat.left.right hb
    exact steps_operator hn hm (moves_mulSign hat.operator hw)
  | plus left sign right ihLeft ihRight =>
    simp only [Expr.isCore, Bool.and_eq_true] at hcore
    simp only [Expr.code, bind_eq_some, Option.some.injEq] at hcode
    obtain ⟨first, hfirst, second, hsecond, rfl⟩ := hcode
    simp only [Expr.eval, bind_eq_some, Option.some.injEq, Prod.mk.injEq, Prod.exists] at heval
    obtain ⟨a, store₁, ha, b, store₂, hb, rfl, rfl⟩ := heval
    obtain ⟨n, hn⟩ := ihLeft hcore.1 hfirst hat.left.left ha
    obtain ⟨m, hm⟩ := ihRight (c := { c with store := store₁ }) hcore.2 hsecond hat.left.right hb
    exact steps_operator hn hm (moves_addSign hat.operator)
  | compare left sign right ihLeft ihRight =>
    simp only [Expr.isCore, Bool.and_eq_true] at hcore
    simp only [Expr.code, bind_eq_some, Option.some.injEq] at hcode
    obtain ⟨first, hfirst, second, hsecond, rfl⟩ := hcode
    simp only [Expr.eval, bind_eq_some, Option.some.injEq, Prod.mk.injEq, Prod.exists] at heval
    obtain ⟨a, store₁, ha, b, store₂, hb, w, hw, rfl, rfl⟩ := heval
    obtain ⟨n, hn⟩ := ihLeft hcore.1.1 hfirst hat.left.left ha
    obtain ⟨m, hm⟩ := ihRight (c := { c with store := store₁ }) hcore.2 hsecond hat.left.right hb
    exact steps_operator hn hm (moves_logicSign hat.operator hw)
  | assign target value ih =>
    simp only [Expr.code, bind_eq_some, Option.some.injEq] at hcode
    obtain ⟨text, htext, first, hfirst, rfl⟩ := hcode
    simp only [Expr.eval, bind_eq_some, Option.some.injEq, Prod.mk.injEq, Prod.exists] at heval
    obtain ⟨a, store₁, ha, rfl, rfl⟩ := heval
    obtain ⟨k, hspells, hcell⟩ := hplaced.cell? htext
    obtain ⟨n, hn⟩ := ih hcore hfirst hat.left ha
    refine ⟨n + 1, ?_⟩
    rw [List.length_append, ← Nat.add_assoc]
    exact hn.trans (moves_store hat.right.head hspells hcell).steps
  | plainCall | call | argument | further => exact Bool.noConfusion hcore

/-- The code of an expression pushes its value, and the machine holds the configuration to which it
leads. -/
theorem steps_yields (hplaced : Placed S.layout locals names done scopes) {e : Expr level}
    (hcore : e.isCore = true) (hcode : e.code scopes = some lines) (hat : S.Has place lines)
    {c' : Config} (h : e.Yields locals c v c') :
    ∃ n, Steps S.code n (S.state place stack c)
      (S.state (place + lines.length) (v :: stack) c') := by
  obtain ⟨store, heval, rfl⟩ := h
  exact steps_expr hplaced hcore hcode hat heval

/-- **Tests**: the code of a test and the jump after it goes on at the label if the value is zero,
and after the jump otherwise. It takes at least one step. -/
theorem steps_test (hplaced : Placed S.layout locals names done scopes) {e : Expr level}
    (hcore : e.isCore = true) {number target : Nat} (hcode : e.code scopes = some lines)
    (hat : S.Has place lines) (hjump : S.lines[place + lines.length]?
      = some (Operation.branchFalse.line (labelName number)))
    (hlabel : S.lines[target]? = some (.label (labelName number))) {c' : Config}
    (h : e.Yields locals c v c') :
    ∃ n, Steps S.code (n + 1) (S.state place stack c)
      (S.state (if v = 0 then target else place + lines.length + 1) stack c') := by
  obtain ⟨n, hn⟩ := steps_yields hplaced hcore hcode hat h
  exact ⟨n, hn.trans (moves_branchFalse (labelName_ne_empty number) hjump hlabel).steps⟩

end Setting

end ScoreLang
