import ScoreLang.Proofs.Correct.Expression
import ScoreLang.Proofs.Stack.Effect

/-!
# What Logical Operators Leave on the Stack

The two logical operators take their right operand from the stack, and the left one only if the
right one does not decide: if the right operand of `&&` is zero, or that of `||` is not, the left
operand stays below the result. The result is right in both cases, but an operator around it finds
that left operand where its own should be.

This module says what the code of an expression with such operators leaves on the stack, in all
cases. An expression is *calm* if no logical operator in it is decided by its right operand. The
code of a calm expression leaves its value, as that of an expression of the core does; the code of
every other one leaves more than one value.

## Main results

* `Expr.value`: the value that an expression with logical operators should have;
* `Expr.pushes`, `Setting.steps_pushes`: what its code leaves on the stack;
* `Setting.steps_integral`: it is the value alone exactly if the expression is calm.
-/

namespace ScoreLang

open List Machine Text

/-! ### Values -/

theorem Value.isZero_integer (n : Int) : (Value.integer n).isZero = decide (n = 0) :=
  beq_eq_decide n 0

/-- The product of two integers. Their quotient need not be an integer, and counts as zero. -/
def MulSign.apply (sign : MulSign) (a b : Int) : Int := sign.apply? a b |>.getD 0

/-- Whether two values compare, or both or one of them are not zero. -/
def LogicSign.apply : LogicSign → Int → Int → Int
  | .less, a, b => flag (a < b)
  | .greater, a, b => flag (a > b)
  | .lessEqual, a, b => flag (a ≤ b)
  | .greaterEqual, a, b => flag (a ≥ b)
  | .notEqual, a, b => flag (a ≠ b)
  | .equal, a, b => flag (a = b)
  | .both, a, b => flag (a ≠ 0 && b ≠ 0)
  | .either, a, b => flag (a ≠ 0 || b ≠ 0)

/-- Whether the right operand alone decides. -/
def LogicSign.decidedBy : LogicSign → Int → Bool
  | .both, b => b = 0
  | .either, b => b ≠ 0
  | _, _ => false

/-- What an operator leaves of two values, the upper one first: the result and, if the right operand
decides, the left one. -/
def LogicSign.leaves (sign : LogicSign) (a b : Int) : List Int :=
  sign.apply a b :: if sign.decidedBy b then [a] else []

/-- The values on top of which two of them have been combined. -/
def onTop (combine : Int → Int → List Int) : List Int → List Int
  | b :: a :: rest => combine a b ++ rest
  | values => values

namespace Expr

/-- Whether an expression computes with integers: it has no call and no quotient, and no number that
is too long to be read. Logical operators are allowed. -/
def isIntegral : {level : Level} → Expr level → Bool
  | _, .number value => value.digits.toList.length ≤ Text.maxDigits
  | _, .variable _ => true
  | _, .group inner => inner.isIntegral
  | _, .factor only => only.isIntegral
  | _, .times left sign right => left.isIntegral && sign = .times && right.isIntegral
  | _, .product only => only.isIntegral
  | _, .plus left _ right => left.isIntegral && right.isIntegral
  | _, .sum only => only.isIntegral
  | _, .compare left _ right => left.isIntegral && right.isIntegral
  | _, .logical only => only.isIntegral
  | _, .assign _ value => value.isIntegral
  | _, .plainCall _ => false
  | _, .call _ _ => false
  | _, .argument _ => false
  | _, .further _ _ => false

/-- The value of an expression and the store after it. The left operand comes first, and both
operands of a logical operator are computed. What is not integral counts as zero. -/
def value (locals : List String) : {level : Level} → Expr level → Store → Int × Store
  | _, .number value, store => (value.value, store)
  | _, .variable target, store => (store (target.cell locals), store)
  | _, .group inner, store => inner.value locals store
  | _, .factor only, store => only.value locals store
  | _, .times left sign right, store =>
    let (a, store) := left.value locals store
    let (b, store) := right.value locals store
    (sign.apply a b, store)
  | _, .product only, store => only.value locals store
  | _, .plus left sign right, store =>
    let (a, store) := left.value locals store
    let (b, store) := right.value locals store
    (sign.apply a b, store)
  | _, .sum only, store => only.value locals store
  | _, .compare left sign right, store =>
    let (a, store) := left.value locals store
    let (b, store) := right.value locals store
    (sign.apply a b, store)
  | _, .logical only, store => only.value locals store
  | _, .assign target value, store =>
    let (a, store) := value.value locals store
    (a, store.set (target.cell locals) a)
  | _, .plainCall _, store => (0, store)
  | _, .call _ _, store => (0, store)
  | _, .argument _, store => (0, store)
  | _, .further _ _, store => (0, store)

/-- Whether no logical operator of an expression is decided by its right operand. -/
def isCalm (locals : List String) : {level : Level} → Expr level → Store → Bool
  | _, .number _, _ => true
  | _, .variable _, _ => true
  | _, .group inner, store => inner.isCalm locals store
  | _, .factor only, store => only.isCalm locals store
  | _, .times left _ right, store =>
    left.isCalm locals store && right.isCalm locals (left.value locals store).2
  | _, .product only, store => only.isCalm locals store
  | _, .plus left _ right, store =>
    left.isCalm locals store && right.isCalm locals (left.value locals store).2
  | _, .sum only, store => only.isCalm locals store
  | _, .compare left sign right, store =>
    left.isCalm locals store && right.isCalm locals (left.value locals store).2 &&
      !sign.decidedBy (right.value locals (left.value locals store).2).1
  | _, .logical only, store => only.isCalm locals store
  | _, .assign _ value, store => value.isCalm locals store
  | _, .plainCall _, _ => true
  | _, .call _ _, _ => true
  | _, .argument _, _ => true
  | _, .further _ _, _ => true

/-- What the code of an expression leaves on the stack, the upper values first, and the store after
it. An operator takes the two values on top, wherever they come from. -/
def pushes (locals : List String) : {level : Level} → Expr level → Store → List Int × Store
  | _, .number value, store => ([(value.value : Int)], store)
  | _, .variable target, store => ([store (target.cell locals)], store)
  | _, .group inner, store => inner.pushes locals store
  | _, .factor only, store => only.pushes locals store
  | _, .times left sign right, store =>
    let (first, store) := left.pushes locals store
    let (second, store) := right.pushes locals store
    (onTop (fun a b => [sign.apply a b]) (second ++ first), store)
  | _, .product only, store => only.pushes locals store
  | _, .plus left sign right, store =>
    let (first, store) := left.pushes locals store
    let (second, store) := right.pushes locals store
    (onTop (fun a b => [sign.apply a b]) (second ++ first), store)
  | _, .sum only, store => only.pushes locals store
  | _, .compare left sign right, store =>
    let (first, store) := left.pushes locals store
    let (second, store) := right.pushes locals store
    (onTop sign.leaves (second ++ first), store)
  | _, .logical only, store => only.pushes locals store
  | _, .assign target value, store =>
    let (values, store) := value.pushes locals store
    (values, store.set (target.cell locals) (values.headD 0))
  | _, .plainCall _, store => ([0], store)
  | _, .call _ _, store => ([0], store)
  | _, .argument _, store => ([0], store)
  | _, .further _ _, store => ([0], store)

end Expr

/-! ### One value or more -/

/-- Two stacks with a value each have two values on top when they are put together. -/
theorem exists_two_on_top {first second : List Int} (hfirst : first ≠ []) (hsecond : second ≠ []) :
    ∃ a b rest, second ++ first = b :: a :: rest := by
  obtain ⟨a, under, rfl⟩ := exists_cons_of_ne_nil hfirst
  obtain ⟨b, upper, rfl⟩ := exists_cons_of_ne_nil hsecond
  cases upper with
  | nil => exact ⟨a, b, under, rfl⟩
  | cons left upper => exact ⟨left, b, upper ++ a :: under, rfl⟩

theorem onTop_ne_nil {combine : Int → Int → List Int} {first second : List Int}
    (hcombine : ∀ a b, combine a b ≠ []) (hfirst : first ≠ []) (hsecond : second ≠ []) :
    onTop combine (second ++ first) ≠ [] := by
  obtain ⟨a, b, rest, h⟩ := exists_two_on_top hfirst hsecond
  rw [h, onTop]
  exact append_ne_nil_of_left_ne_nil (hcombine a b) rest

/-- If an operator leaves one value, it has found one value for each operand. -/
theorem exists_of_length_onTop_eq_one {combine : Int → Int → List Int} {first second : List Int}
    (hcombine : ∀ a b, combine a b ≠ []) (hfirst : first ≠ []) (hsecond : second ≠ [])
    (h : (onTop combine (second ++ first)).length = 1) :
    ∃ a b, first = [a] ∧ second = [b] ∧ (combine a b).length = 1 := by
  obtain ⟨a, under, rfl⟩ := exists_cons_of_ne_nil hfirst
  obtain ⟨b, upper, rfl⟩ := exists_cons_of_ne_nil hsecond
  have hpos : ∀ a b, 0 < (combine a b).length := fun a b => length_pos_iff.2 (hcombine a b)
  cases upper with
  | nil =>
    simp only [cons_append, nil_append, onTop, length_append] at h
    have hunder : under.length = 0 := by have := hpos a b; omega
    obtain rfl := eq_nil_of_length_eq_zero hunder
    exact ⟨a, b, rfl, rfl, h⟩
  | cons left upper =>
    simp only [cons_append, onTop, length_append, length_cons] at h
    have := hpos left b
    omega

theorem LogicSign.leaves_ne_nil (sign : LogicSign) (a b : Int) : sign.leaves a b ≠ [] :=
  cons_ne_nil _ _

theorem LogicSign.length_leaves_eq_one_iff {sign : LogicSign} {a b : Int} :
    (sign.leaves a b).length = 1 ↔ sign.decidedBy b = false := by
  unfold LogicSign.leaves
  cases sign.decidedBy b <;> simp

namespace Expr

variable {locals : List String} {level : Level}

/-- The code of an expression leaves at least one value. -/
theorem pushes_ne_nil (e : Expr level) (locals : List String) (store : Store) :
    (e.pushes locals store).1 ≠ [] := by
  induction e generalizing store with
  | number value => simp [pushes]
  | «variable» target => simp [pushes]
  | group inner ih | factor inner ih | product inner ih | sum inner ih | logical inner ih =>
    exact ih store
  | times left sign right ihLeft ihRight =>
    exact onTop_ne_nil (fun _ _ => cons_ne_nil _ _) (ihLeft store) (ihRight _)
  | plus left sign right ihLeft ihRight =>
    exact onTop_ne_nil (fun _ _ => cons_ne_nil _ _) (ihLeft store) (ihRight _)
  | compare left sign right ihLeft ihRight =>
    exact onTop_ne_nil sign.leaves_ne_nil (ihLeft store) (ihRight _)
  | assign target value ih => exact ih store
  | plainCall name => simp [pushes]
  | call name given => simp [pushes]
  | argument only => simp [pushes]
  | further before last => simp [pushes]

/-- The code of a calm expression leaves its value, and nothing else. -/
theorem pushes_of_isCalm {e : Expr level} {store : Store} (h : e.isCalm locals store = true) :
    e.pushes locals store = ([(e.value locals store).1], (e.value locals store).2) := by
  induction e generalizing store with
  | number value => rfl
  | «variable» target => rfl
  | group inner ih | factor inner ih | product inner ih | sum inner ih | logical inner ih =>
    exact ih h
  | times left sign right ihLeft ihRight =>
    simp only [isCalm, Bool.and_eq_true] at h
    simp [pushes, value, ihLeft h.1, ihRight h.2, onTop]
  | plus left sign right ihLeft ihRight =>
    simp only [isCalm, Bool.and_eq_true] at h
    simp [pushes, value, ihLeft h.1, ihRight h.2, onTop]
  | compare left sign right ihLeft ihRight =>
    simp only [isCalm, Bool.and_eq_true, Bool.not_eq_true'] at h
    simp [pushes, value, ihLeft h.1.1, ihRight h.1.2, onTop, LogicSign.leaves, h.2]
  | assign target value ih => simp [pushes, Expr.value, ih h]
  | plainCall name => rfl
  | call name given => rfl
  | argument only => rfl
  | further before last => rfl

/-- Two operands that leave one value each. What they leave is known if they are calm as soon as
they leave one value, and so is the store in between. -/
theorem isCalm_operands {level' : Level} {left : Expr level} {right : Expr level'} {store : Store}
    {a b : Int}
    (ihLeft : ∀ {s}, (left.pushes locals s).1.length = 1 → left.isCalm locals s = true)
    (ihRight : ∀ {s}, (right.pushes locals s).1.length = 1 → right.isCalm locals s = true)
    (hfirst : (left.pushes locals store).1 = [a])
    (hsecond : (right.pushes locals (left.pushes locals store).2).1 = [b]) :
    left.isCalm locals store = true ∧
      right.isCalm locals (left.value locals store).2 = true ∧
      (right.value locals (left.value locals store).2).1 = b := by
  have hleft : left.isCalm locals store = true := ihLeft (by rw [hfirst]; rfl)
  have hright := ihRight (s := (left.pushes locals store).2) (by rw [hsecond]; rfl)
  rw [pushes_of_isCalm hleft] at hright hsecond
  rw [pushes_of_isCalm hright] at hsecond
  exact ⟨hleft, hright, (List.cons.inj hsecond).1⟩

/-- If the code of an expression leaves one value, the expression is calm. -/
theorem isCalm_of_length_pushes {e : Expr level} {store : Store}
    (h : (e.pushes locals store).1.length = 1) : e.isCalm locals store = true := by
  induction e generalizing store with
  | number value => rfl
  | «variable» target => rfl
  | group inner ih | factor inner ih | product inner ih | sum inner ih | logical inner ih =>
    exact ih h
  | times left sign right ihLeft ihRight | plus left sign right ihLeft ihRight =>
    obtain ⟨a, b, hfirst, hsecond, -⟩ := exists_of_length_onTop_eq_one
      (fun _ _ => cons_ne_nil _ _) (left.pushes_ne_nil locals store)
      (right.pushes_ne_nil locals _) h
    obtain ⟨hleft, hright, -⟩ := isCalm_operands ihLeft ihRight hfirst hsecond
    simp [isCalm, hleft, hright]
  | compare left sign right ihLeft ihRight =>
    obtain ⟨a, b, hfirst, hsecond, hlength⟩ := exists_of_length_onTop_eq_one
      sign.leaves_ne_nil (left.pushes_ne_nil locals store) (right.pushes_ne_nil locals _) h
    obtain ⟨hleft, hright, hvalue⟩ := isCalm_operands ihLeft ihRight hfirst hsecond
    simp [isCalm, hleft, hright, hvalue, LogicSign.length_leaves_eq_one_iff.1 hlength]
  | assign target value ih => exact ih h
  | plainCall name => rfl
  | call name given => rfl
  | argument only => rfl
  | further before last => rfl

end Expr

/-! ### The code -/

namespace Setting

variable {S : Setting} {place : Nat} {stack : List Int} {c : Config} {a b : Int}

/-- A logical operator takes the left operand only if the right one does not decide. -/
theorem moves_leaves {sign : LogicSign} (hline : S.lines[place]? = some (sign.operation.line "")) :
    Moves S.code (S.state place (b :: a :: stack) c)
      (S.state (place + 1) (sign.leaves a b ++ stack) c) := by
  cases sign with
  | both =>
    refine moves hline ((ends_perform_both rfl).2 ?_)
    by_cases hb : b = 0 <;>
      simp [before, state, LogicSign.leaves, LogicSign.apply, LogicSign.decidedBy,
        Value.isZero_integer, hb]
  | either =>
    refine moves hline ((ends_perform_either rfl).2 ?_)
    by_cases hb : b = 0 <;>
      simp [before, state, LogicSign.leaves, LogicSign.apply, LogicSign.decidedBy,
        Value.isZero_integer, hb]
  | less => exact moves_logicSign hline rfl
  | greater => exact moves_logicSign hline rfl
  | lessEqual => exact moves_logicSign hline rfl
  | greaterEqual => exact moves_logicSign hline rfl
  | notEqual => exact moves_logicSign hline rfl
  | equal => exact moves_logicSign hline rfl

/-- Two operands, one after the other, and an operator. -/
theorem steps_onTop {first second : List Int} {code₁ code₂ : List CodeLine} {line : CodeLine}
    {c₁ c₂ : Config} {combine : Int → Int → List Int} (hfirst : first ≠ []) (hsecond : second ≠ [])
    (h₁ : Steps S.code code₁.length (S.state place stack c)
      (S.state (place + code₁.length) (first ++ stack) c₁))
    (h₂ : Steps S.code code₂.length (S.state (place + code₁.length) (first ++ stack) c₁)
      (S.state (place + code₁.length + code₂.length) (second ++ (first ++ stack)) c₂))
    (hmove : ∀ a b rest, Moves S.code
      (S.state (place + code₁.length + code₂.length) (b :: a :: rest) c₂)
      (S.state (place + code₁.length + code₂.length + 1) (combine a b ++ rest) c₂)) :
    Steps S.code (code₁ ++ code₂ ++ [line]).length (S.state place stack c)
      (S.state (place + (code₁ ++ code₂ ++ [line]).length)
        (onTop combine (second ++ first) ++ stack) c₂) := by
  obtain ⟨a, b, rest, htwo⟩ := exists_two_on_top hfirst hsecond
  rw [← append_assoc, htwo] at h₂
  have hsteps := (h₁.trans h₂).trans (hmove a b (rest ++ stack)).steps
  rw [htwo, onTop, append_assoc]
  simpa [Nat.add_assoc] using hsteps

variable {locals names : List String} {done : Nat} {scopes : Scopes}

/-- **Logical operators**: what the code of an expression leaves on top of any stack. It takes a
step for each line. -/
theorem steps_pushes (hplaced : Placed S.layout locals names done scopes) {level : Level}
    {e : Expr level} (hintegral : e.isIntegral = true) {lines : List CodeLine}
    (hcode : e.code scopes = some lines) (hat : S.Has place lines) (stack : List Int) (c : Config) :
    Steps S.code lines.length (S.state place stack c)
      (S.state (place + lines.length) ((e.pushes locals c.store).1 ++ stack)
        { c with store := (e.pushes locals c.store).2 }) := by
  induction e generalizing place stack c lines with
  | number value =>
    obtain rfl := Option.some.inj hcode
    have hne : value.digits ≠ "" := fun h => value.digits_ne (by rw [h]; rfl)
    have hread : readInteger value.digits = .ok (value.value : Int) :=
      readInteger_numeral.2 ⟨of_decide_eq_true hintegral, rfl⟩
    exact (moves_push hat.head hne hread).steps
  | «variable» target =>
    simp only [Expr.code, Option.map_eq_some_iff] at hcode
    obtain ⟨text, htext, rfl⟩ := hcode
    obtain ⟨k, hspells, hcell⟩ := hplaced.cell? htext
    exact (moves_load hat.head hspells hcell).steps
  | group inner ih | factor inner ih | product inner ih | sum inner ih | logical inner ih =>
    exact ih hintegral hcode hat stack c
  | times left sign right ihLeft ihRight =>
    simp only [Expr.isIntegral, Bool.and_eq_true, decide_eq_true_eq] at hintegral
    obtain ⟨⟨hleft, rfl⟩, hright⟩ := hintegral
    simp only [Expr.code, bind_eq_some, Option.some.injEq] at hcode
    obtain ⟨first, hfirst, second, hsecond, rfl⟩ := hcode
    exact steps_onTop (left.pushes_ne_nil locals _) (right.pushes_ne_nil locals _)
      (ihLeft hleft hfirst hat.left.left stack c)
      (ihRight hright hsecond hat.left.right _ { c with store := (left.pushes locals c.store).2 })
      fun a b rest => moves_mulSign hat.operator rfl
  | plus left sign right ihLeft ihRight =>
    simp only [Expr.isIntegral, Bool.and_eq_true] at hintegral
    simp only [Expr.code, bind_eq_some, Option.some.injEq] at hcode
    obtain ⟨first, hfirst, second, hsecond, rfl⟩ := hcode
    exact steps_onTop (left.pushes_ne_nil locals _) (right.pushes_ne_nil locals _)
      (ihLeft hintegral.1 hfirst hat.left.left stack c)
      (ihRight hintegral.2 hsecond hat.left.right _
        { c with store := (left.pushes locals c.store).2 })
      fun a b rest => moves_addSign hat.operator
  | compare left sign right ihLeft ihRight =>
    simp only [Expr.isIntegral, Bool.and_eq_true] at hintegral
    simp only [Expr.code, bind_eq_some, Option.some.injEq] at hcode
    obtain ⟨first, hfirst, second, hsecond, rfl⟩ := hcode
    exact steps_onTop (left.pushes_ne_nil locals _) (right.pushes_ne_nil locals _)
      (ihLeft hintegral.1 hfirst hat.left.left stack c)
      (ihRight hintegral.2 hsecond hat.left.right _
        { c with store := (left.pushes locals c.store).2 })
      fun a b rest => moves_leaves hat.operator
  | assign target value ih =>
    simp only [Expr.code, bind_eq_some, Option.some.injEq] at hcode
    obtain ⟨text, htext, first, hfirst, rfl⟩ := hcode
    obtain ⟨k, hspells, hcell⟩ := hplaced.cell? htext
    obtain ⟨top, extra, hvalues⟩ :=
      exists_cons_of_ne_nil (value.pushes_ne_nil locals c.store)
    have hsteps := ih hintegral hfirst hat.left stack c
    rw [hvalues] at hsteps
    have hmove := hsteps.trans (moves_store hat.right.head hspells hcell).steps
    simpa [Expr.pushes, hvalues, Nat.add_assoc] using hmove
  | plainCall | call | argument | further => exact Bool.noConfusion hintegral

/-- **Calm expressions.** The code of an integral expression leaves a value on top of the stack, and
more values below it exactly if the expression is not calm. If it is calm, it leaves the value that
the expression should have, and the store that should be there after it. All values on the stack
and in the store are integers here. -/
theorem steps_integral (hplaced : Placed S.layout locals names done scopes) {level : Level}
    {e : Expr level} (hintegral : e.isIntegral = true) {lines : List CodeLine}
    (hcode : e.code scopes = some lines) (hat : S.Has place lines) (stack : List Int) (c : Config) :
    ∃ top extra store, Steps S.code lines.length (S.state place stack c)
        (S.state (place + lines.length) (top :: (extra ++ stack)) { c with store := store }) ∧
      (extra = [] ↔ e.isCalm locals c.store = true) ∧
      (e.isCalm locals c.store = true → (top, store) = e.value locals c.store) := by
  obtain ⟨top, extra, hvalues⟩ :=
    exists_cons_of_ne_nil (e.pushes_ne_nil locals c.store)
  refine ⟨top, extra, (e.pushes locals c.store).2, ?_, ⟨fun hextra => ?_, fun hcalm => ?_⟩,
    fun hcalm => ?_⟩
  · have hsteps := steps_pushes hplaced hintegral hcode hat stack c
    rwa [hvalues] at hsteps
  · refine Expr.isCalm_of_length_pushes ?_
    rw [hvalues, hextra]
    rfl
  · rw [Expr.pushes_of_isCalm hcalm] at hvalues
    exact (List.cons.inj hvalues).2.symm
  · rw [Expr.pushes_of_isCalm hcalm] at hvalues ⊢
    rw [← (List.cons.inj hvalues).1]

/-! ### An example -/

/-- A number as an operand of a sum. -/
def numberProduct (n : Nat) : Expr .product := .factor (.number (numeral n))

/-- The expression `1 + (5 && 0)`. -/
def restlessSum : Expr .sum :=
  .plus (.product (numberProduct 1)) .plus
    (.factor (.group (.logical
      (.compare (.product (numberProduct 5)) .both (.product (numberProduct 0))))))

/-- Its code. -/
def restlessLines : List CodeLine :=
  [Operation.push.line "1", Operation.push.line "5", Operation.push.line "0",
    Operation.both.line "", Operation.add.line ""]

theorem tidy_restlessLines : ∀ line ∈ restlessLines, line.Tidy := by
  have hsolid : Solid "1" ∧ Solid "5" ∧ Solid "0" :=
    ⟨.numeral (numeral 1), .numeral (numeral 5), .numeral (numeral 0)⟩
  simp [restlessLines, Operation.tidy_line, tidy_plain, hsolid]

/-- A setting with this code alone. -/
def restlessSetting : Setting where
  code := .ofText (CodeLine.listText restlessLines)
  lines := restlessLines
  holds := Code.holds_ofText tidy_restlessLines .nil
  layout := []
  nodup := .nil
  length_le := Nat.zero_le _
  base := 0
  frames := []

/-- The sum finds the left operand of the logical operator in place of its own, and leaves two
values. -/
theorem steps_restlessSum : ∃ top extra store, Steps restlessSetting.code 5
    (restlessSetting.state 0 [] ⟨.zero, [], []⟩)
    (restlessSetting.state 5 (top :: (extra ++ [])) ⟨store, [], []⟩) ∧ extra ≠ [] := by
  have hcode : restlessSum.code [.empty 0 false 0] = some restlessLines := by decide +kernel
  have hat : restlessSetting.Has 0 restlessLines := fun i line hline => by rwa [Nat.zero_add]
  obtain ⟨top, extra, store, hsteps, hextra, -⟩ := steps_integral (Placed.empty _ 0)
    (by decide +kernel) hcode hat [] ⟨.zero, [], []⟩
  exact ⟨top, extra, store, hsteps, fun hnil => absurd (hextra.1 hnil) (by decide +kernel)⟩

end Setting

end ScoreLang
