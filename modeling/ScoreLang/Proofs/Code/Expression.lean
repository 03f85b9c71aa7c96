import ScoreLang.Proofs.Code.Reference

/-!
# The Code of Expressions

`Expr.code` is the code of an expression by recursion on the expression: operands first, then the
operation. It depends on the scopes, which say where the variables are, and there is none if a name
is not declared, an index is out of range, or a call does not fit.
-/

namespace ScoreLang

/-! ### Labels -/

namespace Expr

/-- A number. -/
@[simp] theorem inside_number (value : Numeral) :
    (Expr.number value).inside = [.number value.digits] := by
  simp [inside, sons, Numeral.leaf]

/-- A variable. -/
@[simp] theorem inside_variable (target : Reference) :
    (Expr.variable target).inside = target.labels := by
  simp [inside, sons, target.listing_tree]

/-- An expression in parentheses. -/
@[simp] theorem inside_group (inner : Expr .expression) :
    (Expr.group inner).inside = .word "(" :: (inner.labels ++ [.word ")"]) := by
  simp [inside, sons, labels, phrase, word, Level.rule]

/-- A call without arguments. -/
@[simp] theorem inside_plainCall (name : String) :
    (Expr.plainCall name).inside
      = [.rule .call, .word "call", .name name, .word "(", .word ")"] := by
  simp [inside, sons, phrase, word, nameLeaf]

/-- A call with arguments. -/
@[simp] theorem inside_call (name : String) (given : Expr .arguments) :
    (Expr.call name given).inside
      = .rule .call :: .word "call" :: .name name :: .word "(" :: (given.labels ++
      [.word ")"]) := by
  simp [inside, sons, labels, phrase, word, nameLeaf, Level.rule]

@[simp] theorem inside_factor (only : Expr .factor) : (Expr.factor only).inside = only.labels := by
  simp [inside, sons, labels, phrase, Level.rule]

/-- A product. -/
@[simp] theorem inside_times (left : Expr .product) (sign : MulSign) (right : Expr .factor) :
    (Expr.times left sign right).inside = left.inside ++ .word sign.text :: right.labels := by
  simp [inside, sons, labels, phrase, word, Level.rule]

@[simp] theorem inside_product (only : Expr .product) :
    (Expr.product only).inside = only.labels := by
  simp [inside, sons, labels, phrase, Level.rule]

/-- A sum. -/
@[simp] theorem inside_plus (left : Expr .sum) (sign : AddSign) (right : Expr .product) :
    (Expr.plus left sign right).inside = left.inside ++ .word sign.text :: right.labels := by
  simp [inside, sons, labels, phrase, word, Level.rule]

@[simp] theorem inside_sum (only : Expr .sum) : (Expr.sum only).inside = only.labels := by
  simp [inside, sons, labels, phrase, Level.rule]

/-- A comparison. -/
@[simp] theorem inside_compare (left : Expr .sum) (sign : LogicSign) (right : Expr .sum) :
    (Expr.compare left sign right).inside = left.labels ++ .word sign.text :: right.labels := by
  simp [inside, sons, labels, phrase, word, Level.rule]

@[simp] theorem inside_logical (only : Expr .logical) :
    (Expr.logical only).inside = only.labels := by
  simp [inside, sons, labels, phrase, Level.rule]

/-- An assignment. -/
@[simp] theorem inside_assign (target : Reference) (value : Expr .logical) :
    (Expr.assign target value).inside = target.labels ++ .word "=" :: value.labels := by
  simp [inside, sons, labels, phrase, word, target.listing_tree, Level.rule]

@[simp] theorem inside_argument (only : Expr .expression) :
    (Expr.argument only).inside = only.labels := by
  simp [inside, sons, labels, phrase, Level.rule]

/-- One more argument. -/
@[simp] theorem inside_further (before : Expr .arguments) (last : Expr .expression) :
    (Expr.further before last).inside = before.inside ++ .word "," :: last.labels := by
  simp [inside, sons, labels, phrase, word, Level.rule]

end Expr

/-! ### The code -/

/-- The label of a function that takes the given number of arguments. -/
def callee? (scopes : Scopes) (name : String) (count : Nat) : Option String := do
  let entry ← scopes.find? name
  if entry.category = .function ∧ entry.size = some (count : Int) ∧
    count ≤ Generate.maxArguments then entry.address.text?
  else none

namespace Expr

/-- The number of arguments. -/
def count : {level : Level} → Expr level → Nat
  | _, .argument _ => 1
  | _, .further before _ => before.count + 1
  | _, _ => 0

/-- The code of an expression. -/
def code (scopes : Scopes) : {level : Level} → Expr level → Option (List CodeLine)
  | _, .number value => some [Operation.push.line value.digits]
  | _, .variable target => (target.cell? scopes).map fun cell => [Operation.load.line cell]
  | _, .group inner => inner.code scopes
  | _, .plainCall name => (callee? scopes name 0).map fun label => [Operation.call.line label]
  | _, .call name given => do
    let lines ← given.code scopes
    let label ← callee? scopes name given.count
    some (lines ++ [Operation.call.line label])
  | _, .factor only => only.code scopes
  | _, .times left sign right => do
    let first ← left.code scopes
    let second ← right.code scopes
    some (first ++ second ++ [sign.operation.line ""])
  | _, .product only => only.code scopes
  | _, .plus left sign right => do
    let first ← left.code scopes
    let second ← right.code scopes
    some (first ++ second ++ [sign.operation.line ""])
  | _, .sum only => only.code scopes
  | _, .compare left sign right => do
    let first ← left.code scopes
    let second ← right.code scopes
    some (first ++ second ++ [sign.operation.line ""])
  | _, .logical only => only.code scopes
  | _, .assign target value => do
    let cell ← target.cell? scopes
    let lines ← value.code scopes
    some (lines ++ [Operation.store.line cell])
  | _, .argument only => only.code scopes
  | _, .further before last => do
    let first ← before.code scopes
    let second ← last.code scopes
    some (first ++ second)

end Expr

namespace Expr

/-- The operation that an expression ends with. -/
def lastOperation : {level : Level} → Expr level → Operation
  | _, .number _ => .push
  | _, .variable _ => .load
  | _, .group inner => inner.lastOperation
  | _, .plainCall _ | _, .call _ _ => .call
  | _, .factor only => only.lastOperation
  | _, .times _ sign _ => sign.operation
  | _, .product only => only.lastOperation
  | _, .plus _ sign _ => sign.operation
  | _, .sum only => only.lastOperation
  | _, .compare _ sign _ => sign.operation
  | _, .logical only => only.lastOperation
  | _, .assign _ _ => .store
  | _, .argument only => only.lastOperation
  | _, .further _ last => last.lastOperation

/-- The code of an expression ends with its last operation. -/
theorem exists_code_eq {scopes : Scopes} : {level : Level} → (e : Expr level) →
    {lines : List CodeLine} → e.code scopes = some lines →
      ∃ before operand, lines = before ++ [e.lastOperation.line operand]
  | _, .number value, _, h => ⟨[], value.digits, (Option.some.inj h).symm⟩
  | _, .variable target, _, h => by
      obtain ⟨cell, -, rfl⟩ := Option.map_eq_some_iff.1 h
      exact ⟨[], cell, rfl⟩
  | _, .group inner, _, h => inner.exists_code_eq h
  | _, .plainCall name, _, h => by
      obtain ⟨label, -, rfl⟩ := Option.map_eq_some_iff.1 h
      exact ⟨[], label, rfl⟩
  | _, .call name given, _, h => by
      simp only [code, bind_eq_some, Option.some.injEq] at h
      obtain ⟨lines, -, label, -, rfl⟩ := h
      exact ⟨lines, label, rfl⟩
  | _, .factor only, _, h => only.exists_code_eq h
  | _, .times left sign right, _, h | _, .plus left sign right, _, h
  | _, .compare left sign right, _, h => by
      simp only [code, bind_eq_some, Option.some.injEq] at h
      obtain ⟨first, -, second, -, rfl⟩ := h
      exact ⟨first ++ second, "", rfl⟩
  | _, .product only, _, h => only.exists_code_eq h
  | _, .sum only, _, h => only.exists_code_eq h
  | _, .logical only, _, h => only.exists_code_eq h
  | _, .assign target value, _, h => by
      simp only [code, bind_eq_some, Option.some.injEq] at h
      obtain ⟨cell, -, lines, -, rfl⟩ := h
      exact ⟨lines, cell, rfl⟩
  | _, .argument only, _, h => only.exists_code_eq h
  | _, .further before last, _, h => by
      simp only [code, bind_eq_some, Option.some.injEq] at h
      obtain ⟨first, -, second, hsecond, rfl⟩ := h
      obtain ⟨lines, operand, rfl⟩ := last.exists_code_eq hsecond
      exact ⟨first ++ lines, operand, (List.append_assoc _ _ _).symm⟩

/-- An expression has some code. -/
theorem code_ne_nil {scopes : Scopes} {level : Level} {e : Expr level} {lines : List CodeLine}
    (h : e.code scopes = some lines) : lines ≠ [] := by
  obtain ⟨before, operand, rfl⟩ := e.exists_code_eq h
  simp

end Expr

end ScoreLang
