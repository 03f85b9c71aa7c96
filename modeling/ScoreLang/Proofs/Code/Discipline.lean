import ScoreLang.Proofs.Code.Lines
import ScoreLang.Proofs.Stack.Effect

/-!
# A Discipline for Code

Code is checked line by line. A *discipline* says which functions may be called and with how many
arguments, which labels may be jumped to, which operations may be performed, and whether the height
of the stack is to be known at every line. If it is, then jumps and labels are met with nothing on
the stack but what was there before the statement, and every operation finds its operands above
that.

The code of expressions and declarations follows every discipline that knows the functions that are
called. The code of statements does if every jump stands in a loop or a switch of its own function.
The height of the stack can be known unless there are logical operators or for statements, which
leave values behind, or a switch with several numbers over a value whose code has more than one
line.
-/

namespace ScoreLang

open List

/-- Whether an operation goes on with the next line, and has nothing to do with calls. -/
def Operation.goesOn : Operation → Bool
  | .branch | .branchFalse | .call | .leave | .allocate => false
  | _ => true

/-- Whether an operation is one that values are computed with. -/
def Operation.computes : Operation → Bool
  | .branch | .branchFalse | .call | .leave | .allocate | .input | .output => false
  | _ => true

theorem Operation.goesOn_of_computes {operation : Operation} (h : operation.computes = true) :
    operation.goesOn = true := by
  cases operation with
  | branch | branchFalse | call | leave | allocate => exact Bool.noConfusion h
  | _ => rfl

/-- An operation is found by its name. -/
theorem Operation.find?_mnemonic (operation : Operation) :
    Operation.all.find? (fun other => other.mnemonic == operation.mnemonic) = some operation := by
  cases operation <;> rfl

/-- Different operations have different names. -/
theorem Operation.mnemonic_injective {first second : Operation}
    (h : first.mnemonic = second.mnemonic) : first = second := by
  have hfirst := find?_mnemonic first
  rw [h, find?_mnemonic second] at hfirst
  exact (Option.some.inj hfirst).symm

/-- A line tells its operation and its operand. -/
theorem Operation.line_injective {first second : Operation} {operand operand' : String}
    (h : first.line operand = second.line operand') : first = second ∧ operand = operand' := by
  obtain ⟨hname, rfl⟩ := CodeLine.command.inj h
  exact ⟨Operation.mnemonic_injective hname, rfl⟩

theorem MulSign.computes (sign : MulSign) :
    sign.operation.computes = true ∧ sign.operation.effect? = some (2, 1) := by
  cases sign <;> decide

theorem AddSign.computes (sign : AddSign) :
    sign.operation.computes = true ∧ sign.operation.effect? = some (2, 1) := by
  cases sign <;> decide

theorem LogicSign.computes (sign : LogicSign) : sign.operation.computes = true := by
  cases sign <;> decide

/-- What the lines of some code have to obey. -/
structure Discipline where
  /-- The functions that may be called, by their labels, with the number of arguments. -/
  calls : String → Nat → Prop
  /-- The labels that may be jumped to. -/
  targets : String → Prop
  /-- The operations that may be performed. -/
  operations : Operation → Prop
  /-- Whether the height of the stack is to be known. -/
  counted : Prop

namespace Discipline

variable {d : Discipline} {h h' k : Nat} {line : CodeLine} {lines first second : List CodeLine}

/-- What an operation does to the height of the stack, if the height is to be known. -/
def Shifts (d : Discipline) (operation : Operation) (h h' : Nat) : Prop :=
  d.counted → ∃ taken given k, operation.effect? = some (taken, given) ∧ h = k + taken ∧
  h' = k + given

/-- A line that may stand where the stack has the one height, and leaves it with the other one. -/
inductive Passes (d : Discipline) : Nat → CodeLine → Nat → Prop where
  | label {h h' : Nat} {name : String} : d.targets name → (d.counted → h = 0 ∧ h' = 0) →
      d.Passes h (.label name) h'
  | branch {h h' : Nat} {target : String} : d.targets target → (d.counted → h = 0 ∧ h' = 0) →
      d.Passes h (Operation.branch.line target) h'
  | branchFalse {h h' : Nat} {target : String} : d.targets target → (d.counted → h = 1 ∧ h' = 0) →
      d.Passes h (Operation.branchFalse.line target) h'
  | call {h h' count : Nat} {label : String} : d.calls label count →
      (d.counted → ∃ k, h = k + count ∧ h' = k + 1) → d.Passes h (Operation.call.line label) h'
  | operation {h h' : Nat} {operation : Operation} {operand : String} : operation.goesOn = true →
      d.operations operation → d.Shifts operation h h' → d.Passes h (operation.line operand) h'
  | bare {h h' : Nat} {operation : Operation} : operation.goesOn = true →
      d.operations operation → d.Shifts operation h h' → d.Passes h (.bare operation.mnemonic) h'

/-- The heights do not matter unless they are to be known. -/
theorem Passes.congr {j : Nat} (hline : d.Passes h line h') (hstart : d.counted → k = h)
    (hend : d.counted → j = h') : d.Passes k line j := by
  have hshifts : ∀ {operation : Operation}, d.Shifts operation h h' → d.Shifts operation k j :=
    fun hshifts hc => by rw [hstart hc, hend hc]; exact hshifts hc
  cases hline with
  | label htarget hheight =>
    exact .label htarget fun hc => by rw [hstart hc, hend hc]; exact hheight hc
  | branch htarget hheight =>
    exact .branch htarget fun hc => by rw [hstart hc, hend hc]; exact hheight hc
  | branchFalse htarget hheight =>
    exact .branchFalse htarget fun hc => by rw [hstart hc, hend hc]; exact hheight hc
  | call hcall hheight => exact .call hcall fun hc => by rw [hstart hc, hend hc]; exact hheight hc
  | operation hgoes hallowed hshift => exact .operation hgoes hallowed (hshifts hshift)
  | bare hgoes hallowed hshift => exact .bare hgoes hallowed (hshifts hshift)

/-- Some lines that may stand one after the other. -/
inductive Follows (d : Discipline) : Nat → List CodeLine → Nat → Prop where
  | nil {h h' : Nat} : (d.counted → h = h') → d.Follows h [] h'
  | cons {h k h' : Nat} {line : CodeLine} {lines : List CodeLine} : d.Passes h line k →
      d.Follows k lines h' → d.Follows h (line :: lines) h'

namespace Follows

theorem refl (h : Nat) : d.Follows h [] h := .nil fun _ => rfl

theorem of_start (hlines : d.Follows h lines h') (hstart : d.counted → k = h) :
    d.Follows k lines h' := by
  cases hlines with
  | nil hheight => exact .nil fun hc => (hstart hc).trans (hheight hc)
  | cons hline hlines => exact .cons (hline.congr hstart fun _ => rfl) hlines

/-- One piece of code after another. -/
theorem append (hfirst : d.Follows h first k) (hsecond : d.Follows k second h') :
    d.Follows h (first ++ second) h' := by
  induction hfirst with
  | nil hheight => exact hsecond.of_start hheight
  | cons hline _ ih => exact .cons hline (ih hsecond)

/-- One more line at the end. -/
theorem snoc (hlines : d.Follows h lines k) (hline : d.Passes k line h') :
    d.Follows h (lines ++ [line]) h' := hlines.append (.cons hline (refl h'))

/-- A label, with nothing on the stack. -/
theorem label {name : String} (htarget : d.targets name) (hlines : d.Follows 0 lines h') :
    d.Follows 0 (.label name :: lines) h' := .cons (.label htarget fun _ => ⟨rfl, rfl⟩) hlines

/-- A jump, with nothing on the stack. -/
theorem branch {target : String} (htarget : d.targets target) (hlines : d.Follows 0 lines h') :
    d.Follows 0 (Operation.branch.line target :: lines) h' :=
  .cons (.branch htarget fun _ => ⟨rfl, rfl⟩) hlines

/-- A jump that takes the value of a test. -/
theorem branchFalse {target : String} (htarget : d.targets target) (hlines : d.Follows 0 lines h') :
    d.Follows 1 (Operation.branchFalse.line target :: lines) h' :=
  .cons (.branchFalse htarget fun _ => ⟨rfl, rfl⟩) hlines

/-- Where nothing may be jumped to, there are no labels. -/
theorem labels_eq_nil (hlines : d.Follows h lines h') (hnone : ∀ name, ¬d.targets name) :
    CodeLine.labels lines = [] := by
  induction hlines with
  | nil => rfl
  | cons hline _ ih =>
    cases hline with
    | label htarget => exact absurd htarget (hnone _)
    | branch htarget => exact absurd htarget (hnone _)
    | branchFalse | call | operation | bare => exact ih

/-- Each of the lines may stand where it stands. -/
theorem passes (hlines : d.Follows h (first ++ line :: second) h') :
    ∃ k k', d.Follows h first k ∧ d.Passes k line k' ∧ d.Follows k' second h' := by
  induction first generalizing h with
  | nil =>
    cases hlines with
    | cons hline hlines => exact ⟨h, _, refl h, hline, hlines⟩
  | cons line' first ih =>
    cases hlines with
    | cons hline hlines =>
      obtain ⟨k, k', hfirst, hpasses, hsecond⟩ := ih hlines
      exact ⟨k, k', .cons hline hfirst, hpasses, hsecond⟩

end Follows

end Discipline

/-! ### Expressions -/

/-- An entry stands for a function only if it is one of those that may be called. -/
def Entry.Calls (calls : String → Nat → Prop) (entry : Entry) : Prop :=
  entry.category = .function → ∀ {label : String} {count : Nat}, entry.address.text? = some label →
    entry.size = some (count : Int) → calls label count

/-- All functions that are known in some scopes may be called. -/
def Scopes.Calls (calls : String → Nat → Prop) (scopes : Scopes) : Prop :=
  ∀ scope ∈ scopes, ∀ item ∈ scope.table, item.2.Calls calls

/-- A function that is found may be called. -/
theorem Scopes.Calls.callee {calls : String → Nat → Prop} {scopes : Scopes}
    (hcalls : scopes.Calls calls) {name label : String} {count : Nat}
    (h : callee? scopes name count = some label) : calls label count := by
  simp only [callee?, bind_eq_some] at h
  obtain ⟨entry, hentry, h⟩ := h
  split at h
  · rename_i hcategory
    obtain ⟨scope, hscope, hfound⟩ : ∃ scope ∈ scopes, scope.find? name = some entry := by
      clear hcalls
      induction scopes with
      | nil => cases hentry
      | cons scope outer ih =>
        simp only [Scopes.find?] at hentry
        split at hentry
        · rename_i hscope
          exact ⟨scope, by simp, hscope.trans hentry⟩
        · obtain ⟨found, hmem, hfound⟩ := ih hentry
          exact ⟨found, by simp [hmem], hfound⟩
    exact hcalls scope hscope _ (Scope.mem_of_find? hfound) hcategory.1 h hcategory.2.1
  · cases h

namespace Expr

/-- The number of values that an expression leaves on the stack. -/
def results {level : Level} (e : Expr level) : Nat :=
  match level with
  | .arguments => e.count
  | _ => 1

/-- Whether an expression has no logical operators. -/
def exact : {level : Level} → Expr level → Bool
  | _, .group inner => inner.exact
  | _, .call _ given => given.exact
  | _, .factor only => only.exact
  | _, .times left _ right => left.exact && right.exact
  | _, .product only => only.exact
  | _, .plus left _ right => left.exact && right.exact
  | _, .sum only => only.exact
  | _, .compare left sign right =>
    sign.operation.effect? = some (2, 1) && left.exact && right.exact
  | _, .logical only => only.exact
  | _, .assign _ value => value.exact
  | _, .argument only => only.exact
  | _, .further before last => before.exact && last.exact
  | _, _ => true

end Expr

/-- A discipline allows the operations that values are computed with. -/
def Discipline.Computes (d : Discipline) : Prop :=
  ∀ {operation : Operation}, operation.computes = true → d.operations operation

/-- An operation that computes is allowed. -/
theorem Discipline.Computes.passes {d : Discipline} (hcomputes : d.Computes) {operation : Operation}
    (hoperation : operation.computes = true) {h h' : Nat} {operand : String}
    (hshifts : d.Shifts operation h h') : d.Passes h (operation.line operand) h' :=
  .operation (Operation.goesOn_of_computes hoperation) (hcomputes hoperation) hshifts

namespace Expr

section Follows

variable {d : Discipline} {scopes : Scopes}

/-- An operation with two operands. -/
theorem follows_binary (hcomputes : d.Computes) {operation : Operation}
    (hoperation : operation.computes = true) {first second : List CodeLine} {h : Nat}
    (hfirst : d.Follows h first (h + 1)) (hsecond : d.Follows (h + 1) second (h + 1 + 1))
    (heffect : d.counted → operation.effect? = some (2, 1)) :
    d.Follows h (first ++ second ++ [operation.line ""]) (h + 1) :=
  (hfirst.append hsecond).snoc (hcomputes.passes hoperation fun hc =>
    ⟨2, 1, h, heffect hc, rfl, rfl⟩)

/-- **Expressions**: the code follows a discipline and leaves the values. -/
theorem follows (hcalls : scopes.Calls d.calls) (hcomputes : d.Computes) {level : Level}
    {e : Expr level}
    (hexact : d.counted → e.exact = true) {lines : List CodeLine} (h : e.code scopes = some lines)
    (height : Nat) : d.Follows height lines (height + e.results) := by
  induction e generalizing lines height with
  | number value =>
    obtain rfl := Option.some.inj h
    exact Discipline.Follows.refl height |>.snoc (hcomputes.passes rfl fun _ =>
      ⟨0, 1, height, rfl, rfl, rfl⟩)
  | «variable» target =>
    obtain ⟨cell, -, rfl⟩ := Option.map_eq_some_iff.1 h
    exact Discipline.Follows.refl height |>.snoc (hcomputes.passes rfl fun _ =>
      ⟨0, 1, height, rfl, rfl, rfl⟩)
  | plainCall name =>
    obtain ⟨label, hlabel, rfl⟩ := Option.map_eq_some_iff.1 h
    exact Discipline.Follows.refl height |>.snoc (.call (hcalls.callee hlabel) fun _ =>
      ⟨height, rfl, rfl⟩)
  | call name given ih =>
    simp only [code, bind_eq_some, Option.some.injEq] at h
    obtain ⟨first, hfirst, label, hlabel, rfl⟩ := h
    exact (ih hexact hfirst height).snoc (.call (hcalls.callee hlabel) fun _ =>
      ⟨height, rfl, rfl⟩)
  | group inner ih | factor inner ih | product inner ih | sum inner ih | logical inner ih
  | argument inner ih => exact ih hexact h height
  | times left sign right ihLeft ihRight | plus left sign right ihLeft ihRight =>
    simp only [exact, Bool.and_eq_true] at hexact
    simp only [code, bind_eq_some, Option.some.injEq] at h
    obtain ⟨first, hfirst, second, hsecond, rfl⟩ := h
    exact follows_binary hcomputes sign.computes.1 (ihLeft (fun hc => (hexact hc).1) hfirst height)
      (ihRight (fun hc => (hexact hc).2) hsecond (height + 1)) fun _ => sign.computes.2
  | compare left sign right ihLeft ihRight =>
    simp only [exact, Bool.and_eq_true, decide_eq_true_eq] at hexact
    simp only [code, bind_eq_some, Option.some.injEq] at h
    obtain ⟨first, hfirst, second, hsecond, rfl⟩ := h
    exact follows_binary hcomputes sign.computes (ihLeft (fun hc => (hexact hc).1.2) hfirst height)
      (ihRight (fun hc => (hexact hc).2) hsecond (height + 1)) fun hc => (hexact hc).1.1
  | assign target value ih =>
    simp only [code, bind_eq_some, Option.some.injEq] at h
    obtain ⟨cell, -, first, hfirst, rfl⟩ := h
    exact (ih hexact hfirst height).snoc (hcomputes.passes rfl fun _ =>
      ⟨1, 1, height, rfl, rfl, rfl⟩)
  | further before last ihBefore ihLast =>
    simp only [exact, Bool.and_eq_true] at hexact
    simp only [code, bind_eq_some, Option.some.injEq] at h
    obtain ⟨first, hfirst, second, hsecond, rfl⟩ := h
    exact (ihBefore (fun hc => (hexact hc).1) hfirst height).append
      (ihLast (fun hc => (hexact hc).2) hsecond (height + before.count))

end Follows

end Expr

/-- A discipline without jumps and without input or output. -/
def Discipline.straight : Discipline :=
  ⟨fun _ _ => True, fun _ => False, fun operation => operation.computes = true, False⟩

theorem Scopes.Calls.straight (scopes : Scopes) : scopes.Calls Discipline.straight.calls :=
  fun _ _ _ _ _ _ _ _ _ => trivial

/-- The code of an expression has no labels. -/
theorem Expr.labels_code {scopes : Scopes} {level : Level} {e : Expr level} {lines : List CodeLine}
    (h : e.code scopes = some lines) : CodeLine.labels lines = [] :=
  (Expr.follows (.straight scopes) id False.elim h 0).labels_eq_nil fun _ => id

/-! ### Declarations -/

section Declarations

variable {d : Discipline} {scopes scopes' : Scopes}

/-- A name is entered into the innermost scope. If it stands for a function, this may be called. -/
theorem Scopes.Calls.enter {calls : String → Nat → Prop} (h : scopes.Calls calls)
    {name label : String} {category : Category} {size : Int}
    (hnew : category = .function → ∀ count : Nat, size = count → calls label count)
    (henter : scopes.enter? name category size label = some scopes') : scopes'.Calls calls := by
  simp only [Scopes.enter?, Option.map_eq_some_iff] at henter
  obtain ⟨_, -, rfl⟩ := henter
  cases scopes with
  | nil => exact h
  | cons scope outer =>
    by_cases hheld : (scope.find? name).isSome
    · simpa [Scopes.put?, Scope.put?, hheld] using h
    · have hinsert : ∃ entry : Entry, entry.Calls calls ∧
          (scope.insert name category size label).table = (name, entry) :: scope.table := by
        unfold Scope.insert
        by_cases hcategory : category = .function
        · refine ⟨⟨.label label, category, some size⟩, fun _ found count hfound hcount => ?_,
            by rw [if_pos hcategory]⟩
          obtain rfl := Option.some.inj hfound
          exact hnew hcategory count (Option.some.inj hcount)
        · rw [if_neg hcategory]
          split
          · exact ⟨_, fun hfunction => absurd hfunction hcategory, rfl⟩
          · exact ⟨_, fun hfunction => absurd hfunction hcategory, rfl⟩
      obtain ⟨entry, hentry, htable⟩ := hinsert
      intro inner hinner item hitem
      simp only [Scopes.put?, Scope.put?, hheld, Bool.false_eq_true, if_false, Option.map_some,
        Option.getD_some, mem_cons] at hinner
      rcases hinner with rfl | hinner
      · rw [htable, mem_cons] at hitem
        rcases hitem with rfl | hitem
        · exact hentry
        · exact h scope mem_cons_self item hitem
      · exact h inner (mem_cons_of_mem _ hinner) item hitem

/-- A value is stored and dropped. -/
theorem Discipline.Computes.stored (hcomputes : d.Computes) (cell : String) (h : Nat) :
    d.Follows (h + 1) [Operation.store.line cell, Operation.pop.line ""] h :=
  .cons (hcomputes.passes rfl fun _ => ⟨1, 1, h, rfl, rfl, rfl⟩)
    (.cons (hcomputes.passes rfl fun _ => ⟨1, 0, h, rfl, rfl, rfl⟩) (.refl h))

/-- Cells that are set to zero. -/
theorem zeros?_follows (hcomputes : d.Computes) {inFrame : Bool} {address : String} {offset : Int}
    {count : Nat} {lines : List CodeLine} (h : zeros? inFrame address offset count = some lines) :
    d.Follows 0 lines 0 := by
  induction count generalizing offset lines with
  | zero =>
    obtain rfl := Option.some.inj h
    exact .refl 0
  | succ count ih =>
    simp only [zeros?, bind_eq_some, Option.some.injEq] at h
    obtain ⟨cell, -, rest, hrest, rfl⟩ := h
    exact .cons (hcomputes.passes rfl fun _ => ⟨0, 1, 0, rfl, rfl, rfl⟩)
      ((hcomputes.stored cell 0).append (ih hrest))

variable (hcalls : scopes.Calls d.calls)

include hcalls

/-- Elements that get their initial values. -/
theorem elements?_follows (hcomputes : d.Computes) {address : String} {size : Int} {index : Nat}
    {values : List (Expr .logical)} (hexact : d.counted → ∀ value ∈ values, value.exact = true)
    {lines : List CodeLine} (h : elements? scopes address size index values = some lines) :
    d.Follows 0 lines 0 := by
  induction values generalizing index lines with
  | nil =>
    obtain rfl := Option.some.inj h
    exact .refl 0
  | cons value values ih =>
    simp only [elements?, bind_eq_some, Option.some.injEq] at h
    obtain ⟨first, hfirst, stored, hstored, rest, hrest, rfl⟩ := h
    have hvalue := Expr.follows hcalls hcomputes (fun hc => hexact hc value mem_cons_self) hfirst 0
    have hkept : d.Follows 1 stored 0 := by
      unfold element? at hstored
      split at hstored
      · obtain ⟨cell, -, rfl⟩ := Option.map_eq_some_iff.1 hstored
        exact hcomputes.stored cell 0
      · obtain rfl := Option.some.inj hstored
        exact .cons (hcomputes.passes rfl fun _ => ⟨1, 0, 0, rfl, rfl, rfl⟩) (.refl 0)
    exact (hvalue.append hkept).append
      (ih (fun hc v hv => hexact hc v (mem_cons_of_mem _ hv)) hrest)

/-- Whether the initial values have no logical operators. -/
def Declarator.exact : Declarator → Bool
  | .initial _ value => value.exact
  | .filled _ _ values => values.all Expr.exact
  | _ => true

/-- The code of a declarator. -/
theorem Declarator.follows {declarator : Declarator} (hcomputes : d.Computes)
    (hexact : d.counted → declarator.exact = true) {declared : Declared}
    (h : declarator.code scopes = some declared) :
    declared.scopes.Calls d.calls ∧ d.Follows 0 declared.lines 0 := by
  have hentered : ∀ {name : String} {category : Category} {size : Int} {scopes' : Scopes},
      category ≠ .function → scopes.enter? name category size "" = some scopes' →
      scopes'.Calls d.calls :=
    fun hcategory henter => hcalls.enter (fun hfunction => absurd hfunction hcategory) henter
  cases declarator with
  | plain name =>
    simp only [Declarator.code, Option.map_eq_some_iff] at h
    obtain ⟨scopes', henter, rfl⟩ := h
    exact ⟨hentered (by decide) henter, .refl 0⟩
  | initial name value =>
    simp only [Declarator.code, bind_eq_some, Option.some.injEq] at h
    obtain ⟨scopes', henter, lines, hlines, entry, -, cell, -, rfl⟩ := h
    have hcalls' := hentered (by decide) henter
    exact ⟨hcalls', (Expr.follows hcalls' hcomputes hexact hlines 0).append
      (hcomputes.stored cell 0)⟩
  | array name length =>
    simp only [Declarator.code, bind_eq_some, Option.map_eq_some_iff] at h
    obtain ⟨size, -, scopes', henter, rfl⟩ := h
    exact ⟨hentered (by decide) henter, .refl 0⟩
  | filled name length values =>
    simp only [Declarator.code, bind_eq_some] at h
    obtain ⟨size, -, scopes', henter, h⟩ := h
    split at h
    · cases h
    simp only [initial?, bind_eq_some, Option.some.injEq] at h
    obtain ⟨lines, ⟨entry, -, limit, -, address, -, first, hfirst, rest, hrest, rfl⟩, rfl⟩ := h
    have hcalls' := hentered (by decide) henter
    have hvalues : d.counted → ∀ value ∈ values, value.exact = true := fun hc =>
      all_eq_true.1 (hexact hc)
    exact ⟨hcalls', (elements?_follows hcalls' hcomputes hvalues hfirst).append
      (zeros?_follows hcomputes hrest)⟩

/-- **Declarations**: the code follows a discipline and leaves nothing on the stack. -/
theorem declared?_follows {ds : List Declarator} (hcomputes : d.Computes)
    (hexact : d.counted → ds.all Declarator.exact = true) {all : Declared}
    (h : declared? scopes ds = some all) : all.scopes.Calls d.calls ∧ d.Follows 0 all.lines 0 := by
  induction ds generalizing scopes all with
  | nil =>
    obtain rfl := Option.some.inj h
    exact ⟨hcalls, .refl 0⟩
  | cons declarator ds ih =>
    simp only [declared?, bind_eq_some, Option.some.injEq] at h
    obtain ⟨first, hfirst, others, hothers, rfl⟩ := h
    simp only [all_cons, Bool.and_eq_true] at hexact
    obtain ⟨hcalls', hlines⟩ :=
      Declarator.follows hcalls hcomputes (fun hc => (hexact hc).1) hfirst
    obtain ⟨hcalls'', hlines'⟩ := ih hcalls' (fun hc => (hexact hc).2) hothers
    exact ⟨hcalls'', hlines.append hlines'⟩

/-- The values of the parameters are taken from the stack. -/
theorem parametersCode_follows {names : List String} (hcomputes : d.Computes)
    {taken : List (List CodeLine)} (htaken : d.Follows taken.length taken.flatten 0)
    {all : List (List CodeLine) × Scopes} (h : parametersCode scopes taken names = some all) :
    all.2.Calls d.calls ∧ d.Follows (taken.length + names.length) all.1.flatten 0 := by
  induction names generalizing scopes taken with
  | nil =>
    obtain rfl := Option.some.inj h
    exact ⟨hcalls, htaken⟩
  | cons name names ih =>
    simp only [parametersCode, parameterCode, bind_eq_some, Option.some.injEq] at h
    obtain ⟨_, ⟨inner, henter, entry, -, cell, -, rfl⟩, hrest⟩ := h
    have hcalls' := hcalls.enter (fun hfunction => absurd hfunction (by decide)) henter
    have hfirst : d.Follows (taken.length + 1) ([.command Operation.store.mnemonic cell,
        .bare Operation.pop.mnemonic] ++ taken.flatten) 0 :=
      .cons (hcomputes.passes rfl fun _ => ⟨1, 1, taken.length, rfl, rfl, rfl⟩)
        (.cons (.bare rfl (hcomputes rfl) fun _ => ⟨1, 0, taken.length, rfl, rfl, rfl⟩) htaken)
    rw [← flatten_cons, ← length_cons] at hfirst
    simpa [Nat.add_assoc, Nat.add_comm 1] using ih hcalls' hfirst hrest

end Declarations

/-! ### Statements -/

/-- Whether the code of an expression has a single line. -/
def Expr.single : {level : Level} → Expr level → Bool
  | _, .number _ => true
  | _, .variable _ => true
  | _, .plainCall _ => true
  | _, .group inner => inner.single
  | _, .factor only => only.single
  | _, .product only => only.single
  | _, .sum only => only.single
  | _, .logical only => only.single
  | _, _ => false

/-- An expression of a single line has one. -/
theorem Expr.length_code {scopes : Scopes} {level : Level} {e : Expr level}
    (hsingle : e.single = true)
    {lines : List CodeLine} (h : e.code scopes = some lines) : lines.length = 1 := by
  induction e with
  | number value =>
    obtain rfl := Option.some.inj h
    rfl
  | «variable» target | plainCall name =>
    obtain ⟨_, -, rfl⟩ := Option.map_eq_some_iff.1 h
    rfl
  | group inner ih | factor inner ih | product inner ih | sum inner ih | logical inner ih =>
    exact ih hsingle h
  | _ => exact Bool.noConfusion hsingle

namespace Stmt

/-- Whether every jump stands in a loop of its function, or at least in a switch if it is spelled
`break`. The flags say whether there is a loop or a switch around the statement, and whether there
is a loop. -/
def placed (inside looped : Bool) : {part : Part} → Stmt part → Bool
  | _, .compound body => body.placed inside looped
  | _, .ifThen _ _ body => body.placed inside looped
  | _, .ifElse _ _ body otherwise => body.placed inside looped && otherwise.placed inside looped
  | _, .while _ _ body => body.placed true true
  | _, .doWhile body _ => body.placed true true
  | _, .for _ _ _ _ body => body.placed true true
  | _, .switch _ _ _ body rest => body.placed true looped && rest.placed true looped
  | _, .jump keyword => if keyword.text = "break" then inside else looped
  | _, .next first rest => first.placed inside looped && rest.placed inside looped
  | _, .default _ body => body.placed inside looped
  | _, .clause _ _ body rest => body.placed inside looped && rest.placed inside looped
  | _, _ => true

/-- Whether there is no clause with a number at the head of some clauses. -/
def lone : {part : Part} → Stmt part → Bool
  | _, .clause _ _ _ _ => false
  | _, _ => true

/-- Whether a statement leaves nothing on the stack: it has no logical operators and no for
statements, and a switch with a second number is over a value whose code has a single line. -/
def exact : {part : Part} → Stmt part → Bool
  | _, .expression value => value.exact
  | _, .write _ value => value.exact
  | _, .compound body => body.exact
  | _, .ifThen _ test body => test.exact && body.exact
  | _, .ifElse _ test body otherwise => test.exact && body.exact && otherwise.exact
  | _, .while _ test body => test.exact && body.exact
  | _, .doWhile body test => body.exact && test.exact
  | _, .for _ _ _ _ _ => false
  | _, .switch test _ _ body rest =>
    test.exact && (test.single || rest.lone) && body.exact && rest.exact
  | _, .return value => value.exact
  | _, .next first rest => first.exact && rest.exact
  | _, .default _ body => body.exact
  | _, .clause _ _ body rest => body.exact && rest.exact
  | _, _ => true

end Stmt

/-- The labels at which jumps go on, as far as they are needed, may be jumped to. -/
structure Marks.Aimed (m : Marks) (d : Discipline) (inside looped : Bool) : Prop where
  breaks : inside = true → ∃ name, m.breakLabel = some name ∧ d.targets name
  continues : looped = true → ∃ name, m.continueLabel = some name ∧ d.targets name

/-- A placed jump goes to a label that may be jumped to. -/
theorem Marks.Aimed.jump {m : Marks} {d : Discipline} {inside looped : Bool}
    (h : m.Aimed d inside looped) {keyword : Jump} (hplaced : (Stmt.jump keyword).placed inside
    looped = true) :
    d.targets (Generate.jumpTarget (keyword.target m)) := by
  simp only [Stmt.placed] at hplaced
  unfold Jump.target
  split at hplaced
  · rename_i hbreak
    obtain ⟨name, hname, htarget⟩ := h.breaks hplaced
    rw [if_pos hbreak, hname]
    exact htarget
  · rename_i hbreak
    obtain ⟨name, hname, htarget⟩ := h.continues hplaced
    rw [if_neg hbreak, hname]
    exact htarget

section Statements

variable {d : Discipline} {scopes : Scopes}

/-- A discipline allows all operations that go on with the next line. -/
def Discipline.GoesOn (d : Discipline) : Prop :=
  ∀ {operation : Operation}, operation.goesOn = true → d.operations operation

theorem Discipline.GoesOn.computes (h : d.GoesOn) : d.Computes := fun hoperation =>
  h (Operation.goesOn_of_computes hoperation)

/-- The test of a clause. -/
theorem follows_clauseTest (hcomputes : d.Computes) (number : Numeral) {next : String}
    (hnext : d.targets next) : d.Follows 1 (clauseTest number next) 0 :=
  .cons (hcomputes.passes rfl fun _ => ⟨0, 1, 1, rfl, rfl, rfl⟩)
    (.cons (hcomputes.passes rfl fun _ => ⟨2, 1, 0, rfl, rfl, rfl⟩)
      (.branchFalse hnext (.refl 0)))

/-- The clauses of a switch define the labels that are open before them. -/
theorem Stmt.Coded.opens {result : String} {s : Stmt .clauses} {opened : Opened} {m m' : Marks}
    {lines : List CodeLine} (h : Coded .lasting scopes result s (some opened) m lines m') :
    .label opened.clauses.test ∈ lines ∧ .label opened.clauses.body ∈ lines := by
  cases h <;> simp

/-- **Statements** follow a discipline if their jumps are placed. -/
theorem Stmt.follows (hcalls : scopes.Calls d.calls) (hgoes : d.GoesOn) {result : String}
    {part : Part} {s : Stmt part} {opened : Option Opened} {m m' : Marks} {lines : List CodeLine}
    (h : Coded .lasting scopes result s opened m lines m')
    (hopened : s.lone = false → ∀ o, opened = some o → d.Passes 0 o.line 1) {inside looped : Bool}
    (hplaced : s.placed inside looped = true) (haimed : m.Aimed d inside looped)
    (hlabels : ∀ name, CodeLine.label name ∈ lines → d.targets name)
    (hexact : d.counted → s.exact = true) :
    d.Follows 0 lines 0 ∧ m'.Aimed d inside looped := by
  have hcomputes : d.Computes := hgoes.computes
  have hvalue : ∀ {e : Expr .expression} {lines : List CodeLine}, (d.counted → e.exact = true) →
      e.code scopes = some lines → d.Follows 0 lines 1 := fun hexact h =>
    Expr.follows hcalls hcomputes hexact h 0
  induction h generalizing inside looped with
  | empty | done => exact ⟨.refl 0, haimed⟩
  | expression hlines =>
    exact ⟨(hvalue hexact hlines).snoc (hcomputes.passes rfl fun _ => ⟨1, 0, 0, rfl, rfl, rfl⟩),
      haimed⟩
  | read =>
    exact ⟨.cons (.operation rfl (hgoes rfl) fun _ => ⟨0, 1, 0, rfl, rfl, rfl⟩)
      (hcomputes.stored _ 0), haimed⟩
  | write hlines =>
    exact ⟨(hvalue hexact hlines).snoc (.operation rfl (hgoes rfl) fun _ =>
      ⟨1, 0, 0, rfl, rfl, rfl⟩), haimed⟩
  | compound _ ih => exact ih (by simp) hplaced haimed hlabels hexact
  | ifThen htest _ ih =>
    simp only [exact, Bool.and_eq_true] at hexact
    obtain ⟨hbody, haimed'⟩ := ih (by simp) hplaced ⟨haimed.breaks, haimed.continues⟩
      (fun name hname => hlabels name (by simp [hname])) fun hc => (hexact hc).2
    have hfirst := hvalue (fun hc => (hexact hc).1) htest
    exact ⟨((hfirst.append (.branchFalse (hlabels _ (by simp)) (.refl 0))).append hbody).append
      (.branch (hlabels _ (by simp)) (.label (hlabels _ (by simp))
        (.label (hlabels _ (by simp)) (.refl 0)))), haimed'⟩
  | ifElse htest _ _ ih ih' =>
    simp only [exact, Bool.and_eq_true] at hexact
    simp only [placed, Bool.and_eq_true] at hplaced
    obtain ⟨hbody, haimed'⟩ := ih (by simp) hplaced.1 ⟨haimed.breaks, haimed.continues⟩
      (fun name hname => hlabels name (by simp [hname])) fun hc => (hexact hc).1.2
    obtain ⟨hother, haimed''⟩ := ih' (by simp) hplaced.2 haimed'
      (fun name hname => hlabels name (by simp [hname])) fun hc => (hexact hc).2
    have hfirst := hvalue (fun hc => (hexact hc).1.1) htest
    exact ⟨((((hfirst.append (.branchFalse (hlabels _ (by simp)) (.refl 0))).append hbody).append
      (.branch (hlabels _ (by simp)) (.label (hlabels _ (by simp)) (.refl 0)))).append
      hother).append
      (.label (hlabels _ (by simp)) (.refl 0)), haimed''⟩
  | «while» htest _ ih =>
    simp only [exact, Bool.and_eq_true] at hexact
    obtain ⟨hbody, haimed'⟩ := ih (by simp) hplaced
      ⟨fun _ => ⟨_, rfl, hlabels _ (by simp)⟩, fun _ => ⟨_, rfl, hlabels _ (by simp)⟩⟩
      (fun name hname => hlabels name (by simp [hname])) fun hc => (hexact hc).2
    have hfirst := hvalue (fun hc => (hexact hc).1) htest
    exact ⟨((((Discipline.Follows.refl 0 |>.label (hlabels _ (by simp))).append hfirst).append
      (.branchFalse (hlabels _ (by simp)) (.refl 0))).append hbody).append
      (.branch (hlabels _ (by simp)) (.label (hlabels _ (by simp)) (.refl 0))),
      fun _ => haimed'.breaks rfl, fun _ => haimed'.continues rfl⟩
  | doWhile _ htest ih =>
    simp only [exact, Bool.and_eq_true] at hexact
    obtain ⟨hbody, haimed'⟩ := ih (by simp) hplaced
      ⟨fun _ => ⟨_, rfl, hlabels _ (by simp)⟩, fun _ => ⟨_, rfl, hlabels _ (by simp)⟩⟩
      (fun name hname => hlabels name (by simp [hname])) fun hc => (hexact hc).1
    have hfirst := hvalue (fun hc => (hexact hc).2) htest
    exact ⟨(((Discipline.Follows.refl 0 |>.label (hlabels _ (by simp))).append hbody).append
      hfirst).append (.branchFalse (hlabels _ (by simp)) (.branch (hlabels _ (by simp))
        (.label (hlabels _ (by simp)) (.refl 0)))),
      fun _ => haimed'.breaks rfl, fun _ => haimed'.continues rfl⟩
  | «for» hfirst htest hstep _ ih =>
    -- the height is not known here
    have hnot : ¬d.counted := fun hc => Bool.noConfusion (hexact hc)
    obtain ⟨hbody, haimed'⟩ := ih (by simp) hplaced
      ⟨fun _ => ⟨_, rfl, hlabels _ (by simp)⟩, fun _ => ⟨_, rfl, hlabels _ (by simp)⟩⟩
      (fun name hname => hlabels name (by simp [hname])) fun hc => absurd hc hnot
    have hvalue' : ∀ {e : Expr .expression} {lines : List CodeLine}, e.code scopes = some lines →
        d.Follows 0 lines 1 := hvalue fun hc => absurd hc hnot
    have hkept : ∀ {name : String}, d.targets name → d.Follows 1 [.label name] 0 := fun htarget =>
      (Discipline.Follows.refl 0).label htarget |>.of_start fun hc => absurd hc hnot
    have hback : ∀ {name name' : String}, d.targets name → d.targets name' →
        d.Follows 1 [Operation.branch.line name, .label name'] 0 := fun htarget htarget' =>
      ((Discipline.Follows.refl 0).label htarget').branch htarget |>.of_start fun hc =>
        absurd hc hnot
    exact ⟨((((((hvalue' hfirst).append (hkept (hlabels _ (by simp)))).append
      (hvalue' htest)).append (.branchFalse (hlabels _ (by simp)) (.branch (hlabels _ (by simp))
        (.label (hlabels _ (by simp)) (.refl 0))))).append (hvalue' hstep)).append
      (hback (hlabels _ (by simp)) (hlabels _ (by simp)))).append hbody |>.append
      (.branch (hlabels _ (by simp)) (.label (hlabels _ (by simp)) (.refl 0))),
      fun _ => haimed'.breaks rfl, fun _ => haimed'.continues rfl⟩
  | @switch _ _ number _ rest _ _ _ _ line _ _ _ htest hline _ hrest ih ih' =>
    simp only [exact, Bool.and_eq_true, Bool.or_eq_true] at hexact
    simp only [placed, Bool.and_eq_true] at hplaced
    have hfirst := hvalue (fun hc => (hexact hc).1.1.1) htest
    have hagain : rest.lone = false → d.Passes 0 line 1 := fun hlone => by
      obtain ⟨before, hbefore⟩ := getLast?_eq_some_iff.1 hline
      rw [hbefore] at hfirst
      obtain ⟨k, k', hk, hpasses, hk'⟩ := hfirst.passes
      refine hpasses.congr (fun hc => ?_) fun hc => ?_
      · have hsingle := (hexact hc).1.1.2.resolve_right (by simp [hlone])
        have hlength := Expr.length_code hsingle htest
        obtain rfl : before = [] := by simpa [hbefore] using hlength
        cases hk with
        | nil hheight => exact hheight hc
      · cases hk' with
        | nil hheight => exact (hheight hc).symm
    obtain ⟨hbody, haimed'⟩ := ih (by simp) hplaced.1
      ⟨fun _ => ⟨_, rfl, hlabels _ (by simp)⟩, haimed.continues⟩
      (fun name hname => hlabels name (by simp [hname])) fun hc => (hexact hc).1.2
    obtain ⟨hmore, haimed''⟩ := ih' (by simpa using hagain) hplaced.2 haimed'
      (fun name hname => hlabels name (by simp [hname])) fun hc => (hexact hc).2
    have hopens := hrest.opens
    exact ⟨((((hfirst.append (follows_clauseTest hcomputes number
      (hlabels _ (by simp [hopens.1])))).append hbody).append
      (.branch (hlabels _ (by simp [hopens.2])) (.refl 0))).append hmore).append
      (.label (hlabels _ (by simp)) (.refl 0)),
      fun _ => haimed''.breaks rfl, haimed''.continues⟩
  | jump => exact ⟨.branch (haimed.jump hplaced) (.refl 0), haimed⟩
  | «return» hlines => exact ⟨(hvalue hexact hlines).append (hcomputes.stored _ 0), haimed⟩
  | next _ _ ih ih' =>
    simp only [exact, Bool.and_eq_true] at hexact
    simp only [placed, Bool.and_eq_true] at hplaced
    obtain ⟨hfirst, haimed'⟩ := ih (by simp) hplaced.1 haimed
      (fun name hname => hlabels name (by simp [hname])) fun hc => (hexact hc).1
    obtain ⟨hrest, haimed''⟩ := ih' (by simp) hplaced.2 haimed'
      (fun name hname => hlabels name (by simp [hname])) fun hc => (hexact hc).2
    exact ⟨hfirst.append hrest, haimed''⟩
  | noClause =>
    exact ⟨.label (hlabels _ (by simp)) (.label (hlabels _ (by simp)) (.refl 0)), haimed⟩
  | default _ ih =>
    obtain ⟨hbody, haimed'⟩ := ih (by simp) hplaced haimed
      (fun name hname => hlabels name (by simp [hname])) hexact
    exact ⟨.label (hlabels _ (by simp)) (.label (hlabels _ (by simp)) hbody), haimed'⟩
  | @clause _ number _ _ opened _ _ _ _ _ _ _ hrest ih ih' =>
    simp only [exact, Bool.and_eq_true] at hexact
    simp only [placed, Bool.and_eq_true] at hplaced
    obtain ⟨hbody, haimed'⟩ := ih (by simp) hplaced.1 ⟨haimed.breaks, haimed.continues⟩
      (fun name hname => hlabels name (by simp [hname])) fun hc => (hexact hc).1
    have hline := hopened rfl opened rfl
    obtain ⟨hmore, haimed''⟩ := ih' (fun _ => by simpa using hline) hplaced.2 haimed'
      (fun name hname => hlabels name (by simp [hname])) fun hc => (hexact hc).2
    have hopens := hrest.opens
    have hagain : d.Follows 0 [.label opened.clauses.test, opened.line] 1 :=
      .label (hlabels _ (by simp)) (.cons hline (.refl 1))
    exact ⟨((((hagain.append (follows_clauseTest hcomputes number
      (hlabels _ (by simp [hopens.1])))).append (.label (hlabels _ (by simp)) (.refl 0))).append
      hbody).append (.branch (hlabels _ (by simp [hopens.2])) (.refl 0))).append hmore, haimed''⟩

end Statements

end ScoreLang
