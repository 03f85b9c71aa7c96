import ScoreLang.Proofs.Correct.Statement
import ScoreLang.Proofs.Stack.Effect

/-!
# What a Switch Does

The clauses of a switch are tested one after the other. The value is on the stack when the first
clause is tested; before every later test it has to be computed again, and the code repeats the
last line of the code of the tested expression for this. One line is enough for a number or a
variable. It is not enough for an operator or an assignment, which finds nothing on the stack then.

The meaning of a switch does not speak of code: the bodies are run from the first clause with the
value on, up to a `break` or to the end of the switch. The code does this if the tested expression
has one line of code, if the first clause has the value, or if no other clause has a number. In
every other case it fails.

## Main definitions

* `Stmt.Exits`: a simple statement leads to a configuration, and is broken off or not;
* `Stmt.Falls`, `Stmt.Selects`: some clauses are run from the first one on, or from the one with a
  value on;
* `Setting.Flows`: a piece of code with two ends realises such a relation.

## Main results

* `Setting.flows_stmt`: the code of a simple statement does what the statement means;
* `Setting.dispatches`: the code of the clauses after the first one;
* `Setting.switch_dispatch`: when the code of a switch does what the switch means.
-/

namespace ScoreLang

open List Machine Text

/-! ### Meaning -/

namespace Stmt

/-- Whether a statement is simple: it is of the core and has no loop, but it may break off. -/
def isSimple : {part : Part} → Stmt part → Bool
  | _, .expression value => value.isCore
  | _, .read _ _ => true
  | _, .write _ value => value.isCore
  | _, .compound body => body.isSimple
  | _, .ifThen _ test body => test.isCore && body.isSimple
  | _, .ifElse _ test body otherwise => test.isCore && body.isSimple && otherwise.isSimple
  | _, .jump keyword => keyword.text = "break"
  | _, .done => true
  | _, .next first rest => first.isSimple && rest.isSimple
  | _, _ => false

/-- Whether the bodies of some clauses are simple, and their numbers can be read. -/
def hasSimpleBodies : {part : Part} → Stmt part → Bool
  | _, .noClause => true
  | _, .default _ body => body.isSimple
  | _, .clause _ number body rest =>
    number.digits.toList.length ≤ maxDigits && body.isSimple && rest.hasSimpleBodies
  | _, _ => false

/-- A simple statement leads from one configuration to another one, and is broken off or not. -/
def Exits (locals : List String) : {part : Part} → Stmt part → Config → Bool → Config → Prop
  | _, .compound body, c, broken, c' => body.Exits locals c broken c'
  | _, .ifThen _ test body, c, broken, c' => ∃ v d, test.Yields locals c v d ∧
    if v = 0 then broken = false ∧ c' = d else body.Exits locals d broken c'
  | _, .ifElse _ test body otherwise, c, broken, c' => ∃ v d, test.Yields locals c v d ∧
    if v = 0 then otherwise.Exits locals d broken c' else body.Exits locals d broken c'
  | _, .jump _, c, broken, c' => broken = true ∧ c' = c
  | _, .next first rest, c, broken, c' =>
    first.Exits locals c true c' ∧ broken = true ∨
      ∃ d, first.Exits locals c false d ∧ rest.Exits locals d broken c'
  | _, s, c, broken, c' => broken = false ∧ s.Runs locals c c'

/-- The bodies of some clauses are run, up to a `break` or to the end. -/
def Falls (locals : List String) : {part : Part} → Stmt part → Config → Config → Prop
  | _, .noClause, c, c' => c' = c
  | _, .default _ body, c, c' => ∃ broken, body.Exits locals c broken c'
  | _, .clause _ _ body rest, c, c' =>
    body.Exits locals c true c' ∨ ∃ d, body.Exits locals c false d ∧ rest.Falls locals d c'
  | _, _, _, _ => False

/-- The bodies of some clauses are run from the first one with a value on. If there is none, only
that of the clause for all other numbers is. -/
def Selects (locals : List String) (v : Int) : {part : Part} → Stmt part → Config → Config → Prop
  | _, .noClause, c, c' => c' = c
  | _, .default _ body, c, c' => ∃ broken, body.Exits locals c broken c'
  | _, .clause keyword number body rest, c, c' =>
    if (number.value : Int) = v then Falls locals (.clause keyword number body rest) c c'
    else rest.Selects locals v c c'
  | _, _, _, _ => False

/-- Whether the clauses begin with one for a number. -/
def testsAgain : {part : Part} → Stmt part → Bool
  | _, .clause _ _ _ _ => true
  | _, _ => false

end Stmt

/-! ### Numbers and variables -/

/-- Whether an expression is a number or a variable, or such a thing in parentheses. -/
def Expr.isLeaf {level : Level} (e : Expr level) : Bool :=
  e.lastOperation = .push || e.lastOperation = .load

/-- An expression of the core is a number or a variable, which has one line of code and does not
change the store, or it ends with an operation that takes a value from the stack. -/
theorem Expr.leaf_or_takes {level : Level} {e : Expr level} (hcore : e.isCore = true)
    {scopes : Scopes} {lines : List CodeLine} (hcode : e.code scopes = some lines) :
    (e.isLeaf = true ∧ lines.length = 1 ∧ ∀ locals store v after,
      e.eval locals store = some (v, after) → after = store) ∨
    (e.isLeaf = false ∧ ∃ taken, e.lastOperation.effect? = some (taken + 1, 1)) := by
  induction e generalizing lines with
  | number value =>
    obtain rfl := Option.some.inj hcode
    refine .inl ⟨rfl, rfl, ?_⟩
    intro locals store v after heval
    exact (Prod.mk.inj (Option.some.inj heval)).2.symm
  | «variable» target =>
    obtain ⟨cell, -, rfl⟩ := Option.map_eq_some_iff.1 hcode
    refine .inl ⟨rfl, rfl, ?_⟩
    intro locals store v after heval
    exact (Prod.mk.inj (Option.some.inj heval)).2.symm
  | group inner ih | factor inner ih | product inner ih | sum inner ih | logical inner ih =>
    exact ih hcore hcode
  | times left sign right =>
    refine .inr ?_
    cases sign with
    | times | slash => exact ⟨rfl, 1, rfl⟩
  | plus left sign right =>
    refine .inr ?_
    cases sign with
    | plus | minus => exact ⟨rfl, 1, rfl⟩
  | compare left sign right =>
    simp only [Expr.isCore, Bool.and_eq_true, decide_eq_true_eq] at hcore
    refine .inr ?_
    cases sign with
    | both => exact absurd rfl hcore.1.2.1
    | either => exact absurd rfl hcore.1.2.2
    | less | greater | lessEqual | greaterEqual | notEqual | equal => exact ⟨rfl, 1, rfl⟩
  | assign target value => exact .inr ⟨rfl, 0, rfl⟩
  | plainCall | call | argument | further => exact Bool.noConfusion hcore

namespace Setting

/-! ### Pieces of code with two ends -/

/-- The machine goes through the code from a place on as a relation says: to one place if it is not
broken off, and to another one if it is. The stack is the same afterwards. -/
structure Flows (S : Setting) (start finish exit : Nat) (R : Config → Bool → Config → Prop) :
    Prop where
  steps : ∀ {c c' : Config} {broken : Bool} (stack : List Int), R c broken c' → c'.Fits →
    ∃ n, Steps S.code n (S.state start stack c)
      (S.state (if broken then exit else finish) stack c')
  grows : ∀ {c c' : Config} {broken : Bool}, R c broken c' → c'.Fits → c.Fits

variable {S : Setting} {start middle finish exit yes no place target : Nat}
  {R Q : Config → Bool → Config → Prop} {test : Config → Int → Config → Prop} {label : String}

namespace Flows

/-- Code that is not broken off. -/
theorem plain {P : Config → Config → Prop}
    (hsteps : ∀ {c c' : Config} (stack : List Int), P c c' → c'.Fits →
      ∃ n, Steps S.code n (S.state start stack c) (S.state finish stack c'))
    (hgrows : ∀ {c c' : Config}, P c c' → c'.Fits → c.Fits) :
    S.Flows start finish exit (fun c broken c' => broken = false ∧ P c c') where
  steps := by
    rintro c c' broken stack ⟨rfl, hP⟩ hfits
    exact hsteps stack hP hfits
  grows := by
    rintro c c' broken ⟨-, hP⟩ hfits
    exact hgrows hP hfits

/-- No code. -/
theorem skip : S.Flows start start exit (fun c broken c' => broken = false ∧ c' = c) :=
  plain (fun _ h _ => ⟨0, h ▸ .refl _⟩) (fun h hfits => h ▸ hfits)

/-- A piece of code after another one, which is left out if the first one is broken off. -/
theorem seq (hfirst : S.Flows start middle exit R) (hsecond : S.Flows middle finish exit Q) :
    S.Flows start finish exit
      (fun c broken c' => R c true c' ∧ broken = true ∨ ∃ d, R c false d ∧ Q d broken c') where
  steps := by
    rintro c c' broken stack (⟨hR, rfl⟩ | ⟨d, hR, hQ⟩) hfits
    · exact hfirst.steps stack hR hfits
    · obtain ⟨n, hn⟩ := hfirst.steps stack hR (hsecond.grows hQ hfits)
      obtain ⟨m, hm⟩ := hsecond.steps stack hQ hfits
      exact ⟨n + m, hn.trans hm⟩
  grows := by
    rintro c c' broken (⟨hR, -⟩ | ⟨d, hR, hQ⟩) hfits
    · exact hfirst.grows hR hfits
    · exact hfirst.grows hR (hsecond.grows hQ hfits)

/-- A test between two pieces of code. -/
theorem choose (htest : S.Tests start yes no test) (hyes : S.Flows yes finish exit R)
    (hno : S.Flows no finish exit Q) :
    S.Flows start finish exit
      (fun c broken c' => ∃ v d, test c v d ∧ if v = 0 then Q d broken c' else R d broken c') where
  steps := by
    rintro c c' broken stack ⟨v, d, hv, hrest⟩ hfits
    obtain ⟨n, hn⟩ := htest.steps stack hv
    by_cases hzero : v = 0
    · rw [if_pos hzero] at hn hrest
      obtain ⟨m, hm⟩ := hno.steps stack hrest hfits
      exact ⟨n + 1 + m, hn.trans hm⟩
    · rw [if_neg hzero] at hn hrest
      obtain ⟨m, hm⟩ := hyes.steps stack hrest hfits
      exact ⟨n + 1 + m, hn.trans hm⟩
  grows := by
    rintro c c' broken ⟨v, d, hv, hrest⟩ hfits
    refine (htest.fits hv).1 ?_
    by_cases hzero : v = 0
    · rw [if_pos hzero] at hrest
      exact hno.grows hrest hfits
    · rw [if_neg hzero] at hrest
      exact hyes.grows hrest hfits

theorem finish_eq (h : S.Flows start finish exit R) (hplace : finish = place) :
    S.Flows start place exit R := hplace ▸ h

/-- A label before the code. -/
theorem label_start (h : S.Flows (start + 1) finish exit R)
    (hlabel : S.lines[start]? = some (.label label)) : S.Flows start finish exit R where
  steps := by
    intro c c' broken stack hR hfits
    rw [state_label hlabel]
    exact h.steps stack hR hfits
  grows := h.grows

/-- A label after the code. -/
theorem label_finish (h : S.Flows start finish exit R)
    (hlabel : S.lines[finish]? = some (.label label)) : S.Flows start (finish + 1) exit R where
  steps := by
    intro c c' broken stack hR hfits
    obtain ⟨n, hn⟩ := h.steps stack hR hfits
    cases broken with
    | true => exact ⟨n, hn⟩
    | false =>
      have hfinish : Steps S.code n (S.state start stack c) (S.state finish stack c') := hn
      rw [state_label hlabel] at hfinish
      exact ⟨n, hfinish⟩
  grows := h.grows

/-- A jump after the code. -/
theorem branch (h : S.Flows start finish exit R) (hne : label ≠ "")
    (hline : S.lines[finish]? = some (Operation.branch.line label))
    (hlabel : S.lines[place]? = some (.label label)) : S.Flows start place exit R where
  steps := by
    intro c c' broken stack hR hfits
    obtain ⟨n, hn⟩ := h.steps stack hR hfits
    cases broken with
    | true => exact ⟨n, hn⟩
    | false => exact ⟨n + 1, hn.trans (moves_branch hne hline hlabel).steps⟩
  grows := h.grows

end Flows

/-! ### Simple statements -/

variable {locals names : List String} {done : Nat} {scopes : Scopes} {lines : List CodeLine}
  {level : Level} {e : Expr level} {result : String} {part : Part}

variable {m m' : Marks} {opened : Opened} {s : Stmt part}

/-- A simple statement does not change where a `break` goes on. -/
theorem breakLabel_eq (hsimple : s.isSimple = true) {opened : Option Opened}
    (h : Stmt.Coded .lasting scopes result s opened m lines m') :
    m'.breakLabel = m.breakLabel := by
  induction h with
  | expression | read | write | jump | done => rfl
  | compound _ ih => exact ih hsimple
  | ifThen _ _ ih =>
    simp only [Stmt.isSimple, Bool.and_eq_true] at hsimple
    exact ih hsimple.2
  | ifElse _ _ _ ihBody ihOther =>
    simp only [Stmt.isSimple, Bool.and_eq_true] at hsimple
    exact (ihOther hsimple.2).trans (ihBody hsimple.1.2)
  | next _ _ ihFirst ihRest =>
    simp only [Stmt.isSimple, Bool.and_eq_true] at hsimple
    exact (ihRest hsimple.2).trans (ihFirst hsimple.1)
  | empty | «while» | doWhile | «for» | switch | «return» | noClause | default | clause =>
    exact Bool.noConfusion hsimple

/-- An expression whose value is dropped. -/
theorem flows_expression (hplaced : Placed S.layout locals names done scopes)
    (hcore : e.isCore = true) (hcode : e.code scopes = some lines)
    (hat : S.Has place (lines ++ [Operation.pop.line ""])) :
    S.Flows place (place + lines.length + 1) exit
      (fun c broken c' => broken = false ∧ ∃ v, e.Yields locals c v c') := by
  refine .plain ?_ ?_
  · rintro c c' stack ⟨v, h⟩ -
    obtain ⟨n, hn⟩ := steps_yields hplaced hcore hcode hat.left h
    exact ⟨n + 1, hn.trans (moves_pop hat.right.head).steps⟩
  · rintro c c' ⟨v, store, -, rfl⟩ hfits
    exact hfits

theorem flows_write (hplaced : Placed S.layout locals names done scopes) (hcore : e.isCore = true)
    (hcode : e.code scopes = some lines) (hat : S.Has place (lines ++ [Operation.output.line ""])) :
    S.Flows place (place + lines.length + 1) exit
      (fun c broken c' => broken = false ∧ ∃ v d, e.Yields locals c v d ∧
        c' = { d with shown := d.shown ++ [.value v] }) := by
  refine .plain ?_ ?_
  · rintro c c' stack ⟨v, d, h, rfl⟩ hfits
    obtain ⟨n, hn⟩ := steps_yields hplaced hcore hcode hat.left h
    have hv : (Shown.value v).Fits := hfits _ (by simp)
    exact ⟨n + 1, hn.trans (moves_output hat.right.head hv).steps⟩
  · rintro c c' ⟨v, d, ⟨store, -, rfl⟩, rfl⟩ hfits item hitem
    exact hfits item (mem_append_left _ hitem)

theorem flows_read {text : String} {cell : Cell} {k : Nat} (htext : Spells text k)
    (hcell : S.layout[k]? = some cell)
    (hat : S.Has place [Operation.input.line "", Operation.store.line text,
    Operation.pop.line ""]) :
    S.Flows place (place + 1 + 1 + 1) exit
      (fun c broken c' => broken = false ∧ ∃ entered rest, c.input = entered :: rest ∧
        c' = ⟨c.store.set cell entered.value, rest, c.shown ++ [.prompt]⟩) := by
  refine .plain ?_ ?_
  · rintro c c' stack ⟨entered, rest, hinput, rfl⟩ -
    exact ⟨_, .head (moves_input hat.head hinput)
      (.head (moves_store hat.tail.head htext hcell) (moves_pop hat.tail.tail.head).steps)⟩
  · rintro c c' ⟨entered, rest, -, rfl⟩ hfits item hitem
    exact hfits item (mem_append_left _ hitem)

/-- **Simple statements**: the code of a simple statement does what the statement means, and goes to
the label for `break` if it is broken off. -/
theorem flows_stmt (hplaced : Placed S.layout locals names done scopes)
    (hsimple : s.isSimple = true) {opened : Option Opened}
    (hcode : Stmt.Coded .lasting scopes result s opened m lines m') (hat : S.Has place lines)
    (hbreak : m.breakLabel = some label) (hne : label ≠ "")
    (hlabel : S.lines[exit]? = some (.label label)) :
    S.Flows place (place + lines.length) exit (s.Exits locals) := by
  induction hcode generalizing place with
  | expression hvalue =>
    rw [length_append, ← Nat.add_assoc]
    exact flows_expression hplaced hsimple hvalue hat
  | read htext =>
    obtain ⟨k, hspells, hcell⟩ := hplaced.cell? htext
    exact flows_read hspells hcell hat
  | write hvalue =>
    rw [length_append, ← Nat.add_assoc]
    exact flows_write hplaced hsimple hvalue hat
  | compound _ ih => exact ih hsimple hat hbreak
  | ifThen hfirst _ ih =>
    simp only [Stmt.isSimple, Bool.and_eq_true] at hsimple
    simp only [append_assoc, cons_append, nil_append] at hat
    have hjump := hat.right
    have hend := hjump.tail.right
    have htest := tests_expr hplaced hsimple.1 hfirst hat.left hjump.head hend.tail.head
    have hyes := (ih hsimple.2 hjump.tail.left hbreak).branch
      (labelName_ne_empty _) hend.head hend.tail.tail.head
    have hboth := Flows.choose htest hyes (Flows.skip.label_finish hend.tail.head)
    refine (hboth.label_finish hend.tail.tail.head).finish_eq ?_
    simp
    omega
  | ifElse hfirst hinner _ ihBody ihOther =>
    simp only [Stmt.isSimple, Bool.and_eq_true] at hsimple
    simp only [append_assoc, cons_append, nil_append] at hat
    have hjump := hat.right
    have helse := hjump.tail.right
    have hend := helse.tail.tail.right
    have htest := tests_expr hplaced hsimple.1.1 hfirst hat.left hjump.head helse.tail.head
    have hyes := (ihBody hsimple.1.2 hjump.tail.left hbreak).branch
      (labelName_ne_empty _) helse.head hend.head
    have hno := (ihOther hsimple.2 helse.tail.tail.left
      ((breakLabel_eq hsimple.1.2 hinner).trans hbreak)).label_start helse.tail.head
    refine ((Flows.choose htest hyes hno).label_finish hend.head).finish_eq ?_
    simp
    omega
  | @jump keyword =>
    have hword : keyword.text = "break" := of_decide_eq_true hsimple
    rw [Jump.target, if_pos hword, hbreak] at hat
    constructor
    · rintro c c' broken stack ⟨rfl, rfl⟩ -
      exact ⟨1, (moves_branch hne hat.head hlabel).steps⟩
    · rintro c c' broken ⟨-, rfl⟩ hfits
      exact hfits
  | done => exact .skip
  | next hfirst _ ihFirst ihRest =>
    simp only [Stmt.isSimple, Bool.and_eq_true] at hsimple
    rw [length_append, ← Nat.add_assoc]
    exact (ihFirst hsimple.1 hat.left hbreak).seq
      (ihRest hsimple.2 hat.right ((breakLabel_eq hsimple.1 hfirst).trans hbreak))
  | empty | «while» | doWhile | «for» | switch | «return» | noClause | default | clause =>
    exact Bool.noConfusion hsimple

/-! ### The value of a switch -/

/-- The test of a clause goes on after it if the value is the number, and at the next test if
not. -/
theorem steps_clauseTest {number : Numeral} {next : String}
    (hshort : number.digits.toList.length ≤ maxDigits) (hne : next ≠ "")
    (hat : S.Has place (clauseTest number next)) (hlabel : S.lines[target]? = some (.label next))
    (v : Int) (stack : List Int) (c : Config) :
    Steps S.code 3 (S.state place (v :: stack) c)
      (S.state (if (number.value : Int) = v then place + (clauseTest number next).length
      else target)
        stack c) := by
  have hdigits : number.digits ≠ "" := fun h => number.digits_ne (by rw [h]; rfl)
  have hread : readInteger number.digits = .ok (number.value : Int) :=
    readInteger_numeral.2 ⟨hshort, rfl⟩
  have hsame := Value.same_integer (number.value : Int) v
  have hsteps : Steps S.code 3 (S.state place (v :: stack) c) (S.state
      (if flag (decide ((number.value : Int) = v)) = 0 then target
        else place + (clauseTest number next).length) stack c) :=
    .head (moves_push hat.head hdigits hread) (.head (moves_comparison hat.tail.head rfl hsame)
      (moves_branchFalse hne hat.tail.tail.head hlabel).steps)
  by_cases hv : (number.value : Int) = v
  · simpa [hv, flag] using hsteps
  · simpa [hv, flag] using hsteps

/-- A line pushes a value and changes nothing else. -/
def Reloads (S : Setting) (line : CodeLine) (v : Int) (c : Config) : Prop :=
  ∀ (place : Nat) (stack : List Int), S.lines[place]? = some line →
    ∃ n, Steps S.code n (S.state place stack c) (S.state (place + 1) (v :: stack) c)

/-- The last line of a number or a variable has its value again. -/
theorem reloads_of_isLeaf (hplaced : Placed S.layout locals names done scopes)
    (hcore : e.isCore = true) (hcode : e.code scopes = some lines) (hleaf : e.isLeaf = true)
    {line : CodeLine} (hline : lines.getLast? = some line) {v : Int} {c d : Config}
    (h : e.Yields locals c v d) : S.Reloads line v d := by
  rcases Expr.leaf_or_takes hcore hcode with ⟨-, hlength, hstore⟩ | ⟨hno, -⟩
  · obtain ⟨only, rfl⟩ := length_eq_one_iff.1 hlength
    obtain rfl := Option.some.inj hline
    obtain ⟨store, heval, rfl⟩ := h
    obtain rfl := hstore _ _ _ _ heval
    intro place stack hplace
    have hat : S.Has place [only] := by
      intro i line hi
      obtain ⟨hlt, rfl⟩ := List.getElem?_eq_some_iff.1 hi
      obtain rfl : i = 0 := by simpa using hlt
      exact hplace
    exact steps_yields hplaced hcore hcode hat ⟨c.store, heval, rfl⟩
  · rw [hno] at hleaf
    exact Bool.noConfusion hleaf

/-- The last line of another expression finds nothing on an empty stack. -/
theorem fails_of_not_isLeaf (hcore : e.isCore = true) (hcode : e.code scopes = some lines)
    (hleaf : e.isLeaf = false) {line : CodeLine} (hline : lines.getLast? = some line)
    (hplace : S.lines[place]? = some line) (c : Config) (ended : Bool) (t : State) :
    ¬Ends (stepAction S.code) (S.state place [] c) ended t := by
  rcases Expr.leaf_or_takes hcore hcode with ⟨hyes, -⟩ | ⟨-, taken, heffect⟩
  · rw [hyes] at hleaf
    exact Bool.noConfusion hleaf
  · obtain ⟨before, operand, rfl⟩ := e.exists_code_eq hcode
    obtain rfl : e.lastOperation.line operand = line := by simpa using hline
    intro hends
    rw [S.holds.ends_step hplace rfl] at hends
    obtain ⟨front, after, rest, hstack, hlength, -⟩ := (perform_exchanges heffect hends.2).stack
    have hnil : front = [] := (append_eq_nil_iff.1 hstack.symm).1
    rw [hnil] at hlength
    exact absurd hlength (Nat.succ_ne_zero taken).symm

/-! ### Clauses -/

/-- The code of some clauses begins with a test and has an entry to the first body. From the entry,
the machine runs the bodies; from the test, it runs them from the one with the value on. -/
structure Dispatches (S : Setting) (locals : List String) {part : Part} (s : Stmt part)
    (opened : Opened) (place exit : Nat) : Prop where
  test : S.lines[place]? = some (.label opened.clauses.test)
  falls : ∃ entry, S.lines[entry]? = some (.label opened.clauses.body) ∧
    ∀ (c c' : Config) (stack : List Int), s.Falls locals c c' → c'.Fits →
      ∃ n, Steps S.code n (S.state entry stack c) (S.state exit stack c')
  grows : ∀ c c' : Config, s.Falls locals c c' → c'.Fits → c.Fits
  selects : ∀ (v : Int) (c c' : Config) (stack : List Int),
    (s.testsAgain = true → S.Reloads opened.line v c) → s.Selects locals v c c' → c'.Fits →
      ∃ n, Steps S.code n (S.state place stack c) (S.state exit stack c')

/-- A body before some clauses: it is run, and then those after it unless it is broken off. -/
theorem Flows.falls (hbody : S.Flows start finish exit R) {P : Config → Config → Prop}
    (hrest : ∀ (c c' : Config) (stack : List Int), P c c' → c'.Fits →
      ∃ n, Steps S.code n (S.state finish stack c) (S.state exit stack c'))
    (hgrows : ∀ c c' : Config, P c c' → c'.Fits → c.Fits) (c c' : Config) (stack : List Int)
    (h : R c true c' ∨ ∃ d, R c false d ∧ P d c') (hfits : c'.Fits) :
    ∃ n, Steps S.code n (S.state start stack c) (S.state exit stack c') := by
  rcases h with h | ⟨d, hR, hP⟩
  · exact hbody.steps stack h hfits
  · obtain ⟨n, hn⟩ := hbody.steps stack hR (hgrows d c' hP hfits)
    obtain ⟨m, hm⟩ := hrest d c' stack hP hfits
    exact ⟨n + m, hn.trans hm⟩

/-- After the test of a clause, the bodies are run from its own on or the tests go on. -/
theorem Dispatches.select {t : State} {bodies n : Nat} {keyword : Spelling "case"}
    {number : Numeral} {body : Stmt .statements} {rest : Stmt .clauses}
    (hrest : S.Dispatches locals rest opened place exit) {v : Int} {c c' : Config}
    {stack : List Int} (h : (Stmt.clause keyword number body rest).Selects locals v c c')
    (hfits : c'.Fits) (hfalls : ∀ (c c' : Config) (stack : List Int),
      (Stmt.clause keyword number body rest).Falls locals c c' → c'.Fits →
        ∃ n, Steps S.code n (S.state bodies stack c) (S.state exit stack c'))
    (hsteps : Steps S.code n t
      (S.state (if (number.value : Int) = v then bodies else place) stack c))
    (hload : (number.value : Int) ≠ v → rest.testsAgain = true → S.Reloads opened.line v c) :
    ∃ n, Steps S.code n t (S.state exit stack c') := by
  by_cases hv : (number.value : Int) = v
  · rw [if_pos hv] at hsteps
    simp only [Stmt.Selects, if_pos hv] at h
    obtain ⟨k, hk⟩ := hfalls c c' stack h hfits
    exact ⟨n + k, hsteps.trans hk⟩
  · rw [if_neg hv] at hsteps
    simp only [Stmt.Selects, if_neg hv] at h
    obtain ⟨k, hk⟩ := hrest.selects v c c' stack (hload hv) h hfits
    exact ⟨n + k, hsteps.trans hk⟩

/-- **Clauses**: the code of the clauses after the first one finds the body for the value. -/
theorem dispatches (hplaced : Placed S.layout locals names done scopes)
    (hsimple : s.hasSimpleBodies = true) {given : Option Opened}
    (hcode : Stmt.Coded .lasting scopes result s given m lines m') (hgiven : given = some opened)
    (hat : S.Has place lines) (hbreak : m.breakLabel = some label) (hne : label ≠ "")
    (hlabel : S.lines[exit]? = some (.label label)) (hend : place + lines.length = exit) :
    S.Dispatches locals s opened place exit := by
  induction hcode generalizing place opened with
  | noClause =>
    obtain rfl := Option.some.inj hgiven
    obtain rfl : place + 1 + 1 = exit := hend
    have hskip : ∀ (c c' : Config) (stack : List Int), c' = c → c'.Fits →
        ∃ n, Steps S.code n (S.state (place + 1) stack c) (S.state (place + 1 + 1) stack c') := by
      rintro c _ stack rfl -
      rw [state_label hat.tail.head]
      exact ⟨0, .refl _⟩
    refine ⟨hat.head, ⟨place + 1, hat.tail.head, hskip⟩, fun c c' h hfits => h ▸ hfits, ?_⟩
    intro v c c' stack _ h hfits
    rw [state_label hat.head]
    exact hskip c c' stack h hfits
  | @default _ body _ _ _ _ hinner _ =>
    obtain rfl := Option.some.inj hgiven
    have hbody := (flows_stmt hplaced hsimple hinner hat.tail.tail hbreak hne hlabel).finish_eq
      (by simpa [Nat.add_assoc, Nat.add_comm, Nat.add_left_comm] using hend)
    have hrun : ∀ (c c' : Config) (stack : List Int), (∃ broken, body.Exits locals c broken c') →
        c'.Fits → ∃ n, Steps S.code n (S.state (place + 1) stack c) (S.state exit stack c') := by
      rintro c c' stack ⟨broken, h⟩ hfits
      have hsteps := (hbody.label_start hat.tail.head).steps stack h hfits
      rwa [ite_self] at hsteps
    refine ⟨hat.head, ⟨place + 1, hat.tail.head, hrun⟩, ?_, ?_⟩
    · rintro c c' ⟨broken, h⟩ hfits
      exact hbody.grows h hfits
    · intro v c c' stack _ h hfits
      rw [state_label hat.head]
      exact hrun c c' stack h hfits
  | clause _ hinner _ _ ih =>
    obtain rfl := Option.some.inj hgiven
    simp only [Stmt.hasSimpleBodies, Bool.and_eq_true, decide_eq_true_eq] at hsimple
    simp only [append_assoc, cons_append, nil_append] at hat
    have htest := hat.tail.tail
    have hentry := htest.right
    have hjump := hentry.tail.right
    have hbreak' := (breakLabel_eq hsimple.1.2 hinner).trans hbreak
    have hrest := ih hsimple.2 rfl hjump.tail hbreak' (by
      rw [← hend]
      simp [clauseTest]
      omega)
    obtain ⟨entry, hbodies, hfalls⟩ := hrest.falls
    have hbody := ((flows_stmt hplaced hsimple.1.2 hinner hentry.tail.left hbreak hne hlabel).branch
      (labelName_ne_empty _) hjump.head hbodies).label_start hentry.head
    have hrun := hbody.falls hfalls hrest.grows
    refine ⟨hat.head, ⟨_, hentry.head, hrun⟩, ?_, ?_⟩
    · rintro c c' (h | ⟨d, h, hd⟩) hfits
      · exact hbody.grows h hfits
      · exact hbody.grows h (hrest.grows d c' hd hfits)
    · intro v c c' stack hload h hfits
      obtain ⟨k, hk⟩ := hload rfl _ stack hat.tail.head
      have hsteps := hk.trans (steps_clauseTest hsimple.1.1 (labelName_ne_empty _) htest.left
        hrest.test v stack c)
      rw [state_label hat.head]
      exact hrest.select h hfits hrun hsteps fun _ _ => hload rfl
  | empty | expression | read | write | compound | ifThen | ifElse | «while» | doWhile | «for»
  | switch | jump | «return» | done | next => exact Bool.noConfusion hsimple

/-! ### Switches -/

/-- Before a later test, the last line of the code of the tested expression is repeated. -/
theorem code_of_testsAgain (htests : s.testsAgain = true)
    (hcode : Stmt.Coded .lasting scopes result s (some opened) m lines m') :
    ∃ more, lines = .label opened.clauses.test :: opened.line :: more := by
  cases hcode with
  | clause => exact ⟨_, rfl⟩
  | _ => exact Bool.noConfusion htests

/-- **Switches**: the code of a switch runs the bodies from the first clause with the value on and
leaves the stack as it was, if the tested expression is a number or a variable, if the first clause
has the value, or if no other clause has a number. In every other case, the machine comes to a line
that it cannot perform if the stack is empty before. There are no divisions, whose values need not
be integers, in the tested expression and in the bodies. -/
theorem switch_dispatch (hplaced : Placed S.layout locals names done scopes)
    {test : Expr .expression} {keyword : Spelling "case"} {number : Numeral}
    {body : Stmt .statements} {rest : Stmt .clauses} (hcore : test.isCore = true)
    (hsimple : (Stmt.clause keyword number body rest).hasSimpleBodies = true)
    {opened : Option Opened} {m m' : Marks}
    (hcode : (Stmt.switch test keyword number body rest).code scopes result opened m
      = some (lines, m'))
    (hat : S.Has place lines) {v : Int} {c d : Config} (hyields : test.Yields locals c v d) :
    (test.isLeaf = true ∨ (number.value : Int) = v ∨ rest.testsAgain = false →
      ∀ stack c', (Stmt.clause keyword number body rest).Selects locals v d c' → c'.Fits →
        ∃ n, Steps S.code n (S.state place stack c) (S.state (place + lines.length) stack c')) ∧
    (test.isLeaf = false → (number.value : Int) ≠ v → rest.testsAgain = true →
      ∃ n failing, Steps S.code n (S.state place [] c) (S.state failing [] d) ∧
        ∀ ended t, ¬Ends (stepAction S.code) (S.state failing [] d) ended t) := by
  simp only [Stmt.hasSimpleBodies, Bool.and_eq_true, decide_eq_true_eq] at hsimple
  cases Stmt.coded hcode with
  | @switch _ _ _ _ _ _ _ n _ line ahead inner more htest hline hinner hmore =>
    simp only [append_assoc, cons_append, nil_append] at hat
    have hfirst := hat.right
    have hjump := hfirst.right.right
    have hend := hjump.tail.right
    have hne := labelName_ne_empty (m.labels + 1)
    have hbreak : n.breakLabel = some (m.label 1) := breakLabel_eq hsimple.1.2 hinner
    have hrest := dispatches hplaced hsimple.2 hmore rfl hjump.tail.left hbreak hne hend.head rfl
    obtain ⟨entry, hbodies, hfalls⟩ := hrest.falls
    have hbody := (flows_stmt hplaced hsimple.1.2 hinner hfirst.right.left rfl hne hend.head).branch
      (labelName_ne_empty _) hjump.head hbodies
    -- the first test comes right after the value
    have hdecide : ∀ stack, ∃ k, Steps S.code k (S.state place stack c) (S.state
        (if (number.value : Int) = v then place + ahead.length + (clauseTest number
        (m.label 2)).length
          else place + ahead.length + (clauseTest number (m.label 2)).length + inner.length + 1)
        stack d) := by
      intro stack
      obtain ⟨k, hk⟩ := steps_yields hplaced hcore htest hat.left hyields
      exact ⟨k + 3, hk.trans (steps_clauseTest hsimple.1.1 (labelName_ne_empty _) hfirst.left
        hrest.test v stack d)⟩
    constructor
    · intro hready stack c' hselects hfits
      obtain ⟨k, hk⟩ := hdecide stack
      have hfinish : place + (ahead ++ clauseTest number (m.label 2) ++ inner
          ++ [Operation.branch.line (m.label 3)] ++ more ++ [CodeLine.label (m.label 1)]).length
            = place + ahead.length + (clauseTest number (m.label 2)).length + inner.length + 1
              + more.length + 1 := by
        simp only [length_append, length_singleton]
        omega
      rw [hfinish, ← state_label hend.head]
      refine hrest.select hselects hfits (hbody.falls hfalls hrest.grows) hk ?_
      intro hv htests
      rcases hready with hleaf | hv' | hno
      · exact reloads_of_isLeaf hplaced hcore htest hleaf hline hyields
      · exact absurd hv' hv
      · rw [hno] at htests
        exact Bool.noConfusion htests
    · intro hleaf hv htests
      obtain ⟨k, hk⟩ := hdecide []
      obtain ⟨_, rfl⟩ := code_of_testsAgain htests hmore
      rw [if_neg hv, state_label hrest.test] at hk
      exact ⟨k, _, hk, fails_of_not_isLeaf hcore htest hleaf hline hjump.tail.left.tail.head d⟩

/-! ### An example -/

/-- The expression `x + 1`. -/
def successor : Expr .expression :=
  .logical (.sum (.plus (.product (.factor (.variable ⟨"x", none⟩))) .plus
    (.factor (.number (numeral 1)))))

/-- The statement `write x`. -/
def shownFirst : Stmt .statements :=
  .next (.write ⟨"write", Eq.refl "write"⟩
    (.logical (.sum (.product (.factor (.variable ⟨"x", none⟩)))))) .done

/-- A clause for the number two with a `break`, and no other one. -/
def brokenSecond : Stmt .clauses :=
  .clause ⟨"case", rfl⟩ (numeral 2) (.next (.jump (.stop ⟨"break", rfl⟩)) .done) .noClause

/-- The code of a switch with these two clauses. -/
def successorLines : List CodeLine :=
  [Operation.load.line "0", Operation.push.line "1", Operation.add.line ""] ++
    clauseTest (numeral 1) (labelName 2) ++
    [Operation.load.line "0", Operation.output.line "", Operation.branch.line (labelName 3),
      .label (labelName 2), Operation.add.line ""] ++
    clauseTest (numeral 2) (labelName 4) ++
    [.label (labelName 3), Operation.branch.line (labelName 1), Operation.branch.line (labelName 5),
      .label (labelName 4), .label (labelName 5), .label (labelName 1)]

theorem tidy_successorLines : ∀ line ∈ successorLines, line.Tidy := by
  have hsolid : Solid "0" ∧ Solid "1" := ⟨.numeral (numeral 0), .numeral (numeral 1)⟩
  simp [successorLines, clauseTest, Operation.tidy_line, tidy_plain, tidy_label, solid_labelName,
    Solid.numeral, hsolid]

/-- A setting with this code alone, and a cell for the variable. -/
def successorSetting : Setting where
  code := .ofText (CodeLine.listText successorLines)
  lines := successorLines
  holds := Code.holds_ofText tidy_successorLines (by decide +kernel)
  layout := [⟨⟨false, "x"⟩, 0⟩]
  nodup := nodup_singleton _
  length_le := by decide
  base := 0
  frames := []

/-- The variable is declared globally. -/
def successorScopes : Scopes := [⟨0, false, 1, [("x", ⟨.absolute 0, .variable, none⟩)]⟩]

theorem placed_successorSetting : Placed successorSetting.layout [] ["x"] 1 successorScopes := by
  have henter : Scopes.enter? [.empty 0 false 0] "x" .variable 0 "" = some successorScopes := by
    decide +kernel
  have hcells : ∀ k < 1, successorSetting.layout[0 + k]? = some ⟨⟨false, "x"⟩, k⟩ := by
    simp [successorSetting]
  exact ((Placed.empty _ 0).enter? (by decide) (by simp) (fun _ => rfl) (.inl ⟨rfl, rfl⟩)
    Nat.one_pos hcells henter).1

/-- A configuration in which the variable has a value. -/
def successorConfig (x : Int) (shown : List Shown) : Config :=
  ⟨Store.zero.set ⟨⟨false, "x"⟩, 0⟩ x, [], shown⟩

theorem yields_successor (x : Int) (shown : List Shown) :
    successor.Yields [] (successorConfig x shown) (x + 1) (successorConfig x shown) :=
  ⟨_, by simp [successor, Expr.eval, AddSign.apply, successorConfig, Reference.cell, meant,
    Store.set], rfl⟩

/-- If the variable is zero, the first clause is run and the second one after it. If it is one, the
second test finds nothing to add. -/
theorem steps_successorSetting :
    (∃ n, Steps successorSetting.code n (successorSetting.state 0 [] (successorConfig 0 []))
      (successorSetting.state 20 [] (successorConfig 0 [.value 0]))) ∧
    ∃ n failing, Steps successorSetting.code n
        (successorSetting.state 0 [] (successorConfig 1 []))
        (successorSetting.state failing [] (successorConfig 1 [])) ∧
      ∀ ended t, ¬Ends (stepAction successorSetting.code)
        (successorSetting.state failing [] (successorConfig 1 [])) ended t := by
  have hcode : (Stmt.switch successor ⟨"case", rfl⟩ (numeral 1) shownFirst brokenSecond).code
      successorScopes "" none ⟨0, none, none⟩
        = some (successorLines, ⟨5, some (labelName 1), none⟩) := by
    decide +kernel
  have hat : successorSetting.Has 0 successorLines := fun i line hline => by rwa [Nat.zero_add]
  have hcore : successor.isCore = true := by decide +kernel
  have hsimple : (Stmt.clause ⟨"case", rfl⟩ (numeral 1) shownFirst brokenSecond).hasSimpleBodies
      = true := by decide +kernel
  constructor
  · have hdispatch := (switch_dispatch placed_successorSetting hcore hsimple hcode hat
      (yields_successor 0 [])).1 (.inr (.inl rfl)) [] (successorConfig 0 [.value 0])
    refine hdispatch (.inr ⟨successorConfig 0 [.value 0], ?_, .inl ?_⟩) ?_
    · exact .inr ⟨_, ⟨rfl, 0, _, ⟨_, rfl, rfl⟩, rfl⟩, rfl, rfl⟩
    · exact .inl ⟨⟨rfl, rfl⟩, rfl⟩
    · intro item hitem
      obtain rfl := mem_singleton.1 hitem
      exact Nat.zero_lt_of_lt one_lt_writeLimit
  · exact (switch_dispatch placed_successorSetting hcore hsimple hcode hat
      (yields_successor 1 [])).2 rfl (by decide) rfl

end Setting

end ScoreLang
