import ScoreLang.Proofs.Labels.Relation

/-!
# Expressions and Statements with Other Numbers

The rules for expressions and statements leave the scopes alone. Each of them agrees with itself
under other numbers for the labels, provided that the rules that it is made of do.

The operands of commands are of two kinds. A cell is spelled in digits, and a label that is used up
is named by the commands that jump to it. A number of the program is neither, but it is a number,
since the generator finds it where a program has one.
-/

namespace ScoreLang

open Text Generate Generator

variable {α β : Type} {n : Nat}

/-! ### Numbers of the program -/

/-- The current label is that of a number. -/
def atNumber (here : Option Label) : Prop :=
  ∃ number : Numeral, here = some (.number number.digits)

/-- The second word of the label of a number is not the name of a label. -/
protected theorem Renames.argument_number {scopes : Scopes} :
    Renames n (Regular scopes atNumber) argument argument SameText fun _ =>
      Regular scopes anywhere := by
  refine Renames.label.bind fun label _ hlabel => ?_
  subst hlabel
  refine ⟨fun g hg => ?_⟩
  obtain ⟨⟨number, hnumber⟩, hfound⟩ := hg.here
  obtain rfl : label = .number number.digits := Option.some.inj (hfound.symm.trans hnumber)
  exact .ok ⟨rfl, .numeral number⟩ hg.weaken

/-- A label that looks like a number is one. -/
theorem Generator.Regular.atNumber {scopes : Scopes} {here : Option Label → Prop} {g : Generator}
    {label : Label} (h : g.Regular scopes fun found => here found ∧ found = some label)
    (hlabel : label.beginsWith "NUM" = true) : g.Regular scopes atNumber := by
  have hremaining := h.remaining
  have hfound := h.here.2
  unfold Generator.remaining at hremaining
  cases hcurrent : g.current with
  | none => simp [hcurrent] at hfound
  | some node =>
    rw [hcurrent] at hremaining hfound
    obtain rfl : node.label = label := Option.some.inj hfound
    obtain ⟨number, hnumber⟩ := hremaining.number hlabel
    exact { h with here := ⟨number, by rw [hcurrent, ← hnumber]; rfl⟩ }

/-- The first label ahead is that of the current node. -/
theorem Generator.upcoming_head? (g : Generator) :
    g.upcoming.head? = g.current.map Node.label := by
  unfold upcoming
  cases g.current <;> rfl

/-- The second node after that of a clause is a number. -/
theorem Generator.Regular.skip_clause {scopes : Scopes} {g : Generator}
    (h : g.Regular scopes fun found => found = some (.rule .caseClause)) :
    (g.skip 2).Regular scopes ScoreLang.atNumber := by
  have hremaining := h.remaining
  have hfound := h.here
  unfold Generator.remaining at hremaining
  cases hcurrent : g.current with
  | none => simp [hcurrent] at hfound
  | some node =>
    have hupcoming : g.upcoming = (g.current.toList ++ g.ahead).map Node.label := by
      simp [upcoming, hcurrent]
    rw [hcurrent] at hremaining hupcoming hfound
    have hnode : node.label = .rule .caseClause := Option.some.inj hfound
    rw [Option.toList_some, List.singleton_append, List.map_cons, hnode] at hremaining hupcoming
    generalize g.ahead.map Node.label = rest at hremaining hupcoming
    cases hremaining with
    | cons hplain _ => exact absurd rfl hplain.ne_clause
    | @clause word number labels =>
      have hskip : (g.skip 2).upcoming = _ := upcoming_skip [.rule .caseClause, word] hupcoming
      have hhead := upcoming_head? (g.skip 2)
      rw [hskip] at hhead
      exact { h.skip 2 with here := ⟨number, hhead.symm⟩ }

protected theorem Renames.atRule? {scopes : Scopes} {here : Option Label → Prop} (rule : Rule) :
    Renames n (Regular scopes here) (atRule? rule) (atRule? rule) Eq fun found =>
      Regular scopes fun label => found = true → label = some (.rule rule) := by
  refine Renames.label.bind fun label _ hlabel => hlabel ▸ .pure rfl fun g hg => ?_
  refine { hg with here := fun hfound => ?_ }
  rw [hg.here.2, eq_of_beq hfound]

/-- Behind the word of a clause there is its number. -/
protected theorem Renames.enter_caseClause {scopes : Scopes} {here : Option Label → Prop} :
    Renames n (Regular scopes here) (enter .caseClause 2) (enter .caseClause 2) Done fun _ =>
      Regular scopes atNumber := by
  refine (Renames.atRule? .caseClause).bind fun found _ hfound => ?_
  subst hfound
  refine .ite (fun hclause => .modify fun g hg => ⟨skip_renumber g 2, ?_⟩) fun _ => .throw (.same _)
  exact Regular.skip_clause { hg with here := hg.here hclause }

/-! ### Cells -/

/-- An address is not that of a function. -/
def Address.IsCell (address : Address) : Prop := ∀ name, address ≠ .label name

/-- Two addresses are the same, and not those of functions. -/
def SameCell (address address' : Address) : Prop := address' = address ∧ address.IsCell

/-- A cell is no label. -/
theorem Address.IsCell.renumber_eq {address : Address} (h : address.IsCell) (n : Nat) :
    address.renumber n = address := by
  cases address with
  | absolute cell => rfl
  | relative cell => rfl
  | label name => exact absurd rfl (h name)

namespace Agree

/-- Both find the same entry, up to the number of its label. -/
protected theorem entry (name : String) :
    Agree n (entry name) (entry name) fun found found' =>
      found' = found.renumber n ∧ found.Labelled := by
  refine .get fun g scopes here hg => ?_
  have hscopes : (g.renumber n).scopes.find? name
      = (g.scopes.find? name).map (Entry.renumber n) := Scopes.find?_renumber g.scopes name
  rw [hscopes]
  cases hfound : g.scopes.find? name with
  | none => exact .throw (.same _)
  | some found =>
    rw [hg.scopes_eq] at hfound
    exact .pure ⟨rfl, hg.labelled hfound⟩

/-- A cell after another one. A function has no cells. -/
protected theorem cellAfter {address : Address} (h : ∀ name, address = .label name →
    IsLabelName name) (count : Int) :
    Agree n (cellAfter address count) (cellAfter (address.renumber n) count) SameCell := by
  cases address with
  | absolute cell => exact .pure ⟨rfl, by simp [Address.IsCell]⟩
  | relative cell => exact .pure ⟨rfl, by simp [Address.IsCell]⟩
  | label name =>
    obtain ⟨number, rfl⟩ := h name rfl
    rw [Address.renumber, renumber_labelName]
    exact .throw (.label number)

/-- The text of the address of a cell. -/
protected theorem addressText_cell {address address' : Address} (h : SameCell address address') :
    Agree n (addressText address) (addressText address') SameText := by
  obtain ⟨rfl, hcell⟩ := h
  cases address' with
  | absolute cell => exact .writeInteger cell
  | relative cell =>
    exact .bind (.writeInteger cell) fun text text' htext => .pure
      ⟨by rw [htext.1], .colon htext.2.solid⟩
  | label name => exact absurd rfl (hcell name)

/-- The text of any address. -/
protected theorem addressText {address : Address} (h : ∀ name, address = .label name →
    IsLabelName name) :
    Agree n (addressText address) (addressText (address.renumber n)) fun text text' =>
      text' = renumber n text ∧ Solid text := by
  cases address with
  | label name => exact .pure ⟨rfl, (h name rfl).solid⟩
  | absolute cell | relative cell =>
    refine (Agree.addressText_cell ⟨rfl, by simp [Address.IsCell]⟩).mono fun text text' htext => ?_
    exact ⟨by rw [htext.1, htext.2.renumber_eq], htext.2.solid⟩

/-- Both check the same index. -/
protected theorem elementPlace (name : String) (found : Entry) :
    Agree n (elementPlace name found) (elementPlace name found) Eq := by
  refine .test (.atWord? "[") fun _ => .ite (fun _ => ?_) fun _ => .pure rfl
  refine .bind (.shift 1) fun _ _ _ => .test .argument fun _ => .test .ofInteger fun index => ?_
  refine .insist (.test .part fun size => .ite (fun _ => ?_) fun _ => ?_)
  · exact .test .ofInteger fun _ => .test .ofInteger fun _ => .fail_bind
  · exact .bind (.shift 2) fun _ _ _ => .pure rfl

/-- Both name the same cell. -/
protected theorem cellOf : Agree n cellOf cellOf SameText := by
  refine .bind (.enter .variable 1) fun _ _ _ => .test .argument fun name => ?_
  refine .bind (.pass "ID" 1) fun _ _ _ => .bind (.entry name) fun found found' hfound => ?_
  obtain ⟨rfl, hlabelled⟩ := hfound
  refine .bind (.cellAfter hlabelled 0) fun start start' hstart => ?_
  obtain ⟨rfl, hcell⟩ := hstart
  refine .test (.elementPlace name found) fun place => ?_
  have hafter := Agree.cellAfter (n := n) (fun name h => absurd h (hcell name)) place
  rw [hcell.renumber_eq] at hafter
  exact .bind hafter fun address address' haddress => .addressText_cell haddress

/-! ### Expressions -/

/-- Both write the same operation. -/
protected theorem operate (sign : String) : Agree n (operate sign) (operate sign) Done := by
  unfold operate
  split
  · exact .act _
  · exact .throw (.same _)

/-- Operands joined by signs. -/
protected theorem joined {operand : Generate Unit} (hoperand : Agree n operand operand Done)
    (signs : List String) (limit : Nat) :
    Agree n (joined signs operand limit) (joined signs operand limit) Done := by
  refine .bind hoperand fun _ _ _ => .repeatWhile (.test .label fun _ => .pure rfl)
    (fun _ _ _ => ?_) limit trivial
  exact .test .label fun label => .bind (.shift 1) fun _ _ _ => .bind hoperand fun _ _ _ =>
    .operate label.text

section Expression

variable {expression : Generate Unit} (hexpression : Agree n expression expression Done)
  (limit : Nat)

include hexpression

/-- The arguments after the first one. -/
protected theorem furtherArguments (count : Nat) :
    Agree n (furtherArguments expression limit count) (furtherArguments expression limit count)
    Eq := by
  refine .repeatWhile (.atWord? ",") (fun count count' hcount => ?_) limit rfl
  exact .bind (.shift 1) fun _ _ _ => .bind hexpression fun _ _ _ => .pure (by rw [hcount])

/-- The arguments are counted alike. -/
protected theorem arguments (parameters : Int) :
    Agree n (arguments expression limit parameters) (arguments expression limit parameters)
    Done := by
  refine .bind (.enter .arguments 1) fun _ _ _ => .bind hexpression fun _ _ _ => ?_
  exact .test (.furtherArguments hexpression limit 1) fun _ =>
    .ite (fun _ => .fail) fun _ => .pure trivial

protected theorem givenArguments (parameters : Int) :
    Agree n (givenArguments expression limit parameters) (givenArguments expression limit
    parameters)
      Done := by
  refine .test (.atWord? ")") fun _ => .ite (fun _ => ?_) fun _ => .arguments hexpression limit _
  exact .ite (fun _ => .fail) fun _ => .pure trivial

/-- Both call the same function. -/
protected theorem call : Agree n (call expression limit) (call expression limit) Done := by
  refine .bind (.enter .call 2) fun _ _ _ => .test .argument fun name => ?_
  refine .bind (.entry name) fun found found' hfound => ?_
  obtain ⟨rfl, hlabelled⟩ := hfound
  refine .insist (.test .part fun parameters => .bind (.shift 2) fun _ _ _ => ?_)
  refine .bind (.givenArguments hexpression limit parameters) fun _ _ _ => ?_
  refine .bind (.pass ")" 1) fun _ _ _ => .bind (.addressText hlabelled) fun text text' htext => ?_
  rw [htext.1]
  exact .perform_renumber rfl htext.2

protected theorem factor : Agree n (factor expression limit) (factor expression limit) Done := by
  refine .bind (.enter .factor 1) fun _ _ _ => ⟨fun scopes here => ?_⟩
  refine Renames.label.bind fun label _ hlabel => ?_
  subst hlabel
  refine .ite (fun _ => ?_) fun _ => .ite (fun hnumber => ?_) fun _ => ?_
  · exact Agree.renames (.bind (.shift 1) fun _ _ _ => .bind hexpression fun _ _ _ =>
      .pass ")" 1) _ _
  · refine .bind (Renames.argument_number.mono (fun _ hg => hg.atNumber hnumber) (fun _ _ h => h)
      fun _ _ hg => hg) fun text text' htext => ?_
    exact Agree.renames (.bind (.perform htext) fun _ _ _ => .shift 1) _ _
  · exact Agree.renames (.ite (fun _ => .call hexpression limit) fun _ =>
      .ite (fun _ => .bind .cellOf fun _ _ hcell => .perform hcell) fun _ => .throw (.same _)) _ _

protected theorem product : Agree n (product expression limit) (product expression limit) Done :=
  .bind (.enter .product 1) fun _ _ _ => .joined (.factor hexpression limit) _ limit

protected theorem sum : Agree n (sum expression limit) (sum expression limit) Done :=
  .bind (.enter .sum 1) fun _ _ _ => .joined (.product hexpression limit) _ limit

protected theorem logical : Agree n (logical expression limit) (logical expression limit) Done := by
  refine .bind (.enter .logical 1) fun _ _ _ => .bind (.sum hexpression limit) fun _ _ _ => ?_
  refine .test .label fun label => .ite (fun _ => ?_) fun _ => .pure trivial
  exact .bind (.shift 1) fun _ _ _ => .bind (.sum hexpression limit) fun _ _ _ =>
    .operate label.text

protected theorem assignment : Agree n (assignment expression limit) (assignment expression limit)
    Done := by
  refine .bind (.enter .expression 1) fun _ _ _ => .test (.atRule? .variable) fun _ =>
    .ite (fun _ => ?_) fun _ => .logical hexpression limit
  refine .bind .cellOf fun cell cell' hcell => .test (.atWord? "=") fun _ =>
    .ite (fun _ => ?_) fun _ => .pure trivial
  exact .bind (.shift 1) fun _ _ _ => .bind (.logical hexpression limit) fun _ _ _ =>
    .perform hcell

end Expression

/-- **The code of an expression** is the same under other numbers for the labels. -/
protected theorem expression (depth : Nat) : Agree n (expression depth) (expression depth)
    Done := by
  induction depth with
  | zero => exact .throw (.same _)
  | succ depth ih => exact .assignment ih (depth + 1)

/-! ### Statements -/

protected theorem returnStatement (limit : Nat) :
    Agree n (returnStatement limit) (returnStatement limit) Done := by
  refine .bind (.enter .returnStatement 2) fun _ _ _ => .bind (.expression limit) fun _ _ _ => ?_
  refine .bind (.pass ";" 1) fun _ _ _ => .get fun g _ _ hg => ?_
  exact .bind (.perform ⟨rfl, hg.resultCell⟩) fun _ _ _ => .act .pop

protected theorem writeStatement (limit : Nat) :
    Agree n (writeStatement limit) (writeStatement limit) Done :=
  .bind (.enter .writeStatement 2) fun _ _ _ => .bind (.expression limit) fun _ _ _ =>
    .bind (.act .output) fun _ _ _ => .shift 1

protected theorem readStatement : Agree n readStatement readStatement Done := by
  refine .bind (.enter .readStatement 2) fun _ _ _ => .bind .cellOf fun cell cell' hcell => ?_
  exact .bind (.act .input) fun _ _ _ => .bind (.perform hcell) fun _ _ _ =>
    .bind (.act .pop) fun _ _ _ => .shift 1

protected theorem expressionStatement (limit : Nat) :
    Agree n (expressionStatement limit) (expressionStatement limit) Done := by
  refine .bind (.enter .expressionStatement 1) fun _ _ _ => .test (.atWord? ";") fun _ =>
    .ite (fun _ => ?_) fun _ => ?_
  · exact .bind (.shift 1) fun _ _ _ => .shift 1
  · exact .bind (.expression limit) fun _ _ _ => .bind (.act .pop) fun _ _ _ => .shift 1

/-- A jump to the label that has been set, if there is one. -/
protected theorem perform_jumpTarget {label : Option String} (h : ∀ name, label = some name →
    IsLabelName name) : Agree n (perform .branch (jumpTarget label))
      (perform .branch (jumpTarget (label.map (renumber n)))) Done := by
  cases label with
  | none =>
    have hnone : Inert "None" := .of_head? (by decide) (by decide)
    exact .perform ⟨rfl, hnone⟩
  | some name => exact .perform_renumber rfl (h name rfl).solid

/-- Both jump to the same label, up to its number. -/
protected theorem jump : Agree n jump jump Done := by
  refine .bind (.enter .jump 1) fun _ _ _ => .get fun g _ _ hg => ?_
  have hbreak : (g.renumber n).breakLabel = g.breakLabel.map (renumber n) := rfl
  have hcontinue : (g.renumber n).continueLabel = g.continueLabel.map (renumber n) := rfl
  simp only [hbreak, hcontinue, Option.isNone_map]
  refine .ite (fun _ => ?_) fun _ => .test (.atWord? "break") fun _ => .ite (fun _ =>
    ?_) fun _ => ?_
  · exact .throw_bind _
  · exact .bind (.perform_jumpTarget hg.breakLabel) fun _ _ _ => .shift 2
  · exact .bind (.perform_jumpTarget hg.continueLabel) fun _ _ _ => .shift 2

protected theorem setJumps {breakLabel breakLabel' continueLabel continueLabel' : String}
    (hbreak : SameLabel n breakLabel breakLabel')
    (hcontinue : SameLabel n continueLabel continueLabel') :
    Agree n (setJumps breakLabel continueLabel) (setJumps breakLabel' continueLabel') Done := by
  obtain ⟨first, rfl, rfl⟩ := hbreak
  obtain ⟨second, rfl, rfl⟩ := hcontinue
  refine .modify (fun g => ?_) fun hg =>
    { hg with here := trivial, breakLabel := ?_, continueLabel := ?_ }
  · simp [Generator.renumber]
  · exact fun label hlabel => ⟨first, (Option.some.inj hlabel).symm⟩
  · exact fun label hlabel => ⟨second, (Option.some.inj hlabel).symm⟩

protected theorem setBreak {breakLabel breakLabel' : String}
    (hbreak : SameLabel n breakLabel breakLabel') :
    Agree n (setBreak breakLabel) (setBreak breakLabel') Done := by
  obtain ⟨number, rfl, rfl⟩ := hbreak
  refine .modify (fun g => ?_) fun hg => { hg with here := trivial, breakLabel := ?_ }
  · simp [Generator.renumber]
  · exact fun label hlabel => ⟨number, (Option.some.inj hlabel).symm⟩

section Statement

variable {statement : Generate Unit} (hstatement : Agree n statement statement Done) (limit : Nat)

include hstatement

/-- A sequence is compiled alike if its statements are. -/
protected theorem statements : Agree n (statements statement limit) (statements statement limit)
    Done := by
  refine .bind (.enter .statements 1) fun _ _ _ => .test (.atRule? .statement) fun _ =>
    .ite (fun _ => ?_) fun _ => .warn .noStatements
  exact .repeatWhile (.atRule? .statement) (fun _ _ _ => hstatement) limit trivial

protected theorem compound : Agree n (compound statement limit) (compound statement limit) Done :=
  .bind (.enter .compound 2) fun _ _ _ => .bind (.statements hstatement limit) fun _ _ _ =>
    .pass "\x7d" 1

/-- An `if` takes two labels. -/
protected theorem ifStatement : Agree n (ifStatement statement limit) (ifStatement statement limit)
    Done := by
  refine .bind (.enter .ifStatement 3) fun _ _ _ => .bind (.expression limit) fun _ _ _ => ?_
  refine .bind .newLabel fun _ _ helse => .bind .newLabel fun _ _ hend => ?_
  refine .bind (.perform_label rfl helse) fun _ _ _ => .bind (.pass ")" 1) fun _ _ _ => ?_
  refine .bind hstatement fun _ _ _ => .bind (.perform_label rfl hend) fun _ _ _ => ?_
  refine .bind (.place helse) fun _ _ _ => .test (.atWord? "else") fun _ =>
    .ite (fun _ => ?_) fun _ => .place hend
  exact .bind (.shift 1) fun _ _ _ => .bind hstatement fun _ _ _ => .place hend

/-- So does a loop. -/
protected theorem whileStatement :
    Agree n (whileStatement statement limit) (whileStatement statement limit) Done := by
  refine .bind (.enter .whileStatement 3) fun _ _ _ => ?_
  refine .bind .newLabel fun _ _ hstart => .bind .newLabel fun _ _ hend => ?_
  refine .bind (.place hstart) fun _ _ _ => .bind (.expression limit) fun _ _ _ => ?_
  refine .bind (.perform_label rfl hend) fun _ _ _ => .bind (.pass ")" 1) fun _ _ _ => ?_
  refine .bind (.setJumps hend hstart) fun _ _ _ => .bind hstatement fun _ _ _ => ?_
  exact .bind (.perform_label rfl hstart) fun _ _ _ => .place hend

/-- So does a loop with its test behind. -/
protected theorem doWhile : Agree n (doWhile statement limit) (doWhile statement limit) Done := by
  refine .bind (.enter .doWhile 2) fun _ _ _ => ?_
  refine .bind .newLabel fun _ _ hstart => .bind .newLabel fun _ _ hend => ?_
  refine .bind (.setJumps hend hstart) fun _ _ _ => .bind (.place hstart) fun _ _ _ => ?_
  refine .bind hstatement fun _ _ _ => .test .label fun _ => .ite (fun _ => ?_) fun _ =>
    .throw_bind _
  refine .bind (.shift 2) fun _ _ _ => .bind (.expression limit) fun _ _ _ => ?_
  refine .bind (.perform_label rfl hend) fun _ _ _ => ?_
  exact .bind (.perform_label rfl hstart) fun _ _ _ => .bind (.place hend) fun _ _ _ => .pass ")" 2

/-- A counted loop takes four labels. -/
protected theorem forStatement : Agree n (forStatement statement limit)
    (forStatement statement limit) Done := by
  refine .bind (.enter .forStatement 3) fun _ _ _ => ?_
  refine .bind .newLabel fun _ _ htest => .bind .newLabel fun _ _ hbody => ?_
  refine .bind .newLabel fun _ _ hstep => .bind .newLabel fun _ _ hend => ?_
  refine .bind (.expression limit) fun _ _ _ => .bind (.pass ";" 1) fun _ _ _ => ?_
  refine .bind (.place htest) fun _ _ _ => .bind (.expression limit) fun _ _ _ => ?_
  refine .bind (.pass ";" 1) fun _ _ _ => .bind (.perform_label rfl hend) fun _ _ _ => ?_
  refine .bind (.perform_label rfl hbody) fun _ _ _ => .bind (.place hstep) fun _ _ _ => ?_
  refine .bind (.expression limit) fun _ _ _ => .bind (.pass ")" 1) fun _ _ _ => ?_
  refine .bind (.perform_label rfl htest) fun _ _ _ => .bind (.place hbody) fun _ _ _ => ?_
  refine .bind (.setJumps hend hstep) fun _ _ _ => .bind hstatement fun _ _ _ => ?_
  exact .bind (.perform_label rfl hstep) fun _ _ _ => .place hend

end Statement

/-! ### Switches -/

end Agree

/-- Two clauses differ in the numbers of their labels only. -/
structure SameClauses (n : Nat) (clauses clauses' : Clauses) : Prop where
  test : SameLabel n clauses.test clauses'.test
  body : SameLabel n clauses.body clauses'.body
  numbers : clauses'.numbers = clauses.numbers

/-- What a clause begins with: nothing, if it is the first one. -/
def Generate.reopen (scrutinee : List CodeLine) : Option Clauses → Generate Unit
  | some clauses => do
    place clauses.test
    emit scrutinee
  | none => return

/-- What comes before the statements of a clause: nothing, if it is the first one. -/
def Generate.fallThrough : Option Clauses → Generate Unit
  | some clauses => place clauses.body
  | none => return

/-- A clause in its steps. -/
theorem Generate.caseClause_eq (statement : Generate Unit) (limit : Nat) (scrutinee : List CodeLine)
    (before : Option Clauses) :
    caseClause statement limit scrutinee before = (do
      enter .caseClause 2
      let nextTest ← newLabel
      let nextBody ← newLabel
      reopen scrutinee before
      let number ← argument
      let numbers := (before.map (·.numbers)).getD []
      if numbers.contains number then fail .caseClause .repeatedCase
      perform .push number
      act .equal
      perform .branchFalse nextTest
      fallThrough before
      shift 2
      statements statement limit
      perform .branch nextBody
      return ⟨nextTest, nextBody, number :: numbers⟩) := by
  cases before with
  | none => rfl
  | some clauses => simp [caseClause, reopen, fallThrough]

namespace Agree

/-- A clause takes two labels, and repeats the last line before it. -/
protected theorem caseClause {statement : Generate Unit}
    (hstatement : Agree n statement statement Done)
    (limit : Nat) {scrutinee : List CodeLine} (hscrutinee : ∀ line ∈ scrutinee, line.Regular)
    {before before' : Option Clauses} (hbefore : Option.Rel (SameClauses n) before before') :
    Agree n (caseClause statement limit scrutinee before)
      (caseClause statement limit (scrutinee.map (CodeLine.renumber n)) before')
      (SameClauses n) := by
  rw [caseClause_eq, caseClause_eq]
  have hreopen : Stays n (reopen scrutinee before)
      (reopen (scrutinee.map (CodeLine.renumber n)) before') Done := by
    cases hbefore with
    | none => exact .pure trivial
    | some hclauses => exact .bind (.place hclauses.test) fun _ _ _ => .emit scrutinee hscrutinee
  have hfallThrough : Agree n (fallThrough before) (fallThrough before') Done := by
    cases hbefore with
    | none => exact .pure trivial
    | some hclauses => exact .place hclauses.body
  have hnumbers : (before'.map (·.numbers)).getD [] = (before.map (·.numbers)).getD [] := by
    cases hbefore with
    | none => rfl
    | some hclauses => exact hclauses.numbers
  rw [hnumbers]
  refine ⟨fun scopes here => Renames.enter_caseClause.bind fun _ _ _ => ?_⟩
  refine (Stays.newLabel.renames scopes _).bind fun _ _ htest => ?_
  refine (Stays.newLabel.renames scopes _).bind fun _ _ hbody => ?_
  refine (hreopen.renames scopes _).bind fun _ _ _ => ?_
  refine Renames.argument_number.bind fun number number' hnumber => Agree.renames ?_ _ _
  rw [hnumber.1]
  refine .insist ?_
  refine .bind (.perform ⟨rfl, hnumber.2⟩) fun _ _ _ => .bind (.act .equal) fun _ _ _ => ?_
  refine .bind (.perform_label rfl htest) fun _ _ _ => .bind hfallThrough fun _ _ _ => ?_
  refine .bind (.shift 2) fun _ _ _ => .bind (.statements hstatement limit) fun _ _ _ => ?_
  exact .bind (.perform_label rfl hbody) fun _ _ _ => .pure ⟨htest, hbody, rfl⟩

protected theorem defaultClause {statement : Generate Unit}
    (hstatement : Agree n statement statement Done)
    (limit : Nat) : Agree n (defaultClause statement limit) (defaultClause statement limit) Done :=
  .bind (.enter .defaultClause 3) fun _ _ _ => .statements hstatement limit

/-- A switch takes one more label for its end. -/
protected theorem switchStatement {statement : Generate Unit}
    (hstatement : Agree n statement statement Done) (limit : Nat) :
    Agree n (switchStatement statement limit) (switchStatement statement limit) Done := by
  refine .bind (.enter .switchStatement 3) fun _ _ _ => .bind .newLabel fun _ _ hend => ?_
  refine .bind (.setBreak hend) fun _ _ _ => .bind (.expression limit) fun _ _ _ => ?_
  refine .get fun g _ _ hg => .bind (.shift 2) fun _ _ _ => ?_
  refine .bind (.caseClause hstatement limit hg.last .none) fun first first' hfirst => ?_
  refine .bind (.repeatWhile (.atRule? .caseClause) (fun clauses clauses' hclauses =>
    .caseClause hstatement limit hg.last (.some hclauses)) limit hfirst) fun _ _ hclauses => ?_
  refine .bind (.place hclauses.test) fun _ _ _ => .bind (.place hclauses.body) fun _ _ _ => ?_
  refine .test (.atRule? .defaultClause) fun _ => .ite (fun _ => ?_) fun _ => ?_
  · exact .bind (.defaultClause hstatement limit) fun _ _ _ => .bind (.place hend) fun _ _ _ =>
      .pass "\x7d" 1
  · exact .bind (.place hend) fun _ _ _ => .pass "\x7d" 1

/-! ### Any statement -/

/-- Statements of all forms are compiled alike. -/
protected theorem statementForm {statement : Generate Unit}
    (hstatement : Agree n statement statement Done) (limit : Nat) (label : Label) :
    Agree n (statementForm statement limit label) (statementForm statement limit label) Done := by
  unfold statementForm
  split
  · exact .ifStatement hstatement limit
  · exact .whileStatement hstatement limit
  · exact .forStatement hstatement limit
  · exact .writeStatement limit
  · exact .readStatement
  · exact .compound hstatement limit
  · exact .expressionStatement limit
  · exact .call (.expression limit) limit
  · exact .returnStatement limit
  · exact .jump
  · exact .switchStatement hstatement limit
  · exact .doWhile hstatement limit
  · exact .throw (.same _)

/-- **The code of a statement** is the same under other numbers for the labels. -/
protected theorem statement (depth : Nat) : Agree n (statement depth) (statement depth) Done := by
  induction depth with
  | zero => exact .throw (.same _)
  | succ depth ih =>
    exact .bind (.enter .statement 1) fun _ _ _ => .test .label fun label =>
      .statementForm ih (depth + 1) label

end Agree

end ScoreLang
