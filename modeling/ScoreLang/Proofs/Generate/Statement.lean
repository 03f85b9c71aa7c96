import ScoreLang.Proofs.Code.Statement
import ScoreLang.Proofs.Generate.Expression

/-!
# The Walk through Statements

The generator writes the code of a plain statement and walks past it. It may reject the program on
the way; that it fails in another way is excluded if the names are known and the jumps are guarded.
A jump is translated if the generator knows where a `break` goes. A loop or a switch tells it, and
it does not forget about it afterwards: from the beginning of the first loop or switch on, jumps do
no harm.
-/

namespace ScoreLang

open List

/-! ### Loops among labels -/

/-- Calm labels are not those of loops. -/
theorem any_isLoop_of_all_isCalm {labels : List Label} (h : labels.all Label.isCalm = true) :
    labels.any Label.isLoop = false := by
  rw [any_eq_false]
  intro label hlabel
  have hcalm := all_eq_true.1 h label hlabel
  rw [Label.isCalm, Bool.and_eq_true, Bool.not_eq_true'] at hcalm
  rw [hcalm.2]
  decide

@[simp] theorem Expr.any_isLoop_labels {level : Level} (e : Expr level) :
    e.labels.any Label.isLoop = false := any_isLoop_of_all_isCalm e.all_isCalm_labels

@[simp] theorem Reference.any_isLoop_labels (target : Reference) :
    target.labels.any Label.isLoop = false := any_isLoop_of_all_isCalm target.all_isCalm_labels

@[simp] theorem Expr.guarded_labels {level : Level} (e : Expr level) (after : Bool) :
    guarded after e.labels = true := by
  simpa [guarded] using e.guarded_labels_append after []

/-! ### Marks -/

@[simp] theorem Marks.label_use (m : Marks) (count number : Nat) :
    (m.use count).label number = m.label (count + number) := by
  simp [Marks.label, Marks.use, Nat.add_assoc]

@[simp] theorem Marks.breakLabel_use (m : Marks) (count : Nat) :
    (m.use count).breakLabel = m.breakLabel := rfl

open Generate

/-- What is to hold behind a phrase that the walk has come to the end of. -/
def Stmt.Continues {part : Part} (s : Stmt part) (opened : Option Opened) (lines : List CodeLine)
    (m : Marks) (st : Generator) (up : List Label) (post : Unit → View → Prop) : Prop :=
  ∀ ⦃total own : List CodeLine⦄ ⦃m' : Marks⦄ ⦃noted : List (Nat × Warning)⦄,
    s.code st.scopes st.resultCell opened m = some (own, m') →
    m'.breakLabel.isSome = (m.breakLabel.isSome || s.inside.any Label.isLoop) →
    total = lines ++ own → post () ⟨up, total, noted, m', st⟩

/-! ### Single statements -/

/-- The generator writes the code of a statement, or rejects the program. -/
def Stmt.Crossed {dangling : Bool} (s : Stmt (.statement dangling)) : Prop :=
  ∀ ⦃depth : Nat⦄ ⦃next : Label⦄ ⦃rest : List Label⦄ ⦃lines : List CodeLine⦄
    ⦃noted : List (Nat × Warning)⦄ ⦃m : Marks⦄ ⦃st : Generator⦄ ⦃granted : Prop⦄
    ⦃post : Unit → View → Prop⦄, (dangling = true → next ≠ .word "else") → s.inside.length < depth →
    (granted → st.scopes.Covers s.uses) → (granted → guarded m.breakLabel.isSome s.inside = true) →
    s.Continues none lines m st (next :: rest) post →
    Secures (Blames granted) (statement depth)
      ⟨.rule .statement :: (s.inside ++ next :: rest), lines, noted, m, st⟩ post

namespace Stmt.Crossed

variable {dangling : Bool}

/-- A statement is crossed if its form is. -/
theorem of_form {s : Stmt (.statement dangling)} {form : Label} {labels : List Label}
    (hinside : s.inside = form :: labels)
    (h : ∀ ⦃depth : Nat⦄ ⦃next : Label⦄ ⦃rest : List Label⦄ ⦃lines : List CodeLine⦄
      ⦃noted : List (Nat × Warning)⦄ ⦃m : Marks⦄ ⦃st : Generator⦄ ⦃granted : Prop⦄
      ⦃post : Unit → View → Prop⦄, (dangling = true → next ≠ .word "else") → labels.length < depth →
      (granted → st.scopes.Covers s.uses) →
      (granted → guarded m.breakLabel.isSome (form :: labels) = true) →
      s.Continues none lines m st (next :: rest) post →
      Secures (Blames granted) (statementForm (statement depth) (depth + 1) form)
        ⟨form :: (labels ++ next :: rest), lines, noted, m, st⟩ post) : s.Crossed := by
  intro depth next rest lines noted m st granted post hnext hdepth hcovers hguarded hpost
  rw [hinside] at hdepth hguarded ⊢
  obtain ⟨below, rfl⟩ : ∃ n, depth = n + 1 := ⟨depth - 1, by omega⟩
  exact .bind <| .enter [] <| .bind <| .label <|
    h hnext (Nat.lt_of_succ_lt_succ hdepth) hcovers hguarded hpost

theorem expression (value : Expr .expression) : (Stmt.expression value).Crossed := by
  refine of_form (Stmt.inside_expression value)
    fun depth next rest lines noted m st granted post _ hdepth hcovers _ h => ?_
  simp only [length_append, length_cons] at hdepth
  simp only [append_assoc, cons_append, nil_append]
  refine .bind <| .enter [] <| .bind <| .atWord <| .ifNeg (by decide) <| .bind <|
    secures_expression rfl (by omega) hcovers fun own hown => .bind <| .act <| .shift [_] ?_
  exact h (bind_eq_some_of hown rfl) (by simp [Label.isLoop, -any_eq_true]) (by simp)

theorem read (keyword : Spelling "read") (target : Reference) :
    (Stmt.read keyword target).Crossed := by
  refine of_form (Stmt.inside_read keyword target)
    fun depth next rest lines noted m st granted post _ _ hcovers _ h => ?_
  simp only [append_assoc, cons_append, nil_append]
  refine .bind <| .enter [_] <| .bind <| secures_cellOf (by decide)
    (fun _ _ hfaults hg => hfaults (hcovers hg).sound (hcovers hg).head) fun cell hcell =>
    .bind <| .act <| .bind <| .perform <| .bind <| .act <| .shift [_] ?_
  exact h (bind_eq_some_of hcell rfl) (by simp [Label.isLoop, -any_eq_true]) (by simp)

theorem write (keyword : Spelling "write") (value : Expr .expression) :
    (Stmt.write keyword value).Crossed := by
  refine of_form (Stmt.inside_write keyword value)
    fun depth next rest lines noted m st granted post _ hdepth hcovers _ h => ?_
  simp only [length_append, length_cons] at hdepth
  simp only [append_assoc, cons_append, nil_append]
  refine .bind <| .enter [_] <| .bind <| secures_expression rfl (by omega) hcovers fun own hown =>
    .bind <| .act <| .shift [_] ?_
  exact h (bind_eq_some_of hown rfl) (by simp [Label.isLoop, -any_eq_true]) (by simp)

theorem «return» (value : Expr .expression) : (Stmt.return value).Crossed := by
  refine of_form (Stmt.inside_return value)
    fun depth next rest lines noted m st granted post _ hdepth hcovers _ h => ?_
  simp only [length_append, length_cons] at hdepth
  simp only [append_assoc, cons_append, nil_append]
  refine .bind <| .enter [_] <| .bind <| secures_expression rfl (by omega) hcovers fun own hown =>
    .bind <| .pass [] (.get fun g hg => .bind <| .perform <| .act ?_) (by decide)
  rw [hg.resultCell]
  exact h (bind_eq_some_of hown rfl) (by simp [Label.isLoop, -any_eq_true]) (by simp)

/-- A jump is translated if the generator knows where a `break` goes. -/
theorem jump (keyword : Jump) : (Stmt.jump keyword).Crossed := by
  refine of_form (Stmt.inside_jump keyword)
    fun depth next rest lines noted m st granted post _ _ _ hguarded h => ?_
  refine .bind <| .enter [] <| .get fun g hg => ?_
  have hbreak : g.breakLabel = m.breakLabel := congrArg Marks.breakLabel hg.marks
  have hcontinue : g.continueLabel = m.continueLabel := congrArg Marks.continueLabel hg.marks
  rw [hbreak, hcontinue]
  refine .ite (fun hnone => .bind <| .throw fun hg => ?_) fun hsome => .bind <| .atWord ?_
  · have hjumps : m.breakLabel.isSome = true := by simpa [guarded] using hguarded hg
    rw [Option.isNone_iff_eq_none.1 hnone.1] at hjumps
    exact absurd hjumps Bool.false_ne_true
  have hcode : (Stmt.jump keyword).code st.scopes st.resultCell none m
      = some ([Operation.branch.line (jumpTarget (keyword.target m))], m) :=
    if_neg (by simpa using hsome)
  refine .ite (fun hword => .bind <| .perform <| .shift [_, _] <| h hcode ?_ ?_)
    fun hword => .bind <| .perform <| .shift [_, _] <| h hcode ?_ ?_
  · simp [Label.isLoop]
  · rw [Jump.target, if_pos (by simpa using hword)]
  · simp [Label.isLoop]
  · rw [Jump.target, if_neg (by simpa using hword)]

section Nested

variable {test : Expr .expression} {body : Stmt (.statement dangling)} (hbody : body.Crossed)
include hbody

/-- The code of an `if`, if that of its body is known. -/
theorem ifThen {keyword : Spelling "if"} : (Stmt.ifThen keyword test body).Crossed := by
  refine of_form (Stmt.inside_ifThen keyword test body)
    fun depth next rest lines noted m st granted post hnext hdepth hcovers hguarded h => ?_
  simp only [length_append, length_cons] at hdepth
  simp only [append_assoc, cons_append]
  have hjumps : granted → guarded m.breakLabel.isSome body.inside = true := fun hg => by
    simpa [guarded, Label.isLoop, -any_eq_true] using hguarded hg
  refine .bind <| .enter [_, _] <| .bind <|
    secures_expression rfl (by omega) (fun hg => (hcovers hg).left) fun own hown => .bind <|
    .newLabel <| .bind <| .newLabel <| .bind <| .perform <| .bind <| .pass [] ?_ (by decide)
  refine .bind <| hbody (fun _ => hnext rfl) (by omega) (fun hg => (hcovers hg).right) hjumps
    fun total inner m' noted hinner hknown htotal => .bind <| .perform <| .bind <| .place <|
    .bind <|
    .atWord <| .ifNeg (by simpa using hnext rfl) <| .place ?_
  exact h (bind_eq_some_of hown (bind_eq_some_of hinner rfl))
    (by simp [hknown, Label.isLoop, -any_eq_true]) (by simp [htotal])

/-- The code of a loop, likewise. -/
theorem «while» {keyword : Spelling "while"} : (Stmt.while keyword test body).Crossed := by
  refine of_form (Stmt.inside_while keyword test body)
    fun depth next rest lines noted m st granted post hnext hdepth hcovers _ h => ?_
  simp only [length_append, length_cons] at hdepth
  simp only [append_assoc, cons_append]
  refine .bind <| .enter [_, _] <| .bind <| .newLabel <| .bind <| .newLabel <| .bind <| .place <|
    .bind <| secures_expression rfl (by omega) (fun hg => (hcovers hg).left) fun own hown =>
    .bind <|
    .perform <| .bind <| .pass [] ?_ (by decide)
  refine .bind <| .setJumps <| .bind <| hbody hnext (by omega) (fun hg => (hcovers hg).right)
    (fun _ => guarded_true _) fun total inner m' noted hinner hknown htotal => .bind <| .perform <|
    .place ?_
  exact h (bind_eq_some_of hown (bind_eq_some_of hinner rfl)) (by simp [hknown, Label.isLoop])
    (by simp [htotal])

/-- The code of a loop with its test behind. -/
theorem doWhile : (Stmt.doWhile body test).Crossed := by
  refine of_form (Stmt.inside_doWhile body test)
    fun depth next rest lines noted m st granted post _ hdepth hcovers _ h => ?_
  simp only [length_append, length_cons] at hdepth
  simp only [append_assoc, cons_append, nil_append]
  refine .bind <| .enter [_] <| .bind <| .newLabel <| .bind <| .newLabel <| .bind <| .setJumps <|
    .bind <| .place <| .bind <| hbody (fun _ => by decide) (by omega) (fun hg => (hcovers hg).left)
    (fun _ => guarded_true _) fun total inner m' noted hinner hknown htotal => ?_
  refine .bind <| .label <| .ifPos (by decide) <| .bind <| .shift [_, _] <| .bind <|
    secures_expression rfl (by omega) (fun hg => (hcovers hg).right) fun own hown => .bind <|
    .perform <| .bind <| .perform <| .bind <| .place <| .pass [_] ?_ (by decide)
  exact h (bind_eq_some_of hinner (bind_eq_some_of hown rfl)) (by simp [hknown, Label.isLoop])
    (by simp [htotal])

/-- The code of a counted loop. -/
theorem «for» {keyword : Spelling "for"} {first step : Expr .expression} :
    (Stmt.for keyword first test step body).Crossed := by
  refine of_form (Stmt.inside_for keyword first test step body)
    fun depth next rest lines noted m st granted post hnext hdepth hcovers _ h => ?_
  simp only [length_append, length_cons] at hdepth
  simp only [append_assoc, cons_append]
  refine .bind <| .enter [_, _] <| .bind <| .newLabel <| .bind <| .newLabel <| .bind <| .newLabel <|
    .bind <| .newLabel <| .bind <| secures_expression rfl (by omega)
      (fun hg => (hcovers hg).left.left.left) fun start hstart => .bind <| .pass [] ?_ (by decide)
  refine .bind <| .place <| .bind <| secures_expression rfl (by omega)
    (fun hg => (hcovers hg).left.left.right) fun check hcheck => .bind <| .pass [] ?_ (by decide)
  refine .bind <| .perform <| .bind <| .perform <| .bind <| .place <| .bind <|
    secures_expression rfl (by omega) (fun hg => (hcovers hg).left.right) fun move hmove => .bind <|
    .pass [] ?_ (by decide)
  refine .bind <| .perform <| .bind <| .place <| .bind <| .setJumps <| .bind <|
    hbody hnext (by omega) (fun hg => (hcovers hg).right) (fun _ => guarded_true _)
    fun total inner m' noted hinner hknown htotal => .bind <| .perform <| .place ?_
  exact h (bind_eq_some_of hstart (bind_eq_some_of hcheck (bind_eq_some_of hmove
    (bind_eq_some_of hinner rfl)))) (by simp [hknown, Label.isLoop]) (by simp [htotal])

end Nested

theorem ifElse {keyword : Spelling "if"} {test : Expr .expression} {body : Stmt (.statement false)}
    {otherwise : Stmt (.statement dangling)} (hbody : body.Crossed) (hother : otherwise.Crossed) :
    (Stmt.ifElse keyword test body otherwise).Crossed := by
  refine of_form (Stmt.inside_ifElse keyword test body otherwise)
    fun depth next rest lines noted m st granted post hnext hdepth hcovers hguarded h => ?_
  simp only [length_append, length_cons] at hdepth
  simp only [append_assoc, cons_append]
  have hjumps : granted → guarded m.breakLabel.isSome body.inside = true ∧
      guarded (m.breakLabel.isSome || body.inside.any Label.isLoop) otherwise.inside = true :=
    fun hg => by
      simpa [guarded, guarded_append, Label.isLoop, -any_eq_true] using hguarded hg
  refine .bind <| .enter [_, _] <| .bind <|
    secures_expression rfl (by omega) (fun hg => (hcovers hg).left.left) fun own hown => .bind <|
    .newLabel <| .bind <| .newLabel <| .bind <| .perform <| .bind <| .pass [] ?_ (by decide)
  refine .bind <| hbody (fun hfalse => absurd hfalse Bool.false_ne_true) (by omega)
    (fun hg => (hcovers hg).left.right) (fun hg => (hjumps hg).1)
    fun total inner m' noted hinner hknown htotal => .bind <| .perform <| .bind <| .place <|
      .bind <|
    .atWord <| .ifPos rfl <| .bind <| .shift [_] <| .bind <|
    hother hnext (by omega) (fun hg => (hcovers hg).right) (fun hg => hknown ▸ (hjumps hg).2)
    fun total' other m'' noted' hcode hknown' htotal' => .place ?_
  exact h (bind_eq_some_of hown (bind_eq_some_of hinner (bind_eq_some_of hcode rfl)))
    (by simp [hknown, hknown', Label.isLoop, Bool.or_assoc, -any_eq_true])
    (by simp [htotal, htotal'])

end Stmt.Crossed

/-! ### Sequences of statements -/

/-- The generator writes the code of a sequence of statements, or rejects the program. -/
def Stmt.StepsCrossed (s : Stmt .statements) : Prop :=
  ∀ ⦃depth limit : Nat⦄ ⦃next : Label⦄ ⦃rest : List Label⦄ ⦃lines : List CodeLine⦄
    ⦃noted : List (Nat × Warning)⦄ ⦃m : Marks⦄ ⦃st : Generator⦄ ⦃granted : Prop⦄
    ⦃post : Unit → View → Prop⦄, next ≠ .rule .statement → next ≠ .word "else" →
    s.inside.length ≤ depth → s.inside.length ≤ limit → (granted → st.scopes.Covers s.uses) →
    (granted → guarded m.breakLabel.isSome s.inside = true) →
    s.Continues none lines m st (next :: rest) post →
    Secures (Blames granted) (steps (statement depth) limit)
      ⟨s.inside ++ next :: rest, lines, noted, m, st⟩ post

namespace Stmt.StepsCrossed

theorem done : Stmt.done.StepsCrossed := by
  intro depth limit next rest lines noted m st granted post hnext _ _ _ _ _ h
  exact .repeatWhile_stop (.atRule ⟨by simpa using hnext, rfl⟩) <| h rfl (by simp) (by simp)

/-- The code of a sequence, statement by statement. -/
theorem next {dangling : Bool} {first : Stmt (.statement dangling)} {others : Stmt .statements}
    (hfirst : first.Crossed) (hothers : others.StepsCrossed) :
    (Stmt.next first others).StepsCrossed := by
  intro depth limit next rest lines noted m st granted post hnext helse hdepth hlimit hcovers
    hguarded h
  simp only [Stmt.inside_next, length_append, length_cons] at hdepth hlimit
  simp only [Stmt.inside_next, append_assoc, cons_append]
  have hjumps : granted → guarded m.breakLabel.isSome first.inside = true ∧
      guarded (m.breakLabel.isSome || first.inside.any Label.isLoop) others.inside = true :=
    fun hg => by
      simpa [guarded, guarded_append, Label.isLoop, -any_eq_true] using hguarded hg
  obtain ⟨limit, rfl⟩ : ∃ n, limit = n + 1 := ⟨limit - 1, by omega⟩
  -- no `else` follows the first statement
  obtain ⟨label, more, hhead, hlabel⟩ : ∃ label more, others.inside ++ next ::
    rest = label :: more ∧
      label ≠ .word "else" := by
    cases others with
    | done => exact ⟨next, rest, rfl, helse⟩
    | next => exact ⟨.rule .statement, _, by simp; rfl, by decide⟩
  rw [hhead]
  refine .repeatWhile_go (.atRule ⟨rfl, rfl⟩) <| hfirst (fun _ => hlabel) (by omega)
    (fun hg => (hcovers hg).left) (fun hg => (hjumps hg).1)
    fun total own m' noted hown hknown htotal => ?_
  rw [← hhead]
  refine hothers hnext helse (by omega) (by omega) (fun hg => (hcovers hg).right)
    (fun hg => hknown ▸ (hjumps hg).2) fun total' own' m'' noted' hown' hknown' htotal' => ?_
  exact h (bind_eq_some_of hown (bind_eq_some_of hown' rfl))
    (by simp [hknown, hknown', Label.isLoop, Bool.or_assoc, -any_eq_true])
    (by simp [htotal, htotal'])

/-- A sequence of statements with the label of its branch. -/
theorem statements {s : Stmt .statements} (h : s.StepsCrossed) {depth limit : Nat} {next : Label}
    {rest : List Label} {lines : List CodeLine} {noted : List (Nat × Warning)} {m : Marks}
    {st : Generator} {granted : Prop} {post : Unit → View → Prop} (hnext : next ≠ .rule .statement)
    (helse : next ≠ .word "else") (hdepth : s.inside.length ≤ depth)
    (hlimit : s.inside.length ≤ limit) (hcovers : granted → st.scopes.Covers s.uses)
    (hguarded : granted → guarded m.breakLabel.isSome s.inside = true)
    (hpost : s.Continues none lines m st (next :: rest) post) :
    Secures (Blames granted) (Generate.statements (statement depth) limit)
      ⟨.rule .statements :: (s.inside ++ next :: rest), lines, noted, m, st⟩ post := by
  refine .bind <| .enter [] ?_
  cases s with
  | done =>
    exact .bind <| .atRule <| .ifNeg (by simpa using hnext) <| .warn fun _ =>
      hpost rfl (by simp) (by simp)
  | next first others =>
    have hsteps : Secures (Blames granted) (steps (statement depth) limit)
        ⟨_, lines, noted, m, st⟩ post := h hnext helse hdepth hlimit hcovers hguarded hpost
    rw [Stmt.inside_next] at hsteps ⊢
    exact .bind <| .atRule <| .ifPos rfl hsteps

end Stmt.StepsCrossed

theorem Stmt.Crossed.compound {body : Stmt .statements} (hbody : body.StepsCrossed) :
    (Stmt.compound body).Crossed := by
  refine of_form (Stmt.inside_compound body)
    fun depth next rest lines noted m st granted post _ hdepth hcovers hguarded h => ?_
  simp only [length_append, length_cons] at hdepth
  simp only [append_assoc, cons_append, nil_append]
  have hjumps : granted → guarded m.breakLabel.isSome body.inside = true := fun hg => by
    have hinside := hguarded hg
    simp [guarded, guarded_append, Label.isLoop, -any_eq_true] at hinside
    exact hinside
  refine .bind <| .enter [_] <| .bind <| hbody.statements (by decide) (by decide) (by omega)
    (by omega) hcovers hjumps fun total own m' noted hown hknown htotal => .pass [] ?_ (by decide)
  exact h hown (by simp [hknown, Label.isLoop, -any_eq_true]) htotal

/-! ### Switches -/

namespace Stmt.StepsCrossed

section Clause

variable {body : Stmt .statements} (hbody : body.StepsCrossed) {depth limit : Nat}
  {keyword : String} {number : Numeral} {next : Label} {rest : List Label} {lines : List CodeLine}
  {noted : List (Nat × Warning)} {m : Marks} {st : Generator} {granted : Prop}
  {post : Clauses → View → Prop} (hnext : next ≠ .rule .statement) (helse : next ≠ .word "else")
  (hdepth : body.inside.length ≤ depth) (hlimit : body.inside.length ≤ limit)
  (hcovers : granted → st.scopes.Covers body.uses) (hbreak : m.breakLabel.isSome = true)
include hbody hnext helse hdepth hlimit hcovers hbreak

/-- The first clause of a switch. -/
theorem firstClause {scrutinee : List CodeLine}
    (h : body.Continues none (lines ++ clauseTest number (m.label 1)) (m.use 2) st (next :: rest)
      fun _ w => post ⟨m.label 1, m.label 2, [number.digits]⟩
        { w with lines := w.lines ++ [Operation.branch.line (m.label 2)] }) :
    Secures (Blames granted) (caseClause (statement depth) limit scrutinee none)
      ⟨.rule .caseClause :: .word keyword :: .number number.digits :: .word ":" ::
      .rule .statements ::
        (body.inside ++ next :: rest), lines, noted, m, st⟩ post := by
  refine .bind <| .enter [_] <| .bind <| .newLabel <| .bind <| .newLabel <| .bind <|
    .argument rfl <|
    .ifNeg (by simp) <| .bind <| .perform <| .bind <| .act <| .bind <| .perform <| .bind <|
    .shift [_, _] <| .bind <| hbody.statements hnext helse hdepth hlimit hcovers
      (fun _ => by simp [hbreak]) fun total own m' noted hown hknown htotal => .bind <| .perform <|
      .pure <| h hown hknown ?_
  simpa [clauseTest] using htotal

/-- A clause after the first one; its number may have occurred before. -/
theorem furtherClause {line : CodeLine} {clauses : Clauses}
    (h : number.digits ∉ clauses.numbers → body.Continues none
      (lines ++ ([.label clauses.test, line] ++ clauseTest number (m.label 1) ++
        [.label clauses.body])) (m.use 2) st (next :: rest) fun _ w =>
        post ⟨m.label 1, m.label 2, number.digits :: clauses.numbers⟩
          { w with lines := w.lines ++ [Operation.branch.line (m.label 2)] }) :
    Secures (Blames granted) (caseClause (statement depth) limit [line] (some clauses))
      ⟨.rule .caseClause :: .word keyword :: .number number.digits :: .word ":" ::
      .rule .statements ::
        (body.inside ++ next :: rest), lines, noted, m, st⟩ post := by
  refine .bind <| .enter [_] <| .bind <| .newLabel <| .bind <| .newLabel <| .bind <| .place <|
    .bind <|
    .emit <| .bind <| .argument rfl <| .ite (fun _ => .bind <| .fail fun error _ => ⟨error, rfl⟩)
    fun hnew => .bind <| .perform <| .bind <| .act <| .bind <| .perform <| .bind <| .place <|
      .bind <|
    .shift [_, _] <| .bind <| hbody.statements hnext helse hdepth hlimit hcovers
      (fun _ => by simp [hbreak]) fun total own m' noted hown hknown htotal => .bind <| .perform <|
      .pure <| h (by simpa using hnew) hown hknown ?_
  simpa [clauseTest] using htotal

end Clause

end Stmt.StepsCrossed

/-- The generator writes the clauses of a switch after the first one, or rejects the program; then
it goes on with the last lines of the switch. The label of a `break` is known in a switch. -/
def Stmt.ClausesCrossed (s : Stmt .clauses) : Prop :=
  ∀ ⦃depth limit count : Nat⦄ ⦃line : CodeLine⦄ ⦃first : Clauses⦄ ⦃last : Generate Unit⦄
    ⦃rest : List Label⦄ ⦃lines : List CodeLine⦄ ⦃noted : List (Nat × Warning)⦄ ⦃m : Marks⦄
    ⦃st : Generator⦄ ⦃granted : Prop⦄ ⦃post : Unit → View → Prop⦄, s.inside.length ≤ depth →
    s.inside.length ≤ limit → s.inside.length ≤ count → (granted → st.scopes.Covers s.uses) →
    m.breakLabel.isSome = true →
    s.Continues (some ⟨line, first⟩) lines m st (.word "\x7d" :: rest)
      (fun _ w => Secures (Blames granted) last w post) →
    Secures (Blames granted) (furtherClauses (statement depth) limit [line] count first)
      ⟨s.inside ++ .word "\x7d" :: rest, lines, noted, m, st⟩ fun clauses w =>
        Secures (Blames granted) (do
          place clauses.test
          place clauses.body
          if ← atRule? .defaultClause then defaultClause (statement depth) limit
          last) w post

namespace Stmt.ClausesCrossed

/-- No statement begins where clauses begin. -/
theorem exists_head (s : Stmt .clauses) (rest : List Label) :
    ∃ label more, s.inside ++ .word "\x7d" :: rest = label :: more ∧ label ≠ .rule .statement ∧
      label ≠ .word "else" := by
  cases s with
  | noClause => exact ⟨_, _, rfl, by decide, by decide⟩
  | default => exact ⟨.rule .defaultClause, _, by simp; rfl, by decide, by decide⟩
  | clause => exact ⟨.rule .caseClause, _, by simp; rfl, by decide, by decide⟩

theorem noClause : Stmt.noClause.ClausesCrossed := by
  intro depth limit count line first last rest lines noted m st granted post _ _ _ _ _ h
  exact .repeatWhile_stop (.atRule ⟨rfl, rfl⟩) <| .bind <| .place <| .bind <| .place <| .bind <|
    .atRule <| .ifNeg (by decide) <| h rfl (by simp) (by simp)

theorem default {keyword : Spelling "default"} {body : Stmt .statements}
    (hbody : body.StepsCrossed) : (Stmt.default keyword body).ClausesCrossed := by
  intro depth limit count line first last rest lines noted m st granted post
    hdepth hlimit _ hcovers hbreak h
  simp only [Stmt.inside_default, length_cons] at hdepth hlimit
  simp only [Stmt.inside_default, cons_append]
  refine .repeatWhile_stop (.atRule ⟨rfl, rfl⟩) <| .bind <| .place <| .bind <| .place <| .bind <|
    .atRule <| .ifPos rfl <| .bind <| .bind <| .enter [_, _] <|
    hbody.statements (by decide) (by decide) (by omega) (by omega) hcovers
      (fun _ => by simp [hbreak]) fun total own m' noted hown hknown htotal => ?_
  exact h (bind_eq_some_of hown rfl) (by simp [hknown, hbreak]) (by simp [htotal])

/-- The code of a clause, and of those behind it. -/
theorem clause {keyword : Spelling "case"} {number : Numeral} {body : Stmt .statements}
    {others : Stmt .clauses} (hbody : body.StepsCrossed) (hothers : others.ClausesCrossed) :
    (Stmt.clause keyword number body others).ClausesCrossed := by
  intro depth limit count line first last rest lines noted m st granted post
    hdepth hlimit hcount hcovers hbreak h
  simp only [Stmt.inside_clause, length_append, length_cons] at hdepth hlimit hcount
  simp only [Stmt.inside_clause, append_assoc, cons_append]
  obtain ⟨count, rfl⟩ : ∃ n, count = n + 1 := ⟨count - 1, by omega⟩
  obtain ⟨label, more, hmore, hstatement, helse⟩ := exists_head others rest
  rw [hmore]
  refine .repeatWhile_go (.atRule ⟨rfl, rfl⟩) <| hbody.furtherClause hstatement helse (by omega)
    (by omega) (fun hg => (hcovers hg).left) hbreak
    fun hnew total inner m' noted hinner hknown htotal => ?_
  have hbreak' : m'.breakLabel.isSome = true := by simp [hknown, hbreak]
  rw [← hmore]
  refine hothers (by omega) (by omega) (by omega) (fun hg => (hcovers hg).right) hbreak'
    fun total' rest m'' noted' hrest hknown' htotal' => ?_
  exact h ((if_neg hnew).trans (bind_eq_some_of hinner (bind_eq_some_of hrest rfl)))
    (by simp [hknown', hbreak', hbreak]) (by simp [htotal, htotal'])

end Stmt.ClausesCrossed

/-- The code of a switch. -/
theorem Stmt.Crossed.switch {test : Expr .expression} {keyword : Spelling "case"} {number : Numeral}
    {body : Stmt .statements} {others : Stmt .clauses} (hbody : body.StepsCrossed)
    (hothers : others.ClausesCrossed) : (Stmt.switch test keyword number body others).Crossed := by
  refine of_form (Stmt.inside_switch test keyword number body others)
    fun depth next rest lines noted m st granted post _ hdepth hcovers _ h => ?_
  simp only [length_append, length_cons] at hdepth
  simp only [append_assoc, cons_append, nil_append]
  obtain ⟨label, more, hmore, hstatement, helse⟩ := ClausesCrossed.exists_head others (next :: rest)
  rw [hmore]
  refine .bind <| .enter [_, _] <| .bind <| .newLabel <| .bind <| .setBreak <| .bind <|
    secures_expression rfl (by omega) (fun hg => (hcovers hg).left.left) fun own hown =>
    .get fun g hg => ?_
  -- the last line of the value of the switch is repeated by the other clauses
  obtain ⟨line, hline⟩ : ∃ line, own.getLast? = some line := by
    obtain ⟨before, operand, hlast⟩ := test.exists_code_eq hown
    exact ⟨_, by rw [hlast, List.getLast?_concat]⟩
  have hlast : g.last = [line] := by
    have hcore : g.core.last = [line] := by
      rw [hg.core, Generator.emitLines_last _ _ (by simp [Expr.code_ne_nil hown])]
      simp [hline]
    exact hcore
  rw [hlast]
  refine .bind <| .shift [_, _] <| .bind <| hbody.firstClause hstatement helse (by omega) (by omega)
    (fun hg => (hcovers hg).left.right) rfl fun total inner m' noted hinner hknown htotal => ?_
  have hbreak : m'.breakLabel.isSome = true := by simp [hknown]
  rw [← hmore]
  refine .bind <| hothers (by omega) (by omega) (by omega) (fun hg => (hcovers hg).right) hbreak
    fun total' more m'' noted' hrest hknown' htotal' => .bind <| .place <| .pass [] ?_ (by decide)
  exact h (bind_eq_some_of hown (bind_eq_some_of hline (bind_eq_some_of hinner
    (bind_eq_some_of hrest rfl)))) (by simp [hknown', hbreak, Label.isLoop])
    (by simp [htotal, htotal', Marks.label, Marks.use])

/-! ### All of them -/

/-- What is said of a plain phrase. -/
def Stmt.CrossedPart : {part : Part} → Stmt part → Prop
  | .statement _, s => s.Crossed
  | .statements, s => s.StepsCrossed
  | .clauses, s => s.ClausesCrossed

/-- **The generator writes the code of plain statements, or it rejects the program**, if the names
are known and the jumps are guarded. -/
theorem Stmt.crossed {part : Part} (s : Stmt part) (hplain : s.plain = true) : s.CrossedPart := by
  induction s with
  | empty => exact Bool.noConfusion hplain
  | expression value => exact Crossed.expression value
  | read keyword target => exact Crossed.read keyword target
  | write keyword value => exact Crossed.write keyword value
  | compound body hbody => exact Crossed.compound (hbody hplain)
  | ifThen keyword test body hbody => exact Crossed.ifThen (hbody hplain)
  | ifElse keyword test body otherwise hbody hother =>
    obtain ⟨hfirst, hsecond⟩ := Bool.and_eq_true_iff.1 hplain
    exact Crossed.ifElse (hbody hfirst) (hother hsecond)
  | «while» keyword test body hbody => exact Crossed.while (hbody hplain)
  | doWhile body test hbody => exact Crossed.doWhile (hbody hplain)
  | «for» keyword first test step body hbody => exact Crossed.for (hbody hplain)
  | switch test keyword number body rest hbody hrest =>
    obtain ⟨hfirst, hsecond⟩ := Bool.and_eq_true_iff.1 hplain
    exact Crossed.switch (hbody hfirst) (hrest hsecond)
  | jump keyword => exact Crossed.jump keyword
  | «return» value => exact Crossed.return value
  | done => exact StepsCrossed.done
  | next first rest hfirst hrest =>
    obtain ⟨hplainFirst, hplainRest⟩ := Bool.and_eq_true_iff.1 hplain
    exact StepsCrossed.next (hfirst hplainFirst) (hrest hplainRest)
  | noClause => exact ClausesCrossed.noClause
  | default keyword body hbody => exact ClausesCrossed.default (hbody hplain)
  | clause keyword number body rest hbody hrest =>
    obtain ⟨hfirst, hsecond⟩ := Bool.and_eq_true_iff.1 hplain
    exact ClausesCrossed.clause (hbody hfirst) (hrest hsecond)

end ScoreLang
