import ScoreLang.Proofs.Code.Segments

/-!
# Where Jumps Lead

A `break` is to leave the innermost loop or switch around it, and a `continue` is to go on with the
innermost loop. The generator keeps one label for each of the two. It sets them at the beginning of
a loop or a switch and does not restore them at the end, so that a jump goes by the loop or the
switch that was begun last.

The rules for the code of statements have a variant, `JumpScope.lexical`, in which the labels hold
in their loop or switch only. A program is *orderly* if no loop or switch ends between a jump and
the beginning of the loop or the switch to which it belongs. In that case its code is the same by
either variant of the rules.

## Main results

* `Stmt.orderly`: whether the loops and switches before a jump make no difference to it;
* `Stmt.Coded.lexical`: the code of an orderly statement;
* `generate_lexical`: **jumps belong to the innermost loop or switch** in an orderly program.
-/

namespace ScoreLang

open List

namespace Stmt

/-- Whether there is a loop in a phrase. -/
def loops : {part : Part} → Stmt part → Bool
  | _, .compound body => body.loops
  | _, .ifThen _ _ body => body.loops
  | _, .ifElse _ _ body otherwise => body.loops || otherwise.loops
  | _, .while _ _ _ | _, .doWhile _ _ | _, .for _ _ _ _ _ => true
  | _, .switch _ _ _ body rest => body.loops || rest.loops
  | _, .next first rest => first.loops || rest.loops
  | _, .default _ body => body.loops
  | _, .clause _ _ body rest => body.loops || rest.loops
  | _, _ => false

/-- Whether there is a loop or a switch in a phrase. -/
def closes : {part : Part} → Stmt part → Bool
  | _, .compound body => body.closes
  | _, .ifThen _ _ body => body.closes
  | _, .ifElse _ _ body otherwise => body.closes || otherwise.closes
  | _, .while _ _ _ | _, .doWhile _ _ | _, .for _ _ _ _ _ | _, .switch _ _ _ _ _ => true
  | _, .next first rest => first.closes || rest.closes
  | _, .default _ body => body.closes
  | _, .clause _ _ body rest => body.closes || rest.closes
  | _, _ => false

/-- Whether no loop or switch has ended before a jump in the loop or the switch that it leaves, and
no loop in the loop with which it goes on. The flags say whether a loop or a switch has ended
before the phrase, and whether a loop has. -/
def orderly (closed looped : Bool) : {part : Part} → Stmt part → Bool
  | _, .compound body => body.orderly closed looped
  | _, .ifThen _ _ body => body.orderly closed looped
  | _, .ifElse _ _ body otherwise => body.orderly closed looped &&
    otherwise.orderly (closed || body.closes) (looped || body.loops)
  | _, .while _ _ body => body.orderly false false
  | _, .doWhile body _ => body.orderly false false
  | _, .for _ _ _ _ body => body.orderly false false
  | _, .switch _ _ _ body rest => body.orderly false looped &&
    rest.orderly body.closes (looped || body.loops)
  | _, .jump keyword => if keyword.text = "break" then !closed else !looped
  | _, .next first rest => first.orderly closed looped &&
    rest.orderly (closed || first.closes) (looped || first.loops)
  | _, .default _ body => body.orderly closed looped
  | _, .clause _ _ body rest => body.orderly closed looped &&
    rest.orderly (closed || body.closes) (looped || body.loops)
  | _, _ => true

end Stmt

/-- The marks by the two variants of the rules, after loops and switches as the first two flags
say, in a loop or a switch as the other two flags say. -/
structure Marks.Agree (closed looped inside within : Bool) (m n : Marks) : Prop where
  labels : n.labels = m.labels
  breaks : closed = false → n.breakLabel = m.breakLabel
  continues : looped = false → n.continueLabel = m.continueLabel
  inside : inside = true → n.breakLabel ≠ none
  within : within = true → n.continueLabel ≠ none

namespace Marks.Agree

variable {closed looped inside within : Bool} {m n : Marks}

variable (h : Agree closed looped inside within m n)

include h

theorem label_eq (number : Nat) :
    n.label number = m.label number := by
  rw [Marks.label, Marks.label, h.labels]

theorem use (count : Nat) :
    Agree closed looped inside within (m.use count) (n.use count) :=
  ⟨congrArg (· + count) h.labels, h.breaks, h.continues, h.inside, h.within⟩

theorem or_false :
    Agree (closed || false) (looped || false) inside within m n := by
  simpa only [Bool.or_false] using h

/-- In a loop the two variants agree. -/
theorem loop (count : Nat) (first second : String) :
    Agree false false true true (m.loop count first second) (n.loop count first second) :=
  ⟨congrArg (· + count) h.labels, fun _ => rfl, fun _ => rfl, by simp [Marks.loop],
    by simp [Marks.loop]⟩

/-- After a loop they agree about the number of labels. -/
theorem after {m' n' : Marks} (hlabels : n'.labels = m'.labels) :
    Agree true true inside within (JumpScope.lasting.after m m') (JumpScope.lexical.after n n') :=
  ⟨hlabels, by simp, by simp, h.inside, h.within⟩

theorem target_eq {keyword : Jump} (horderly : (Stmt.jump keyword).orderly closed looped = true) :
    keyword.target n = keyword.target m := by
  unfold Jump.target
  simp only [Stmt.orderly] at horderly
  split at horderly
  · rename_i hbreak
    rw [if_pos hbreak, if_pos hbreak, h.breaks (by simpa using horderly)]
  · rename_i hbreak
    rw [if_neg hbreak, if_neg hbreak, h.continues (by simpa using horderly)]

theorem jump {keyword : Jump} (hplaced : (Stmt.jump keyword).placed inside within = true) :
    ¬(n.breakLabel = none ∧ n.continueLabel = none) := by
  rintro ⟨hbreak, hcontinue⟩
  simp only [Stmt.placed] at hplaced
  split at hplaced
  · exact h.inside hplaced hbreak
  · exact h.within hplaced hcontinue

end Marks.Agree

/-- **The code of an orderly statement** is the same if the labels of jumps hold in their loop or
switch only. -/
theorem Stmt.Coded.lexical {scopes : Scopes} {result : String} {part : Part} {s : Stmt part}
    {opened : Option Opened} {m m' n : Marks} {lines : List CodeLine}
    (h : Coded .lasting scopes result s opened m lines m') {closed looped inside within : Bool}
    (hplaced : s.placed inside within = true) (horderly : s.orderly closed looped = true)
    (hagree : Marks.Agree closed looped inside within m n) :
    ∃ n', Coded .lexical scopes result s opened n lines n' ∧ n'.breakLabel = n.breakLabel ∧
      n'.continueLabel = n.continueLabel ∧
      Marks.Agree (closed || s.closes) (looped || s.loops) inside within m' n' := by
  induction h generalizing n closed looped inside within with
  | empty => exact ⟨n, .empty, rfl, rfl, hagree.or_false⟩
  | expression hvalue => exact ⟨n, .expression hvalue, rfl, rfl, hagree.or_false⟩
  | read hcell => exact ⟨n, .read hcell, rfl, rfl, hagree.or_false⟩
  | write hvalue => exact ⟨n, .write hvalue, rfl, rfl, hagree.or_false⟩
  | «return» hvalue => exact ⟨n, .return hvalue, rfl, rfl, hagree.or_false⟩
  | done => exact ⟨n, .done, rfl, rfl, hagree.or_false⟩
  | noClause => exact ⟨n, .noClause, rfl, rfl, hagree.or_false⟩
  | jump _ =>
    rw [← hagree.target_eq horderly]
    exact ⟨n, .jump (hagree.jump hplaced), rfl, rfl, hagree.or_false⟩
  | compound _ ih =>
    obtain ⟨n', hbody, hrest⟩ := ih hplaced horderly hagree
    exact ⟨n', .compound hbody, hrest⟩
  | ifThen htest _ ih =>
    obtain ⟨n', hbody, hrest⟩ := ih hplaced horderly (hagree.use 2)
    simp only [← hagree.label_eq]
    exact ⟨n', .ifThen htest hbody, hrest⟩
  | ifElse htest _ _ ih ih' =>
    simp only [placed, orderly, Bool.and_eq_true] at hplaced horderly
    obtain ⟨n', hbody, hbreak, hcontinue, hagree'⟩ := ih hplaced.1 horderly.1 (hagree.use 2)
    obtain ⟨n'', hother, hbreak', hcontinue', hagree''⟩ := ih' hplaced.2 horderly.2 hagree'
    simp only [← hagree.label_eq]
    refine ⟨n'', .ifElse htest hbody hother, hbreak'.trans hbreak, hcontinue'.trans hcontinue, ?_⟩
    simpa only [closes, loops, Bool.or_assoc] using hagree''
  | «while» htest _ ih =>
    obtain ⟨n', hbody, -, -, hagree'⟩ := ih hplaced horderly (hagree.loop 2 _ _)
    simp only [← hagree.label_eq] at hbody ⊢
    refine ⟨_, .while htest hbody, rfl, rfl, ?_⟩
    simpa only [closes, loops, Bool.or_true] using hagree.after hagree'.labels
  | doWhile _ htest ih =>
    obtain ⟨n', hbody, -, -, hagree'⟩ := ih hplaced horderly (hagree.loop 2 _ _)
    simp only [← hagree.label_eq] at hbody ⊢
    refine ⟨_, .doWhile hbody htest, rfl, rfl, ?_⟩
    simpa only [closes, loops, Bool.or_true] using hagree.after hagree'.labels
  | «for» hfirst htest hstep _ ih =>
    obtain ⟨n', hbody, -, -, hagree'⟩ := ih hplaced horderly (hagree.loop 4 _ _)
    simp only [← hagree.label_eq] at hbody ⊢
    refine ⟨_, .for hfirst htest hstep hbody, rfl, rfl, ?_⟩
    simpa only [closes, loops, Bool.or_true] using hagree.after hagree'.labels
  | @switch _ _ _ _ _ _ m _ _ _ _ _ _ htest hline _ _ ih ih' =>
    simp only [placed, orderly, Bool.and_eq_true] at hplaced horderly
    have hinside : Marks.Agree false looped true within
        ⟨m.labels + 3, some (m.label 1), m.continueLabel⟩
        ⟨n.labels + 3, some (n.label 1), n.continueLabel⟩ :=
      ⟨congrArg (· + 3) hagree.labels, fun _ => congrArg some (hagree.label_eq 1), hagree.continues,
        by simp, hagree.within⟩
    obtain ⟨n', hbody, hbreak, hcontinue, hagree'⟩ := ih hplaced.1 horderly.1 hinside
    obtain ⟨n'', hmore, hbreak', hcontinue', hagree''⟩ :=
      ih' hplaced.2 (by simpa using horderly.2) hagree'
    simp only [← hagree.label_eq] at hmore ⊢
    refine ⟨_, .switch htest hline hbody hmore, rfl, rfl, hagree''.labels, ?_, ?_, hagree.inside,
      hagree.within⟩
    · simp [closes]
    · intro hnot
      rw [loops, ← Bool.or_assoc] at hnot
      exact (hcontinue'.trans hcontinue).symm.trans (hagree''.continues hnot)
  | next _ _ ih ih' =>
    simp only [placed, orderly, Bool.and_eq_true] at hplaced horderly
    obtain ⟨n', hfirst, hbreak, hcontinue, hagree'⟩ := ih hplaced.1 horderly.1 hagree
    obtain ⟨n'', hrest, hbreak', hcontinue', hagree''⟩ := ih' hplaced.2 horderly.2 hagree'
    refine ⟨n'', .next hfirst hrest, hbreak'.trans hbreak, hcontinue'.trans hcontinue, ?_⟩
    simpa only [closes, loops, Bool.or_assoc] using hagree''
  | default _ ih =>
    obtain ⟨n', hbody, hrest⟩ := ih hplaced horderly hagree
    exact ⟨n', .default hbody, hrest⟩
  | clause hnumber _ _ ih ih' =>
    simp only [placed, orderly, Bool.and_eq_true] at hplaced horderly
    obtain ⟨n', hbody, hbreak, hcontinue, hagree'⟩ := ih hplaced.1 horderly.1 (hagree.use 2)
    obtain ⟨n'', hmore, hbreak', hcontinue', hagree''⟩ := ih' hplaced.2 horderly.2 hagree'
    simp only [← hagree.label_eq] at hmore ⊢
    refine ⟨n'', .clause hnumber hbody hmore, hbreak'.trans hbreak, hcontinue'.trans hcontinue, ?_⟩
    simpa only [closes, loops, Bool.or_assoc] using hagree''

/-! ### Programs -/

/-- Some lines end with the code of the statements of a body, in which the labels of jumps hold in
their loop or switch only. -/
def Body.LexicalIn (body : Body) (lines : List CodeLine) : Prop :=
  ∃ scopes result labels m first steps,
    Stmt.Coded .lexical scopes result body.steps none ⟨labels, none, none⟩ steps m ∧
    lines = first ++ steps

theorem Body.CodedIn.lexicalIn {body : Body} {calls : String → Nat → Prop} {lines : List CodeLine}
    (h : body.CodedIn calls lines) (hplaced : body.steps.placed false false = true)
    (horderly : body.steps.orderly true true = true) : body.LexicalIn lines := by
  obtain ⟨scopes, result, m, m', first, steps, -, hcoded, hlines⟩ := h
  -- there is nothing that a jump could leave before the first loop or switch
  have hagree : Marks.Agree true true false false m ⟨m.labels, none, none⟩ :=
    ⟨rfl, by simp, by simp, by simp, by simp⟩
  obtain ⟨n', hlexical, -⟩ := hcoded.lexical hplaced horderly hagree
  exact ⟨scopes, result, m.labels, n', first, steps, hlexical, hlines⟩

/-- Whether the bodies of a program are orderly. -/
def Program.orderly (program : Program) : Bool :=
  program.functions.all (·.body.steps.orderly true true) && program.body.steps.orderly true true

/-- The code of the functions of a program and of its main function, in which the labels of jumps
hold in their loop or switch only. -/
structure ProgramCode.IsLexical (code : ProgramCode) (program : Program) : Prop where
  /-- Each function has a segment. -/
  functions : Forall₂ (fun function part => ∃ segment : Segment, part = segment.lines ∧
    function.body.LexicalIn segment.body) program.functions code.functions
  /-- The main function. -/
  main : program.body.LexicalIn code.main

/-- **Jumps belong to the innermost loop or switch** in an orderly program in which no semicolon
stands alone and every jump is placed: its code is that by the rules in which the label of `break`
is that of the innermost loop or switch, and the label of `continue` that of the innermost loop.
The first one stands behind the loop or switch. The second one stands before the test of a `while`
and before the third expression of a `for`, but in a `do` it stands before the body and not, as it
should, before the test. -/
theorem generate_lexical {tree : SyntaxTree} {program : Program} {labels : Nat} {g : Generator}
    (hshape : tree.shape = program.tree) (hplain : program.plain = true)
    (hplaced : program.placed = true) (horderly : program.orderly = true)
    (h : generate tree labels = (.ok (), g)) :
    ∃ code : ProgramCode, g.written.toList = code.lines ∧ code.IsLexical program := by
  obtain ⟨code, hcode, hwritten, -⟩ := generate_plain hshape hplain h
  have hfollows : code.Follows program False := Program.code_follows hplaced False.elim hcode
  simp only [Program.placed, Program.orderly, Bool.and_eq_true, all_eq_true] at hplaced horderly
  refine ⟨code, hwritten, ?_, hfollows.steps.lexicalIn hplaced.2 horderly.2⟩
  rw [forall₂_iff_get]
  refine ⟨hfollows.functions.length_eq, fun i hi hi' => ?_⟩
  obtain ⟨segment, hlines, -, hcoded⟩ := (forall₂_iff_get.1 hfollows.functions).2 i hi hi'
  exact ⟨segment, hlines, hcoded.lexicalIn (hplaced.1 _ (get_mem _ _)) (horderly.1 _ (get_mem _ _))⟩

theorem generate_lexical_calling : ∃ parsed g, ∃ code : ProgramCode,
    parse (tokenize callingText.toList).lines = .ok parsed ∧
    generate parsed.tree 0 = (.ok (), g) ∧ g.written.toList = code.lines ∧
    code.IsLexical calling := by
  obtain ⟨parsed, g, hparse, hshape, hok⟩ := exists_generate_calling
  obtain ⟨code, hwritten, hlexical⟩ := generate_lexical hshape (by decide +kernel)
    (by decide +kernel) (by decide +kernel) hok
  exact ⟨parsed, g, code, hparse, hok, hwritten, hlexical⟩

end ScoreLang
