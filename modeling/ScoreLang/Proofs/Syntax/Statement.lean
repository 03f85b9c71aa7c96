import Mathlib.Data.List.Chain
import ScoreLang.Proofs.Syntax.Basic

/-!
# Statements in Preorder

The labels of a statement in preorder, form by form (`Stmt.inside`).
-/

namespace ScoreLang

namespace Stmt

/-! ### Labels -/

/-- The labels below that of a statement, those of a sequence, or those of some clauses, in
preorder. -/
def inside {part : Part} (s : Stmt part) : List Label := s.sons.flatMap Tree.listing

/-- A semicolon. -/
@[simp] theorem inside_empty :
    Stmt.empty.inside = [.rule .expressionStatement, .word ";"] := by
  simp [inside, sons, phrase, word]

/-- An expression, with its semicolon. -/
@[simp] theorem inside_expression (value : Expr .expression) :
    (Stmt.expression value).inside
      = .rule .expressionStatement :: (value.labels ++ [.word ";"]) := by
  simp [inside, sons, phrase, word, value.listing_tree]

/-- A `read`, with the name that it reads. -/
@[simp] theorem inside_read (keyword : Spelling "read") (target : Reference) :
    (Stmt.read keyword target).inside
      = .rule .readStatement :: .word keyword.text :: (target.labels ++ [.word ";"]) := by
  simp [inside, sons, phrase, word, target.listing_tree]

/-- A `write`, with its expression. -/
@[simp] theorem inside_write (keyword : Spelling "write") (value : Expr .expression) :
    (Stmt.write keyword value).inside
      = .rule .writeStatement :: .word keyword.text :: (value.labels ++ [.word ";"]) := by
  simp [inside, sons, phrase, word, value.listing_tree]

/-- Braces around a sequence. -/
@[simp] theorem inside_compound (body : Stmt .statements) :
    (Stmt.compound body).inside
      = .rule .compound :: .word "\x7b" :: .rule .statements :: (body.inside ++
      [.word "\x7d"]) := by
  simp [inside, sons, phrase, word]

variable {dangling : Bool}

/-- An `if` without an `else`. -/
@[simp] theorem inside_ifThen (keyword : Spelling "if") (test : Expr .expression)
    (body : Stmt (.statement dangling)) :
    (Stmt.ifThen keyword test body).inside
      = .rule .ifStatement :: .word keyword.text :: .word "(" ::
        (test.labels ++ .word ")" :: .rule .statement :: body.inside) := by
  simp [inside, sons, phrase, word, test.listing_tree]

/-- An `if` with an `else`. -/
@[simp] theorem inside_ifElse (keyword : Spelling "if") (test : Expr .expression)
    (body : Stmt (.statement false)) (otherwise : Stmt (.statement dangling)) :
    (Stmt.ifElse keyword test body otherwise).inside
      = .rule .ifStatement :: .word keyword.text :: .word "(" ::
        (test.labels ++ .word ")" :: .rule .statement ::
          (body.inside ++ .word "else" :: .rule .statement :: otherwise.inside)) := by
  simp [inside, sons, phrase, word, test.listing_tree]

/-- A loop with its test before its body. -/
@[simp] theorem inside_while (keyword : Spelling "while") (test : Expr .expression)
    (body : Stmt (.statement dangling)) :
    (Stmt.while keyword test body).inside
      = .rule .whileStatement :: .word keyword.text :: .word "(" ::
        (test.labels ++ .word ")" :: .rule .statement :: body.inside) := by
  simp [inside, sons, phrase, word, test.listing_tree]

/-- A loop with its test behind its body. -/
@[simp] theorem inside_doWhile (body : Stmt (.statement dangling)) (test : Expr .expression) :
    (Stmt.doWhile body test).inside
      = .rule .doWhile :: .word "do" :: .rule .statement ::
        (body.inside ++ .word "while" :: .word "(" ::
          (test.labels ++ [.word ")", .word ";"])) := by
  simp [inside, sons, phrase, word, test.listing_tree]

/-- A loop with three expressions before its body. -/
@[simp] theorem inside_for (keyword : Spelling "for") (first test step : Expr .expression)
    (body : Stmt (.statement dangling)) :
    (Stmt.for keyword first test step body).inside
      = .rule .forStatement :: .word keyword.text :: .word "(" ::
        (first.labels ++ .word ";" :: (test.labels ++ .word ";" ::
          (step.labels ++ .word ")" :: .rule .statement :: body.inside))) := by
  simp [inside, sons, phrase, word, first.listing_tree, test.listing_tree, step.listing_tree]

/-- A `switch`, with its first clause and the others. -/
@[simp] theorem inside_switch (test : Expr .expression) (keyword : Spelling "case")
    (number : Numeral) (body : Stmt .statements) (rest : Stmt .clauses) :
    (Stmt.switch test keyword number body rest).inside
      = .rule .switchStatement :: .word "switch" :: .word "(" ::
        (test.labels ++ .word ")" :: .word "\x7b" :: .rule .caseClause :: .word keyword.text ::
          .number number.digits :: .word ":" :: .rule .statements ::
            (body.inside ++ (rest.inside ++ [.word "\x7d"]))) := by
  simp [inside, sons, phrase, word, test.listing_tree, clauseTree, Numeral.leaf]

/-- A `break` or `continue`. -/
@[simp] theorem inside_jump (keyword : Jump) :
    (Stmt.jump keyword).inside = [.rule .jump, .word keyword.text, .word ";"] := by
  simp [inside, sons, phrase, word]

/-- A `return`, with its expression. -/
@[simp] theorem inside_return (value : Expr .expression) :
    (Stmt.return value).inside
      = .rule .returnStatement :: .word "return" :: (value.labels ++ [.word ";"]) := by
  simp [inside, sons, phrase, word, value.listing_tree]

/-- The end of a sequence. -/
@[simp] theorem inside_done : Stmt.done.inside = [] := rfl

/-- A statement and those behind it. -/
@[simp] theorem inside_next (first : Stmt (.statement dangling)) (rest : Stmt .statements) :
    (Stmt.next first rest).inside = .rule .statement :: (first.inside ++ rest.inside) := by
  simp [inside, sons, phrase]

/-- The end of the clauses. -/
@[simp] theorem inside_noClause : Stmt.noClause.inside = [] := rfl

/-- The `default` clause. -/
@[simp] theorem inside_default (keyword : Spelling "default") (body : Stmt .statements) :
    (Stmt.default keyword body).inside
      = .rule .defaultClause :: .word keyword.text :: .word ":" :: .rule .statements ::
        body.inside := by
  simp [inside, sons, phrase, word]

/-- A `case` clause and those behind it. -/
@[simp] theorem inside_clause (keyword : Spelling "case") (number : Numeral)
    (body : Stmt .statements) (rest : Stmt .clauses) :
    (Stmt.clause keyword number body rest).inside
      = .rule .caseClause :: .word keyword.text :: .number number.digits :: .word ":" ::
        .rule .statements :: (body.inside ++ rest.inside) := by
  simp [inside, sons, phrase, word, clauseTree, Numeral.leaf]

end Stmt

end ScoreLang
