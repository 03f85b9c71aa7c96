import ScoreLang.Parse.Statement
import ScoreLang.Proofs.Parse.Expression

/-!
# The Parser Reads Statements

Every rule of statements returns the tree of a statement. Two things are said beyond that. The leaf
of a reserved word keeps the spelling of the word, which is known to be that of the rule because the
rule is chosen by the kind of the word. And an `else` belongs to the nearest `if`: after a statement
that could take an `else` the current word is none, since the parser would have read it.
-/

namespace ScoreLang.Parse

open List

/-- The current word is an `else`. -/
def State.atElse (s : State) : Bool := s.word.any fun token => token.kind == .kwElse

/-- What is read below a `statement` is the tree of a statement, which has taken an `else` that it
could take. -/
def IsStmt (trees : List SyntaxTree) (s' : State) : Prop :=
  (∃ (dangling : Bool) (x : Stmt (.statement dangling)), trees.map SyntaxTree.shape = x.sons ∧
    (dangling = true → s'.atElse = false)) ∧ s'.Spelled

/-- An action reads statements. -/
def ReadsStmt (action : Parse SyntaxTree) : Prop :=
  ∀ {s s' : State} {tree : SyntaxTree}, s.Spelled → Reads action s tree s' →
    ∃ trees line, tree = .branch .statement line trees ∧ IsStmt trees s'

variable {limit : Nat} {rule : Rule} {s s' : State} {tree : SyntaxTree} {token : Token}

theorem IsStmt.closed {trees : List SyntaxTree} (x : Stmt (.statement false))
    (h : trees.map SyntaxTree.shape = x.sons) (hs : s'.Spelled) : IsStmt trees s' :=
  ⟨⟨false, x, h, by simp⟩, hs⟩

/-! ### Parts of statements -/

section

variable (hs : s.Spelled)

include hs

/-- A test in parentheses. -/
theorem reads_condition {trees : List SyntaxTree} (h : Reads (condition rule limit) s trees s') :
    (∃ e : Expr .expression, trees.map SyntaxTree.shape = [word "(", e.tree, word ")"]) ∧
      s'.Spelled := by
  simp only [condition, reads_bind, reads_pure] at h
  obtain ⟨opening, t, hopening, _, u, hread, test, v, htest, closing, _, hclosing, rfl, rfl⟩ := h
  obtain ⟨hleft, ht⟩ := reads_nextLeaf hs hopening
  obtain ⟨⟨e, he⟩, hv⟩ := readsExpr_expression limit (ht.readWord hread) htest
  obtain ⟨hright, rfl⟩ := reads_expectLeaf hclosing
  exact ⟨⟨e, by simp [hleft, he, hright, Kind.text]⟩, hv⟩

/-- A semicolon. -/
theorem reads_semicolon (h : Reads (semicolon rule) s tree s') :
    tree.shape = word ";" ∧ s'.Spelled := by
  simp only [semicolon, reads_bind, reads_pure] at h
  obtain ⟨_, _, hsign, _, _, hread, rfl, rfl⟩ := h
  obtain ⟨hshape, rfl⟩ := reads_expectLeaf hsign
  exact ⟨hshape, hs.readWord hread⟩

/-- A right brace. -/
theorem reads_rightBrace (h : Reads (rightBrace rule) s tree s') :
    tree.shape = word "\x7d" ∧ s'.Spelled := by
  simp only [rightBrace, reads_bind, reads_pure] at h
  obtain ⟨_, _, hsign, _, _, hread, rfl, rfl⟩ := h
  obtain ⟨hshape, rfl⟩ := reads_expectLeaf hsign
  exact ⟨hshape, hs.readWord hread⟩

/-! ### Statements without statements in them -/

/-- A `return`. -/
theorem reads_returnStatement (h : Reads (returnStatement limit) s tree s') :
    IsStmt [tree] s' := by
  simp only [returnStatement, reads_branch, reads_bind, reads_pure] at h
  obtain ⟨_, ⟨keyword, _, hkeyword, _, t, hread, value, u, hvalue, sign, _, hsign, rfl, rfl⟩,
    rfl⟩ := h
  obtain ⟨hreturn, rfl⟩ := reads_kindLeaf hkeyword
  obtain ⟨⟨e, he⟩, hu⟩ := readsExpr_expression limit (hs.readWord hread) hvalue
  obtain ⟨hend, hs'⟩ := reads_semicolon hu hsign
  exact .closed (.return e) (by simp [hreturn, he, hend, Stmt.sons, Kind.text]) hs'

/-- A `write`. -/
theorem reads_writeStatement (hword : s.word = some token) (hkind : token.kind = .kwWrite)
    (h : Reads (writeStatement limit) s tree s') :
    IsStmt [tree] s' := by
  simp only [writeStatement, reads_branch, reads_bind, reads_pure] at h
  obtain ⟨_, ⟨leaf, _, hleaf, _, t, hread, value, u, hvalue, sign, _, hsign, rfl, rfl⟩, rfl⟩ := h
  obtain ⟨⟨keyword, hkeyword⟩, rfl⟩ := reads_spelledLeaf_reserved hs hword hkind rfl hleaf
  obtain ⟨⟨e, he⟩, hu⟩ := readsExpr_expression limit (hs.readWord hread) hvalue
  obtain ⟨hend, hs'⟩ := reads_semicolon hu hsign
  exact .closed (.write keyword e) (by simp [hkeyword, he, hend, Stmt.sons]) hs'

/-- A `read`. -/
theorem reads_readStatement (hword : s.word = some token) (hkind : token.kind = .kwRead)
    (h : Reads readStatement s tree s') : IsStmt [tree] s' := by
  simp only [readStatement, reads_branch, reads_bind, reads_pure, reads_expect] at h
  obtain ⟨_, ⟨leaf, _, hleaf, _, t, hread, _, _, ⟨-, -, rfl⟩, ⟨target, index⟩, u, htarget, sign, _,
    hsign, rfl, rfl⟩, rfl⟩ := h
  obtain ⟨⟨keyword, hkeyword⟩, rfl⟩ := reads_spelledLeaf_reserved hs hword hkind rfl hleaf
  obtain ⟨⟨reference, hreference, -⟩, hu⟩ := reads_reference (hs.readWord hread) htarget
  obtain ⟨hend, hs'⟩ := reads_semicolon hu hsign
  exact .closed (.read keyword reference) (by simp [hkeyword, hreference, hend, Stmt.sons]) hs'

/-- An expression, or a semicolon alone. -/
theorem reads_expressionStatement (h : Reads (expressionStatement limit) s
    tree s') : IsStmt [tree] s' := by
  simp only [expressionStatement, reads_branch, reads_bind, reads_at?] at h
  obtain ⟨_, ⟨_, _, ⟨rfl, rfl⟩, h⟩, rfl⟩ := h
  split at h
  · simp only [reads_bind, reads_pure] at h
    obtain ⟨sign, _, hsign, rfl, rfl⟩ := h
    obtain ⟨hend, hs'⟩ := reads_semicolon hs hsign
    exact .closed .empty (by simp [hend, Stmt.sons]) hs'
  · simp only [reads_bind, reads_pure] at h
    obtain ⟨value, t, hvalue, sign, _, hsign, rfl, rfl⟩ := h
    obtain ⟨⟨e, he⟩, ht⟩ := readsExpr_expression limit hs hvalue
    obtain ⟨hend, hs'⟩ := reads_semicolon ht hsign
    exact .closed (.expression e) (by simp [he, hend, Stmt.sons]) hs'

/-- A `break` or `continue`. -/
theorem reads_jump (hword : s.word = some token)
    (hkind : token.kind = .kwBreak ∨ token.kind = .kwContinue) (h : Reads jump s tree s') :
    IsStmt [tree] s' := by
  simp only [jump, reads_branch, reads_bind, reads_pure] at h
  obtain ⟨_, ⟨leaf, u, hleaf, _, t, hread, sign, _, hsign, rfl, rfl⟩, rfl⟩ := h
  obtain ⟨⟨keyword, hkeyword⟩, rfl⟩ :
      (∃ keyword : Jump, leaf.shape = word keyword.text) ∧ s = u := by
    rcases hkind with hkind | hkind
    · obtain ⟨⟨keyword, hkeyword⟩, rfl⟩ := reads_spelledLeaf_reserved hs hword hkind rfl hleaf
      exact ⟨⟨.stop keyword, hkeyword⟩, rfl⟩
    · obtain ⟨⟨keyword, hkeyword⟩, rfl⟩ := reads_spelledLeaf_reserved hs hword hkind rfl hleaf
      exact ⟨⟨.again keyword, hkeyword⟩, rfl⟩
  obtain ⟨hend, hs'⟩ := reads_semicolon (hs.readWord hread) hsign
  exact .closed (.jump keyword) (by simp [hkeyword, hend, Stmt.sons]) hs'

end

/-! ### Statements with statements in them -/

section

variable {statement : Bool → Parse SyntaxTree} (hstatement : ∀ jumps, ReadsStmt (statement jumps))

variable (hs : s.Spelled)

include hstatement hs

/-- A sequence of statements. -/
theorem reads_statements {jumps : Bool} (h : Reads (statements statement jumps limit) s tree s') :
    (∃ x : Stmt .statements, tree.shape = phrase .statements x.sons) ∧ s'.Spelled := by
  rw [statements, reads_branch] at h
  obtain ⟨trees, h, rfl⟩ := h
  suffices htrees : (∃ x : Stmt .statements, trees.map SyntaxTree.shape = x.sons) ∧ s'.Spelled by
    obtain ⟨⟨x, hx⟩, hs'⟩ := htrees
    exact ⟨⟨x, by rw [SyntaxTree.shape_branch, hx]⟩, hs'⟩
  refine reads_many_list (fun trees => ∃ x : Stmt .statements, trees.map SyntaxTree.shape = x.sons)
    ⟨.done, rfl⟩ ?_ ?_ hs h
  · intro found s t hlook
    simp only [reads_bind, reads_atAny?, reads_pure] at hlook
    obtain ⟨_, _, ⟨-, rfl⟩, -, rfl⟩ := hlook
    rfl
  · intro s t trees hs _ hround
    simp only [reads_bind, reads_pure] at hround
    obtain ⟨tree, _, htree, rfl, rfl⟩ := hround
    obtain ⟨trees, line, rfl, ⟨_, first, hfirst, -⟩, ht⟩ := hstatement jumps hs htree
    refine ⟨ht, ?_⟩
    rintro rest ⟨x, hx⟩
    exact ⟨.next first x, by simp [hfirst, hx, Stmt.sons]⟩

/-- A sequence in braces. -/
theorem reads_compound {jumps : Bool} (h : Reads (compound statement jumps limit) s tree s') :
    IsStmt [tree] s' := by
  simp only [compound, reads_branch, reads_bind, reads_pure] at h
  obtain ⟨_, ⟨opening, _, hopening, _, t, hread, body, u, hbody, closing, _, hclosing, rfl, rfl⟩,
    rfl⟩ := h
  obtain ⟨hleft, rfl⟩ := reads_kindLeaf hopening
  obtain ⟨⟨x, hx⟩, hu⟩ := reads_statements hstatement (hs.readWord hread) hbody
  obtain ⟨hright, hs'⟩ := reads_rightBrace hu hclosing
  exact .closed (.compound x) (by simp [hleft, hx, hright, Stmt.sons, Kind.text]) hs'

/-- A `while`. -/
theorem reads_whileStatement (hword : s.word = some token) (hkind : token.kind = .kwWhile)
    (h : Reads (whileStatement statement limit) s tree s') :
    IsStmt [tree] s' := by
  simp only [whileStatement, reads_branch, reads_bind, reads_pure] at h
  obtain ⟨_, ⟨leaf, _, hleaf, test, t, htest, _, u, hread, body, _, hbody, rfl, rfl⟩, rfl⟩ := h
  obtain ⟨⟨keyword, hkeyword⟩, rfl⟩ := reads_spelledLeaf_reserved hs hword hkind rfl hleaf
  obtain ⟨⟨e, he⟩, ht⟩ := reads_condition hs htest
  obtain ⟨trees, line, rfl, ⟨dangling, x, hx, helse⟩, hs'⟩ :=
    hstatement true (ht.readWord hread) hbody
  refine ⟨⟨dangling, .while keyword e x, ?_, helse⟩, hs'⟩
  simp [hkeyword, he, hx, Stmt.sons]

/-- A `do`. -/
theorem reads_doWhile (h : Reads (doWhile statement limit) s tree s') :
    IsStmt [tree] s' := by
  simp only [doWhile, reads_branch, reads_bind, reads_pure] at h
  obtain ⟨_, ⟨keyword, _, hkeyword, _, t, hread, body, u, hbody, again, _, hagain, test, v,
    htest, _, w, hafter, sign, _, hsign, rfl, rfl⟩, rfl⟩ := h
  obtain ⟨hdo, rfl⟩ := reads_kindLeaf hkeyword
  obtain ⟨trees, line, rfl, ⟨dangling, x, hx, -⟩, hu⟩ := hstatement true (hs.readWord hread) hbody
  obtain ⟨hwhile, rfl⟩ := reads_expectLeaf hagain
  obtain ⟨⟨e, he⟩, hv⟩ := reads_condition hu htest
  obtain ⟨hend, hs'⟩ := reads_semicolon (hv.readWord hafter) hsign
  refine .closed (.doWhile x e) ?_ hs'
  simp [hdo, hx, hwhile, he, hend, Stmt.sons, Kind.text]

variable (hword : s.word = some token)

include hword

/-- A `for`. -/
theorem reads_forStatement (hkind : token.kind = .kwFor)
    (h : Reads (forStatement statement limit) s tree s') :
    IsStmt [tree] s' := by
  simp only [forStatement, reads_branch, reads_bind, reads_pure] at h
  obtain ⟨_, ⟨leaf, _, hleaf, opening, t, hopening, _, u, hread, first, v, hfirst, firstEnd, w,
    hfirstEnd, test, x, htest, testEnd, y, htestEnd, step, z, hstep, closing, _, hclosing, _, a,
    hafter, body, _, hbody, rfl, rfl⟩, rfl⟩ := h
  obtain ⟨⟨keyword, hkeyword⟩, rfl⟩ := reads_spelledLeaf_reserved hs hword hkind rfl hleaf
  obtain ⟨hleft, ht⟩ := reads_nextLeaf hs hopening
  obtain ⟨⟨e₁, he₁⟩, hv⟩ := readsExpr_expression limit (ht.readWord hread) hfirst
  obtain ⟨hend₁, hw⟩ := reads_semicolon hv hfirstEnd
  obtain ⟨⟨e₂, he₂⟩, hx⟩ := readsExpr_expression limit hw htest
  obtain ⟨hend₂, hy⟩ := reads_semicolon hx htestEnd
  obtain ⟨⟨e₃, he₃⟩, hz⟩ := readsExpr_expression limit hy hstep
  obtain ⟨hright, rfl⟩ := reads_expectLeaf hclosing
  obtain ⟨trees, line, rfl, ⟨dangling, b, hb, helse⟩, hs'⟩ :=
    hstatement true (hz.readWord hafter) hbody
  refine ⟨⟨dangling, .for keyword e₁ e₂ e₃ b, ?_, helse⟩, hs'⟩
  simp [hkeyword, hleft, he₁, hend₁, he₂, hend₂, he₃, hright, hb, Stmt.sons, Kind.text]

/-- An `if`, with an `else` or without. -/
theorem reads_ifStatement (hkind : token.kind = .kwIf)
    (h : Reads (ifStatement statement limit) s tree s') :
    IsStmt [tree] s' := by
  simp only [ifStatement, reads_branch, reads_bind, reads_at?] at h
  obtain ⟨_, ⟨leaf, _, hleaf, test, t, htest, _, u, hread, body, v, hbody, _, _, ⟨rfl, rfl⟩, h⟩,
    rfl⟩ := h
  obtain ⟨⟨keyword, hkeyword⟩, rfl⟩ := reads_spelledLeaf_reserved hs hword hkind rfl hleaf
  obtain ⟨⟨e, he⟩, ht⟩ := reads_condition hs htest
  obtain ⟨trees, line, rfl, ⟨dangling, x, hx, helse⟩, hv⟩ :=
    hstatement false (ht.readWord hread) hbody
  split at h
  · rename_i hfound
    simp only [reads_bind, reads_pure] at h
    obtain ⟨keyword', _, hkeyword', _, w, hread', other, _, hother, _, _, ⟨rfl, rfl⟩, rfl, rfl⟩ := h
    obtain ⟨helse', rfl⟩ := reads_kindLeaf hkeyword'
    obtain ⟨trees', line', rfl, ⟨dangling', y, hy, hafter⟩, hs'⟩ :=
      hstatement false (hv.readWord hread') hother
    -- The statement before the `else` has not taken it, so that it could not.
    cases dangling with
    | true =>
      have hnot := helse rfl
      rw [State.atElse, hfound] at hnot
      simp at hnot
    | false =>
      refine ⟨⟨dangling', .ifElse keyword e x y, ?_, hafter⟩, hs'⟩
      simp [hkeyword, he, hx, helse', hy, Stmt.sons, Kind.text]
  · rename_i hfound
    simp only [reads_bind, reads_pure] at h
    obtain ⟨_, _, ⟨rfl, rfl⟩, rfl, rfl⟩ := h
    refine ⟨⟨true, .ifThen keyword e x, ?_, fun _ => by simpa [State.atElse] using hfound⟩, hv⟩
    simp [hkeyword, he, hx, Stmt.sons]

/-- A clause with a number. -/
theorem reads_caseClause (hkind : token.kind = .kwCase)
    (h : Reads (caseClause statement limit) s tree s') :
    (∃ (keyword : Spelling "case") (number : Numeral) (body : Stmt .statements),
      tree.shape = Stmt.clauseTree keyword number body.sons) ∧ s'.Spelled := by
  simp only [caseClause, reads_branch, reads_bind, reads_pure] at h
  obtain ⟨_, ⟨leaf, _, hleaf, ⟨text, number⟩, t, hnumber, colon, u, hcolon, _, v, hread, body, _,
    hbody, rfl, rfl⟩, rfl⟩ := h
  obtain ⟨⟨keyword, hkeyword⟩, rfl⟩ := reads_spelledLeaf_reserved hs hword hkind rfl hleaf
  obtain ⟨⟨digits, -, hdigits⟩, ht⟩ := reads_nextNumber hs hnumber
  obtain ⟨hsign, hu⟩ := reads_nextLeaf ht hcolon
  obtain ⟨⟨x, hx⟩, hs'⟩ := reads_statements hstatement (hu.readWord hread) hbody
  refine ⟨⟨keyword, digits, x, ?_⟩, hs'⟩
  simp [hkeyword, hdigits, hsign, hx, Stmt.clauseTree, Kind.text]

/-- The last clause. -/
theorem reads_defaultClause (hkind : token.kind = .kwDefault)
    (h : Reads (defaultClause statement limit) s tree s') :
    (∃ x : Stmt .clauses, [tree.shape] = x.sons) ∧ s'.Spelled := by
  simp only [defaultClause, reads_branch, reads_bind, reads_pure] at h
  obtain ⟨_, ⟨leaf, _, hleaf, colon, t, hcolon, _, u, hread, body, _, hbody, rfl, rfl⟩, rfl⟩ := h
  obtain ⟨⟨keyword, hkeyword⟩, rfl⟩ := reads_spelledLeaf_reserved hs hword hkind rfl hleaf
  obtain ⟨hsign, ht⟩ := reads_nextLeaf hs hcolon
  obtain ⟨⟨x, hx⟩, hs'⟩ := reads_statements hstatement (ht.readWord hread) hbody
  exact ⟨⟨.default keyword x, by simp [hkeyword, hsign, hx, Stmt.sons, Kind.text]⟩, hs'⟩

/-- The clauses of a switch for numbers: there is a first one, and any clauses may follow them. -/
theorem reads_clauses {trees : List SyntaxTree} (hkind : token.kind = .kwCase)
    (h : Reads (many (at? .kwCase) (do return [← caseClause statement limit]) limit) s trees s') :
    (∃ (keyword : Spelling "case") (number : Numeral) (body : Stmt .statements),
      ∀ last : Stmt .clauses, ∃ rest : Stmt .clauses, trees.map SyntaxTree.shape ++ last.sons
        = Stmt.clauseTree keyword number body.sons :: rest.sons) ∧ s'.Spelled := by
  have hfirst : (s.word.any fun token => token.kind == .kwCase) = true := by simp [hword, hkind]
  obtain ⟨limit', rfl⟩ | rfl : (∃ k, limit = k + 1) ∨ limit = 0 := by
    cases limit with
    | zero => exact .inr rfl
    | succ limit => exact .inl ⟨limit, rfl⟩
  · simp only [many, reads_bind, reads_at?] at h
    obtain ⟨_, _, ⟨rfl, rfl⟩, h⟩ := h
    rw [if_pos hfirst] at h
    simp only [reads_bind, reads_pure] at h
    obtain ⟨_, _, ⟨clause, t, hclause, rfl, rfl⟩, rest, _, hrest, rfl, rfl⟩ := h
    obtain ⟨⟨keyword, number, body, hshape⟩, ht⟩ :=
      reads_caseClause hstatement hs hword hkind hclause
    obtain ⟨hlist, hs'⟩ := reads_many_list (fun trees => ∀ last : Stmt .clauses,
        ∃ rest : Stmt .clauses, trees.map SyntaxTree.shape ++ last.sons = rest.sons)
      (fun last => ⟨last, rfl⟩) (fun h => (reads_at?.mp h).2)
      (fun {s t trees} hs hfound hround => by
        simp only [reads_bind, reads_pure] at hround
        obtain ⟨clause, _, hclause, rfl, rfl⟩ := hround
        obtain ⟨token, hword, hkind⟩ := exists_token_of_any (reads_at?.mp hfound).1.symm
        obtain ⟨⟨keyword, number, body, hshape⟩, ht⟩ :=
          reads_caseClause hstatement hs hword (by simpa using hkind) hclause
        refine ⟨ht, fun rest hrest last => ?_⟩
        obtain ⟨x, hx⟩ := hrest last
        exact ⟨.clause keyword number body x, by simp [hshape, hx, Stmt.sons]⟩)
      ht hrest
    refine ⟨⟨keyword, number, body, fun last => ?_⟩, hs'⟩
    obtain ⟨x, hx⟩ := hlist last
    exact ⟨x, by simp [hshape, hx]⟩
  · simp only [many, reads_bind, reads_at?] at h
    obtain ⟨_, _, ⟨rfl, rfl⟩, h⟩ := h
    rw [if_pos hfirst] at h
    simp at h

omit hword

/-- A `switch`, with its clauses. -/
theorem reads_switchStatement (h : Reads (switchStatement statement limit) s tree s') :
    IsStmt [tree] s' := by
  simp only [switchStatement, reads_branch, reads_bind, reads_expect, reads_at?] at h
  obtain ⟨trees, ⟨leaf, _, hleaf, test, t, htest, opening, u, hopening, _, v, hread, token, _,
    ⟨hword, hkind, rfl⟩, clauses, w, hclauses, _, _, ⟨rfl, rfl⟩, h⟩, rfl⟩ := h
  obtain ⟨hswitch, rfl⟩ := reads_kindLeaf hleaf
  obtain ⟨⟨e, he⟩, ht⟩ := reads_condition hs htest
  obtain ⟨hleft, hu⟩ := reads_nextLeaf ht hopening
  obtain ⟨⟨keyword, number, body, hlist⟩, hw⟩ :=
    reads_clauses hstatement (hu.readWord hread) hword hkind hclauses
  have hend : ∀ {last : Stmt .clauses} {x : State} {otherwise trees : List SyntaxTree},
      otherwise.map SyntaxTree.shape = last.sons → x.Spelled →
      Reads (do
        let closing ← rightBrace .switchStatement
        return leaf :: test ++ opening :: clauses ++ otherwise ++ [closing]) x trees s' →
      IsStmt [SyntaxTree.branch .switchStatement s.line trees] s' := by
    intro last x otherwise trees hlast hx h
    simp only [reads_bind, reads_pure] at h
    obtain ⟨closing, _, hclosing, rfl, rfl⟩ := h
    obtain ⟨hright, hs'⟩ := reads_rightBrace hx hclosing
    obtain ⟨rest, hrest⟩ := hlist last
    refine .closed (.switch e keyword number body rest) ?_ hs'
    rw [← hlast] at hrest
    simp only [map_cons, map_nil, SyntaxTree.shape_branch, cons_append,
      append_assoc, map_append, hswitch, he, hleft, hright, Stmt.sons, Kind.text]
    rw [← append_assoc, hrest]
    rfl
  split at h
  · rename_i hfound
    simp only [reads_bind, reads_pure] at h
    obtain ⟨clause, x, hclause, _, _, ⟨rfl, rfl⟩, h⟩ := h
    obtain ⟨token, hword, hkind⟩ := exists_token_of_any hfound
    obtain ⟨⟨last, hlast⟩, hx⟩ :=
      reads_defaultClause hstatement hw hword (by simpa using hkind) hclause
    have hone : [clause].map SyntaxTree.shape = last.sons := hlast
    exact hend hone hx (by simpa only [reads_bind, reads_pure] using h)
  · simp only [reads_bind, reads_pure] at h
    obtain ⟨_, _, ⟨rfl, rfl⟩, h⟩ := h
    have hnone : ([] : List SyntaxTree).map SyntaxTree.shape = (Stmt.noClause).sons := rfl
    exact hend hnone hw (by simpa only [reads_bind, reads_pure] using h)

end

/-! ### All statements -/

/-- Statements of all forms. -/
theorem reads_statementForm {statement : Bool → Parse SyntaxTree}
    (hstatement : ∀ jumps, ReadsStmt (statement jumps)) {jumps : Bool} (hs : s.Spelled)
    (hword : s.word = some token)
    (h : Reads (statementForm statement jumps limit token.kind) s tree s') : IsStmt [tree] s' := by
  unfold statementForm at h
  split at h
  · exact reads_ifStatement hstatement hs hword ‹_› h
  · exact reads_whileStatement hstatement hs hword ‹_› h
  · exact reads_doWhile hstatement hs h
  · exact reads_forStatement hstatement hs hword ‹_› h
  · exact reads_writeStatement hs hword ‹_› h
  · exact reads_readStatement hs hword ‹_› h
  · exact reads_compound hstatement hs h
  · exact reads_expressionStatement hs h
  · exact reads_expressionStatement hs h
  · exact reads_expressionStatement hs h
  · exact reads_expressionStatement hs h
  · exact reads_expressionStatement hs h
  · exact reads_returnStatement hs h
  · split at h
    · exact reads_jump hs hword (.inl ‹_›) h
    · simp at h
  · split at h
    · exact reads_jump hs hword (.inr ‹_›) h
    · simp at h
  · exact reads_switchStatement hstatement hs h
  · simp at h

/-- **The parser reads statements.** -/
theorem readsStmt_statement (depth : Nat) : ∀ jumps, ReadsStmt (statement depth jumps) := by
  induction depth with
  | zero =>
    intro jumps s s' tree _ h
    simp [statement] at h
  | succ depth ih =>
    intro jumps s s' tree hs h
    simp only [statement, reads_branch, reads_bind, reads_get] at h
    obtain ⟨trees, ⟨_, _, ⟨rfl, rfl⟩, h⟩, rfl⟩ := h
    split at h
    · simp at h
    · simp only [reads_bind, reads_pure] at h
      obtain ⟨form, _, hform, rfl, rfl⟩ := h
      exact ⟨[form], _, rfl, reads_statementForm ih hs ‹_› hform⟩

end ScoreLang.Parse
