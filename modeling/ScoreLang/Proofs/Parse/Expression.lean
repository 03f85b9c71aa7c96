import ScoreLang.Parse.Expression
import ScoreLang.Proofs.Parse.Words

/-!
# The Parser Reads Expressions

Every rule of expressions returns the tree of an expression of its level. A chain of operators is
read from left to right, and so is its phrase built: `reads_many` extends it by one operand in each
round.
-/

namespace ScoreLang.Parse

/-- An action reads expressions of a level: from well-spelled words it makes the tree of such an
expression, and leaves well-spelled words. -/
def ReadsExpr (level : Level) (action : Parse SyntaxTree) : Prop :=
  ∀ {s s' : State} {tree : SyntaxTree}, s.Spelled → Reads action s tree s' →
    (∃ e : Expr level, tree.shape = e.tree) ∧ s'.Spelled

/-- The tree of a reference, with the digits of its index. -/
theorem reads_reference {s s' : State} {tree : SyntaxTree} {index : Option String} (hs : s.Spelled)
    (h : Reads reference s (tree, index) s') :
    (∃ target : Reference, tree.shape = target.tree ∧ index = target.index.map (·.digits)) ∧
      s'.Spelled := by
  simp only [reference, reads_bind, reads_get, reads_spelling, reads_leaf, reads_at?] at h
  obtain ⟨_, _, ⟨rfl, rfl⟩, name, _, ⟨-, rfl⟩, _, _, ⟨rfl, rfl⟩, _, t, hcheck, _, u, hread, _, _,
    ⟨rfl, rfl⟩, h⟩ := h
  have hu := (hs.checkDeclared hcheck).readWord hread
  split at h
  · simp only [reads_bind, reads_pure, Prod.mk.injEq] at h
    obtain ⟨opening, v, hopening, ⟨text, number⟩, w, hnumber, closing, x, hclosing, _, y, hafter,
      ⟨rfl, rfl⟩, rfl⟩ := h
    obtain ⟨hleft, rfl⟩ := reads_kindLeaf hopening
    obtain ⟨⟨digits, rfl, hdigits⟩, hw⟩ := reads_nextNumber hu hnumber
    obtain ⟨hright, hx⟩ := reads_nextLeaf hw hclosing
    refine ⟨⟨⟨name, some digits⟩, ?_, rfl⟩, hx.readWord hafter⟩
    simp [Reference.tree, hleft, hdigits, hright, nameLeaf, Kind.text]
  · simp only [reads_pure, Prod.mk.injEq] at h
    obtain ⟨⟨rfl, rfl⟩, rfl⟩ := h
    exact ⟨⟨⟨name, none⟩, by simp [Reference.tree, nameLeaf], rfl⟩, hu⟩

/-- A branch is the tree of an expression if its sons are those of the expression. -/
theorem shape_branch_eq {level : Level} {e : Expr level} {trees : List SyntaxTree}
    (h : trees.map SyntaxTree.shape = e.sons) (line : Nat) :
    (SyntaxTree.branch level.rule line trees).shape = e.tree := by
  rw [SyntaxTree.shape_branch, h, Expr.tree]

/-- The words that are taken back with a variable are well spelled. -/
theorem isWellSpelled_indexWords (index : Option Numeral) :
    ∀ token ∈ indexWords (index.map (·.digits)), token.isWellSpelled = true := by
  cases index with
  | none => simp [indexWords]
  | some number =>
    have hdigits : Token.isWellSpelled ⟨.number, number.digits⟩ = true := by
      simp only [Token.isWellSpelled, Bool.and_eq_true, Bool.not_eq_true',
        List.isEmpty_eq_false_iff, List.all_eq_true]
      exact ⟨number.digits_ne, number.isDigit_of_mem⟩
    intro token hmem
    simp only [indexWords, Option.map_some, List.mem_cons, List.not_mem_nil, or_false] at hmem
    rcases hmem with rfl | rfl | rfl
    · rfl
    · exact hdigits
    · rfl

section

variable {expression : Parse SyntaxTree} (hexpression : ReadsExpr .expression expression)

include hexpression

theorem readsExpr_arguments (limit : Nat) : ReadsExpr .arguments (arguments expression limit) := by
  intro s s' tree hs h
  simp only [arguments, reads_branch, separated, reads_bind, reads_pure] at h
  obtain ⟨_, ⟨first, t, hfirst, rest, _, hrest, rfl, rfl⟩, rfl⟩ := h
  obtain ⟨⟨e, he⟩, ht⟩ := hexpression hs hfirst
  have hextend : ∀ (c : Expr .arguments) (_ : Unit) (o : Expr .expression),
      ∃ c' : Expr .arguments, c'.sons = c.sons ++ [word ",", o.tree] :=
    fun c _ o => ⟨.further c o, rfl⟩
  have hfirst : ∃ c : Expr .arguments, [first].map SyntaxTree.shape = c.sons :=
    ⟨.argument e, by simp [he, Expr.sons, Expr.tree, Level.rule]⟩
  obtain ⟨⟨c, hc⟩, hs'⟩ := reads_chain hextend (fun h => (reads_at?.mp h).2)
    (fun _ _ h => reads_comma h) hexpression hfirst ht hrest
  exact ⟨⟨c, shape_branch_eq hc _⟩, hs'⟩

/-- A call is an operand of its own. -/
theorem reads_call {limit : Nat} {s s' : State} {tree : SyntaxTree} (hs : s.Spelled)
    (h : Reads (call expression limit) s tree s') :
    (∃ e : Expr .factor, [tree.shape] = e.sons) ∧ s'.Spelled := by
  simp only [call, reads_branch, reads_bind] at h
  obtain ⟨_, ⟨keyword, t, hkeyword, ⟨name, function⟩, u, hname, _, v, hcheck, opening, w, hopening,
    _, x, hread, h⟩, rfl⟩ := h
  obtain ⟨hcall, rfl⟩ := reads_kindLeaf hkeyword
  obtain ⟨hfunction, hu⟩ := reads_nextName hs hname
  obtain ⟨hleft, hw⟩ := reads_nextLeaf (hu.checkDeclared hcheck) hopening
  have hx := hw.readWord hread
  simp only [reads_at?] at h
  obtain ⟨_, _, ⟨rfl, rfl⟩, h⟩ := h
  split at h
  · simp only [reads_bind, reads_pure] at h
    obtain ⟨_, _, ⟨rfl, rfl⟩, closing, _, hclosing, _, y, hafter, rfl, rfl⟩ := h
    obtain ⟨hright, rfl⟩ := reads_kindLeaf hclosing
    refine ⟨⟨.plainCall name, ?_⟩, hx.readWord hafter⟩
    simp [Expr.sons, hcall, hfunction, hleft, hright, Kind.text]
  · simp only [reads_bind, reads_expect, reads_pure] at h
    obtain ⟨arguments, y, harguments, _, _, ⟨-, -, rfl⟩, _, _, ⟨rfl, rfl⟩, closing, _,
      hclosing, _, z, hafter, rfl, rfl⟩ := h
    obtain ⟨⟨e, he⟩, hy⟩ := readsExpr_arguments hexpression limit hx harguments
    obtain ⟨hright, rfl⟩ := reads_kindLeaf hclosing
    refine ⟨⟨.call name e, ?_⟩, hy.readWord hafter⟩
    simp [Expr.sons, hcall, hfunction, hleft, he, hright, Kind.text, Expr.tree, Level.rule]

theorem readsExpr_factor (limit : Nat) : ReadsExpr .factor (factor expression limit) := by
  intro s s' tree hs h
  simp only [factor, reads_branch, reads_bind, reads_at?] at h
  obtain ⟨_, ⟨_, _, ⟨rfl, rfl⟩, h⟩, rfl⟩ := h
  split at h
  · simp only [reads_bind, reads_pure] at h
    obtain ⟨opening, _, hopening, _, t, hread, inner, u, hinner, closing, _, hclosing, _, _, hafter,
      rfl, rfl⟩ := h
    obtain ⟨hleft, rfl⟩ := reads_kindLeaf hopening
    obtain ⟨⟨e, he⟩, hu⟩ := hexpression (hs.readWord hread) hinner
    obtain ⟨hright, rfl⟩ := reads_expectLeaf hclosing
    refine ⟨⟨.group e, ?_⟩, hu.readWord hafter⟩
    simp [Expr.tree, Expr.sons, hleft, he, hright, Level.rule, Kind.text]
  simp only [reads_bind, reads_at?] at h
  obtain ⟨_, _, ⟨rfl, rfl⟩, h⟩ := h
  split at h
  · simp only [reads_bind, reads_pure] at h
    obtain ⟨inner, _, hcall, rfl, rfl⟩ := h
    obtain ⟨⟨e, he⟩, hs'⟩ := reads_call hexpression hs hcall
    refine ⟨⟨e, ?_⟩, hs'⟩
    simp [Expr.tree, Level.rule, ← he]
  simp only [reads_bind, reads_at?] at h
  obtain ⟨_, _, ⟨rfl, rfl⟩, h⟩ := h
  split at h
  · simp only [reads_bind, reads_pure] at h
    obtain ⟨⟨inner, index⟩, _, hinner, rfl, rfl⟩ := h
    obtain ⟨⟨target, htarget, -⟩, hs'⟩ := reads_reference hs hinner
    refine ⟨⟨.variable target, ?_⟩, hs'⟩
    simp [Expr.tree, Expr.sons, htarget, Level.rule]
  · simp only [reads_bind, reads_expect, reads_leaf, reads_pure] at h
    obtain ⟨token, _, ⟨hword, hkind, rfl⟩, _, _, ⟨rfl, rfl⟩, _, _, hread, rfl, rfl⟩ := h
    obtain ⟨number, hnumber⟩ := hs.numeral hword hkind
    refine ⟨⟨.number number, ?_⟩, hs.readWord hread⟩
    simp [Expr.tree, Expr.sons, Numeral.leaf, hnumber, Level.rule]

theorem readsExpr_product (limit : Nat) : ReadsExpr .product (product expression limit) := by
  intro s s' tree hs h
  simp only [product, reads_branch, reads_bind, reads_pure] at h
  obtain ⟨_, ⟨first, t, hfirst, rest, _, hrest, rfl, rfl⟩, rfl⟩ := h
  obtain ⟨⟨e, he⟩, ht⟩ := readsExpr_factor hexpression limit hs hfirst
  have hextend : ∀ (c : Expr .product) (sign : MulSign) (o : Expr .factor),
      ∃ c' : Expr .product, c'.sons = c.sons ++ [word sign.text, o.tree] :=
    fun c sign o => ⟨.times c sign o, rfl⟩
  have hdone : ∃ c : Expr .product, [first].map SyntaxTree.shape = c.sons :=
    ⟨.factor e, by simp [he, Expr.sons, Expr.tree, Level.rule]⟩
  have hsign : ∀ {s t : State} {leaf : SyntaxTree},
      Reads (do if ← at? .times then kindLeaf .times else kindLeaf .slash) s leaf t →
        (∃ sign : MulSign, leaf.shape = word sign.text) ∧ s = t := by
    intro s t leaf h
    simp only [reads_bind, reads_at?] at h
    obtain ⟨_, _, ⟨rfl, rfl⟩, h⟩ := h
    split at h
    · exact ⟨⟨.times, (reads_kindLeaf h).1⟩, (reads_kindLeaf h).2⟩
    · exact ⟨⟨.slash, (reads_kindLeaf h).1⟩, (reads_kindLeaf h).2⟩
  have hflat : (do
        if ← at? .times then
          let sign ← kindLeaf .times
          readWord
          return [sign, ← factor expression limit]
        else
          let sign ← kindLeaf .slash
          readWord
          return [sign, ← factor expression limit] : Parse (List SyntaxTree))
      = (do
        let sign ← (do if ← at? .times then kindLeaf .times else kindLeaf .slash)
        readWord
        return [sign, ← factor expression limit]) := by
    simp only [bind_assoc]
    congr
    funext found
    cases found <;> rfl
  rw [hflat] at hrest
  obtain ⟨⟨c, hc⟩, hs'⟩ := reads_chain hextend (fun h => (reads_atAny?.mp h).2)
    (fun _ _ h => hsign h) (readsExpr_factor hexpression limit) hdone ht hrest
  exact ⟨⟨c, shape_branch_eq hc _⟩, hs'⟩

theorem readsExpr_sum (limit : Nat) : ReadsExpr .sum (sum expression limit) := by
  intro s s' tree hs h
  simp only [sum, reads_branch, reads_bind, reads_pure] at h
  obtain ⟨_, ⟨first, t, hfirst, rest, _, hrest, rfl, rfl⟩, rfl⟩ := h
  obtain ⟨⟨e, he⟩, ht⟩ := readsExpr_product hexpression limit hs hfirst
  have hextend : ∀ (c : Expr .sum) (sign : AddSign) (o : Expr .product),
      ∃ c' : Expr .sum, c'.sons = c.sons ++ [word sign.text, o.tree] :=
    fun c sign o => ⟨.plus c sign o, rfl⟩
  have hdone : ∃ c : Expr .sum, [first].map SyntaxTree.shape = c.sons :=
    ⟨.product e, by simp [he, Expr.sons, Expr.tree, Level.rule]⟩
  have hsign : ∀ {s t : State} {leaf : SyntaxTree}, s.Spelled →
      Reads (atAny? [.plus, .minus]) s true s → Reads spelledLeaf s leaf t →
        (∃ sign : AddSign, leaf.shape = word sign.text) ∧ s = t := by
    intro s t leaf hs hfound h
    obtain ⟨token, hword, hkind⟩ := exists_token_of_any (reads_atAny?.mp hfound).1.symm
    obtain ⟨sign, hsign⟩ := Token.exists_addSign (hs.word _ hword) (by simpa using hkind)
    obtain ⟨hshape, heq⟩ := reads_spelledLeaf_word hword hsign sign.ofText h
    exact ⟨⟨sign, hshape⟩, heq⟩
  obtain ⟨⟨c, hc⟩, hs'⟩ := reads_chain hextend (fun h => (reads_atAny?.mp h).2)
    (fun hs hfound h => hsign hs hfound h) (readsExpr_product hexpression limit) hdone ht hrest
  exact ⟨⟨c, shape_branch_eq hc _⟩, hs'⟩

theorem readsExpr_logical (limit : Nat) : ReadsExpr .logical (logical expression limit) := by
  intro s s' tree hs h
  simp only [logical, reads_branch, reads_bind, reads_get] at h
  obtain ⟨_, ⟨left, t, hleft, _, _, ⟨rfl, rfl⟩, h⟩, rfl⟩ := h
  obtain ⟨⟨l, hl⟩, ht⟩ := readsExpr_sum hexpression limit hs hleft
  split at h
  · simp at h
  rename_i token hword
  split at h
  · rename_i hlogic
    simp only [reads_bind, reads_pure] at h
    obtain ⟨leaf, _, hleaf, _, u, hread, right, _, hright, rfl, rfl⟩ := h
    obtain ⟨sign, hsign⟩ := Token.exists_logicSign (ht.word _ hword) hlogic
    obtain ⟨hshape, rfl⟩ := reads_spelledLeaf_word hword hsign sign.ofText hleaf
    obtain ⟨⟨r, hr⟩, hs'⟩ := readsExpr_sum hexpression limit (ht.readWord hread) hright
    refine ⟨⟨.compare l sign r, ?_⟩, hs'⟩
    simp [hl, hshape, hr, Expr.sons, Expr.tree, Level.rule]
  · simp only [reads_pure] at h
    obtain ⟨rfl, rfl⟩ := h
    exact ⟨⟨.sum l, by simp [hl, Expr.sons, Expr.tree, Level.rule]⟩, ht⟩

theorem readsExpr_assignment (limit : Nat) :
    ReadsExpr .expression (assignment expression limit) := by
  intro s s' tree hs h
  have hplain : ∀ {t : State} {trees : List SyntaxTree}, t.Spelled →
      Reads (do return [← logical expression limit]) t trees s' →
        (∃ e : Expr .expression, trees.map SyntaxTree.shape = e.sons) ∧ s'.Spelled := by
    intro t trees ht h
    simp only [reads_bind, reads_pure] at h
    obtain ⟨value, _, hvalue, rfl, rfl⟩ := h
    obtain ⟨⟨e, he⟩, hs'⟩ := readsExpr_logical hexpression limit ht hvalue
    exact ⟨⟨.logical e, by simp [he, Expr.sons, Expr.tree, Level.rule]⟩, hs'⟩
  rw [assignment, reads_branch] at h
  obtain ⟨trees, h, rfl⟩ := h
  suffices hsons : (∃ e : Expr .expression, trees.map SyntaxTree.shape = e.sons) ∧ s'.Spelled by
    obtain ⟨⟨e, he⟩, hs'⟩ := hsons
    exact ⟨⟨e, shape_branch_eq he _⟩, hs'⟩
  rw [reads_bind] at h
  obtain ⟨_, _, hfound, h⟩ := h
  obtain ⟨-, rfl⟩ := reads_at?.mp hfound
  split at h
  · simp only [reads_bind, reads_spelling, reads_at?] at h
    obtain ⟨name, _, ⟨-, rfl⟩, ⟨target, index⟩, t, htarget, _, _, ⟨-, rfl⟩, h⟩ := h
    obtain ⟨⟨reference, hreference, rfl⟩, ht⟩ := reads_reference hs htarget
    split at h
    · simp only [reads_bind, reads_pure] at h
      obtain ⟨_, u, hread, sign, _, hsign, value, _, hvalue, rfl, rfl⟩ := h
      obtain ⟨hassign, rfl⟩ := reads_kindLeaf hsign
      obtain ⟨⟨e, he⟩, hs'⟩ := readsExpr_logical hexpression limit (ht.readWord hread) hvalue
      refine ⟨⟨.assign reference e, ?_⟩, hs'⟩
      simp [hreference, hassign, he, Expr.sons, Expr.tree, Level.rule, Kind.text]
    · rw [reads_bind] at h
      obtain ⟨_, u, hback, h⟩ := h
      exact hplain (ht.takeBack rfl (isWellSpelled_indexWords _) hback) h
  · exact hplain hs h

end

/-- **The parser reads expressions.** -/
theorem readsExpr_expression (depth : Nat) : ReadsExpr .expression (expression depth) := by
  induction depth with
  | zero =>
    intro s s' tree _ h
    simp [expression] at h
  | succ depth ih => exact readsExpr_assignment ih (depth + 1)

end ScoreLang.Parse
