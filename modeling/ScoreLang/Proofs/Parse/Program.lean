import ScoreLang.Parse.Program
import ScoreLang.Proofs.Parse.Statement

/-!
# The Parser Reads Programs

`parse_tokenize`: if the parser accepts the tokens of a text, then the tree that it builds is the
tree of a program.
-/

namespace ScoreLang.Parse

/-! ### Declarations -/

variable {limit : Nat} {s s' : State} {tree : SyntaxTree} {token : Token}

variable (hs : s.Spelled)

include hs

theorem reads_initializer (h : Reads (initializer limit) s tree s') :
    (∃ values : List (Expr .logical), tree.shape = phrase .initializer
      (word "\x7b" :: separatedBy "," (values.map Expr.tree) ++ [word "\x7d"])) ∧ s'.Spelled := by
  simp only [initializer, reads_branch, reads_bind, reads_at?] at h
  obtain ⟨trees, ⟨opening, t, hopening, _, u, hread, _, _, ⟨rfl, rfl⟩, h⟩, rfl⟩ := h
  obtain ⟨hleft, ht⟩ := reads_nextLeaf hs hopening
  have hu := ht.readWord hread
  split at h
  · simp only [reads_bind, reads_pure] at h
    obtain ⟨closing, _, hclosing, rfl, rfl⟩ := h
    obtain ⟨hright, hs'⟩ := reads_rightBrace hu hclosing
    exact ⟨⟨[], by simp [hleft, hright, separatedBy, Kind.text]⟩, hs'⟩
  · simp only [reads_bind, reads_pure] at h
    obtain ⟨values, v, hvalues, closing, _, hclosing, rfl, rfl⟩ := h
    obtain ⟨⟨first, rest, hlist⟩, hv⟩ := reads_separated
      (readsExpr_logical (readsExpr_expression limit) limit) hu hvalues
    obtain ⟨hright, hs'⟩ := reads_rightBrace hv hclosing
    exact ⟨⟨first :: rest, by simp [hleft, hlist, hright, Kind.text]⟩, hs'⟩

theorem reads_declarator (h : Reads (declarator limit) s tree s') :
    (∃ d : Declarator, tree.shape = d.tree) ∧ s'.Spelled := by
  simp only [declarator, reads_branch, reads_bind, reads_expect, reads_leaf, reads_at?] at h
  obtain ⟨trees, ⟨token, _, ⟨-, -, rfl⟩, _, _, ⟨rfl, rfl⟩, _, t, hread, _, _, ⟨rfl, rfl⟩, h⟩,
    rfl⟩ := h
  have ht := hs.readWord hread
  split at h
  · simp only [reads_bind, reads_at?] at h
    obtain ⟨opening, _, hopening, ⟨text, number⟩, u, hnumber, closing, v, hclosing, _, w,
      hafter, _, _, ⟨rfl, rfl⟩, h⟩ := h
    obtain ⟨hleft, rfl⟩ := reads_kindLeaf hopening
    obtain ⟨⟨length, -, hlength⟩, hu⟩ := reads_nextNumber ht hnumber
    obtain ⟨hright, hv⟩ := reads_nextLeaf hu hclosing
    have hw := hv.readWord hafter
    split at h
    · simp only [reads_bind, reads_pure] at h
      obtain ⟨sign, _, hsign, values, x, hvalues, _, _, ⟨rfl, rfl⟩, _, _, hdeclare, rfl, rfl⟩ := h
      obtain ⟨hassign, rfl⟩ := reads_kindLeaf hsign
      obtain ⟨⟨list, hlist⟩, hx⟩ := reads_initializer hw hvalues
      refine ⟨⟨.filled token.spelling length list, ?_⟩, hx.declare hdeclare⟩
      simp [hleft, hlength, hright, hassign, hlist, Declarator.tree, nameLeaf, Kind.text]
    · simp only [reads_bind, reads_pure] at h
      obtain ⟨_, _, ⟨rfl, rfl⟩, _, _, hdeclare, rfl, rfl⟩ := h
      refine ⟨⟨.array token.spelling length, ?_⟩, hw.declare hdeclare⟩
      simp [hleft, hlength, hright, Declarator.tree, nameLeaf, Kind.text]
  · simp only [reads_bind, reads_at?] at h
    obtain ⟨_, _, ⟨rfl, rfl⟩, h⟩ := h
    split at h
    · simp only [reads_bind, reads_pure] at h
      obtain ⟨sign, _, hsign, _, u, hread', value, v, hvalue, _, _, ⟨rfl, rfl⟩, _, _, hdeclare, rfl,
        rfl⟩ := h
      obtain ⟨hassign, rfl⟩ := reads_kindLeaf hsign
      obtain ⟨⟨e, he⟩, hv⟩ := readsExpr_logical (readsExpr_expression limit) limit
        (ht.readWord hread') hvalue
      refine ⟨⟨.initial token.spelling e, ?_⟩, hv.declare hdeclare⟩
      simp [hassign, he, Declarator.tree, nameLeaf, Kind.text]
    · simp only [reads_bind, reads_pure] at h
      obtain ⟨_, _, ⟨rfl, rfl⟩, _, _, hdeclare, rfl, rfl⟩ := h
      exact ⟨⟨.plain token.spelling, by simp [Declarator.tree, nameLeaf]⟩, ht.declare hdeclare⟩

theorem reads_declaration (hword : s.word = some token) (hkind : token.kind = .kwInt)
    (h : Reads (declaration limit) s tree s') :
    (∃ d : Declaration, tree.shape = d.tree) ∧ s'.Spelled := by
  simp only [declaration, reads_branch, reads_bind, reads_pure] at h
  obtain ⟨_, ⟨leaf, _, hleaf, _, t, hread, names, u, hnames, sign, _, hsign, rfl, rfl⟩, rfl⟩ := h
  obtain ⟨⟨keyword, hkeyword⟩, rfl⟩ := reads_spelledLeaf_reserved hs hword hkind rfl hleaf
  obtain ⟨⟨first, rest, hlist⟩, hu⟩ := reads_separated reads_declarator (hs.readWord hread) hnames
  obtain ⟨hend, hs'⟩ := reads_semicolon hu hsign
  exact ⟨⟨⟨keyword, first, rest⟩, by simp [hkeyword, hlist, hend, Declaration.tree]⟩, hs'⟩

/-- The branch of the declarations; there is one if the current word opens a declaration. -/
theorem reads_declarations (h : Reads (declarations limit) s tree s') :
    (∃ list : List Declaration, tree.shape = declarationsTree list ∧
      ((s.word.any fun token => token.kind == .kwInt) = true → list ≠ [])) ∧ s'.Spelled := by
  rw [declarations, reads_branch] at h
  obtain ⟨trees, h, rfl⟩ := h
  have hfirst : (s.word.any fun token => token.kind == .kwInt) = true → trees ≠ [] := by
    intro hfound
    cases limit with
    | zero => simp [many, hfound] at h
    | succ limit =>
      simp only [many, reads_bind, reads_at?] at h
      obtain ⟨_, _, ⟨rfl, rfl⟩, h⟩ := h
      rw [if_pos hfound] at h
      simp only [reads_bind, reads_pure] at h
      obtain ⟨_, _, ⟨first, _, -, rfl, -⟩, rest, _, -, rfl, -⟩ := h
      simp
  obtain ⟨⟨list, hlist⟩, hs'⟩ := reads_many_list
    (fun trees => ∃ list : List Declaration,
      trees.map SyntaxTree.shape = list.map Declaration.tree)
    ⟨[], rfl⟩ (fun h => (reads_at?.mp h).2)
    (fun {s t trees} hs hfound hround => by
      simp only [reads_bind, reads_pure] at hround
      obtain ⟨tree, _, htree, rfl, rfl⟩ := hround
      obtain ⟨token, hword, hkind⟩ := exists_token_of_any (reads_at?.mp hfound).1.symm
      obtain ⟨⟨d, hd⟩, ht⟩ := reads_declaration hs hword (by simpa using hkind) htree
      refine ⟨ht, ?_⟩
      rintro rest ⟨list, hlist⟩
      exact ⟨d :: list, by simp [hd, hlist]⟩)
    hs h
  refine ⟨⟨list, by simp [hlist, declarationsTree], ?_⟩, hs'⟩
  intro hfound hnil
  rw [hnil] at hlist
  exact hfirst hfound (by simpa using hlist)

/-! ### Functions -/

theorem reads_body (h : Reads (body limit) s tree s') :
    (∃ b : Body, tree.shape = b.tree) ∧ s'.Spelled := by
  simp only [body, reads_branch, reads_bind, reads_pure] at h
  obtain ⟨_, ⟨opening, _, hopening, _, t, hread, names, u, hnames, steps, v, hsteps, closing, _,
    hclosing, rfl, rfl⟩, rfl⟩ := h
  obtain ⟨hleft, rfl⟩ := reads_kindLeaf hopening
  obtain ⟨⟨list, hlist, -⟩, hu⟩ := reads_declarations (hs.readWord hread) hnames
  obtain ⟨⟨x, hx⟩, hv⟩ := reads_statements (readsStmt_statement limit) hu hsteps
  obtain ⟨hright, hs'⟩ := reads_rightBrace hv hclosing
  exact ⟨⟨⟨list, x⟩, by simp [hleft, hlist, hx, hright, Body.tree, Kind.text]⟩, hs'⟩

theorem reads_parameter (h : Reads parameter s tree s') :
    (∃ name : String, tree.shape = parameterTree name) ∧ s'.Spelled := by
  simp only [parameter, reads_branch, reads_bind, reads_pure] at h
  obtain ⟨_, ⟨keyword, _, hkeyword, ⟨name, identifier⟩, t, hname, _, u, hdeclare, _, _, hread, rfl,
    rfl⟩, rfl⟩ := h
  obtain ⟨hint, rfl⟩ := reads_kindLeaf hkeyword
  obtain ⟨hidentifier, ht⟩ := reads_nextName hs hname
  refine ⟨⟨name, ?_⟩, (ht.declare hdeclare).readWord hread⟩
  simp [hint, hidentifier, parameterTree, Kind.text]

theorem reads_parameters (h : Reads (parameters limit) s tree s') :
    (∃ names : List String, tree.shape = phrase .parameters
      (separatedBy "," (names.map parameterTree))) ∧ s'.Spelled := by
  simp only [parameters, reads_branch, reads_bind, reads_at?] at h
  obtain ⟨trees, ⟨_, _, ⟨rfl, rfl⟩, h⟩, rfl⟩ := h
  split at h
  · simp only [reads_pure] at h
    obtain ⟨rfl, rfl⟩ := h
    exact ⟨⟨[], by simp [separatedBy]⟩, hs⟩
  · simp only [reads_bind, reads_expect] at h
    obtain ⟨_, _, ⟨-, -, rfl⟩, h⟩ := h
    obtain ⟨⟨first, rest, hlist⟩, hs'⟩ := reads_separated reads_parameter hs h
    exact ⟨⟨first :: rest, by rw [SyntaxTree.shape_branch, hlist]⟩, hs'⟩

theorem reads_function (hword : s.word = some token) (hkind : token.kind = .kwFunction)
    (h : Reads (function limit) s tree s') :
    (∃ f : Function, tree.shape = f.tree) ∧ s'.Spelled := by
  simp only [function, reads_branch, reads_bind, reads_pure, reads_modify, reads_expect,
    reads_leaveScope] at h
  obtain ⟨_, ⟨leaf, _, hleaf, ⟨name, identifier⟩, t, hname, _, u, hdeclare, opening, v,
    hopening, _, _,
    rfl, _, w, hread, given, x, hgiven, closing, _, hclosing, _, y, hread', _, _,
      ⟨-, -, rfl⟩, steps,
    z, hsteps, _, _, ⟨-, rfl⟩, rfl, rfl⟩, rfl⟩ := h
  obtain ⟨⟨keyword, hkeyword⟩, rfl⟩ := reads_spelledLeaf_reserved hs hword hkind rfl hleaf
  obtain ⟨hidentifier, ht⟩ := reads_nextName hs hname
  obtain ⟨hleft, hv⟩ := reads_nextLeaf (ht.declare hdeclare) hopening
  obtain ⟨⟨names, hnames⟩, hx⟩ := reads_parameters (hv.openScope.readWord hread) hgiven
  obtain ⟨hright, rfl⟩ := reads_expectLeaf hclosing
  obtain ⟨⟨b, hb⟩, hz⟩ := reads_body (hx.readWord hread') hsteps
  refine ⟨⟨⟨keyword, name, names, b⟩, ?_⟩, ⟨hz.word, hz.pending, hz.lines⟩⟩
  simp [hkeyword, hidentifier, hleft, hnames, hright, hb, Function.tree, Kind.text]

theorem reads_functions {count : Nat} {trees : List SyntaxTree}
    (h : Reads (many (at? .kwFunction) (do return [← function limit]) count) s trees s') :
    (∃ list : List Function, trees.map SyntaxTree.shape = list.map Function.tree) ∧
      s'.Spelled := by
  refine reads_many_list
    (fun trees => ∃ list : List Function, trees.map SyntaxTree.shape = list.map Function.tree)
    ⟨[], rfl⟩ (fun h => (reads_at?.mp h).2) ?_ hs h
  intro s t trees hs hfound hround
  simp only [reads_bind, reads_pure] at hround
  obtain ⟨tree, _, htree, rfl, rfl⟩ := hround
  obtain ⟨token, hword, hkind⟩ := exists_token_of_any (reads_at?.mp hfound).1.symm
  obtain ⟨⟨f, hf⟩, ht⟩ := reads_function hs hword (by simpa using hkind) htree
  refine ⟨ht, ?_⟩
  rintro rest ⟨list, hlist⟩
  exact ⟨f :: list, by simp [hf, hlist]⟩

theorem reads_mainFunction (hword : s.word = some token) (hkind : token.kind = .kwMain)
    (h : Reads (mainFunction limit) s tree s') :
    ∃ (keyword : Spelling "main") (b : Body),
      tree.shape = phrase .main [word keyword.text, word "(", word ")", b.tree] := by
  simp only [mainFunction, reads_branch, reads_bind, reads_pure] at h
  obtain ⟨_, ⟨leaf, _, hleaf, opening, t, hopening, closing, u, hclosing, _, v, hread, steps, _,
    hsteps, rfl, rfl⟩, rfl⟩ := h
  obtain ⟨⟨keyword, hkeyword⟩, rfl⟩ := reads_spelledLeaf_reserved hs hword hkind rfl hleaf
  obtain ⟨hleft, ht⟩ := reads_nextLeaf hs hopening
  obtain ⟨hright, hu⟩ := reads_nextLeaf ht hclosing
  obtain ⟨⟨b, hb⟩, -⟩ := reads_body (hu.readWord hread) hsteps
  exact ⟨keyword, b, by simp [hkeyword, hleft, hright, hb, Kind.text]⟩

theorem reads_program (h : Reads (program limit) s tree s') :
    ∃ p : Program, tree.shape = p.tree := by
  simp only [program, reads_branch, reads_bind, reads_at?] at h
  obtain ⟨trees, ⟨_, t, hread, _, _, ⟨rfl, rfl⟩, h⟩, rfl⟩ := h
  have ht := hs.readWord hread
  -- What follows the global declarations, if there are any.
  have hend : ∀ {u v w : State} {names functions : List SyntaxTree} {last : SyntaxTree}
      {token : Token} {globals : List Declaration}, u.Spelled →
      names.map SyntaxTree.shape
        = (if globals.isEmpty then [] else [declarationsTree globals]) →
      Reads (many (at? .kwFunction) (do return [← function limit]) limit) u functions v →
      v.word = some token → token.kind = .kwMain → Reads (mainFunction limit) v last w →
      ∃ p : Program, phrase .program ((names ++ functions ++ [last]).map SyntaxTree.shape)
        = p.tree := by
    intro u v w names functions last token globals hu hnames hfunctions hword hkind hlast
    obtain ⟨⟨list, hlist⟩, hv⟩ := reads_functions hu hfunctions
    obtain ⟨keyword, b, hmain⟩ := reads_mainFunction hv hword hkind hlast
    exact ⟨⟨globals, list, keyword,
      b⟩, by simp [hnames, hlist, hmain, Program.mainTree, Program.tree]⟩
  rw [SyntaxTree.shape_branch]
  split at h
  · rename_i hfound
    simp only [reads_bind, reads_pure, reads_expect, reads_get] at h
    obtain ⟨names, u, hnames, _, _, ⟨rfl, rfl⟩, functions, v, hfunctions, token, _,
      ⟨hword, hkind, rfl⟩, last, w, hlast, _, _, ⟨rfl, rfl⟩, h⟩ := h
    obtain ⟨⟨globals, hglobals, hne⟩, hu⟩ := reads_declarations ht hnames
    have hempty : globals.isEmpty = false := List.isEmpty_eq_false_iff.mpr (hne hfound)
    have hshape : [names].map SyntaxTree.shape
        = (if globals.isEmpty then [] else [declarationsTree globals]) := by
      simp [hglobals, hempty]
    split at h
    · simp at h
    · simp only [reads_pure] at h
      obtain ⟨rfl, -⟩ := h
      exact hend hu hshape hfunctions hword hkind hlast
  · simp only [reads_bind, reads_pure, reads_expect, reads_get] at h
    obtain ⟨_, _, ⟨rfl, rfl⟩, functions, v, hfunctions, token, _, ⟨hword, hkind, rfl⟩, last,
      w, hlast, _, _, ⟨rfl, rfl⟩, h⟩ := h
    have hshape : ([] : List SyntaxTree).map SyntaxTree.shape
        = (if ([] : List Declaration).isEmpty then [] else [declarationsTree []]) := rfl
    split at h
    · simp at h
    · simp only [reads_pure] at h
      obtain ⟨rfl, -⟩ := h
      exact hend ht hshape hfunctions hword hkind hlast

end ScoreLang.Parse

namespace ScoreLang

/-- **The parser accepts only programs**: the tree that it builds from well-spelled words is the
tree of a program. -/
theorem parse_shape {lines : List TokenLine} (hlines : ∀ line ∈ lines, line.isWellSpelled = true)
    {parsed : Parsed} (h : parse lines = .ok parsed) :
    ∃ program : Program, parsed.tree.shape = program.tree := by
  unfold parse at h
  split at h
  · simp at h
  · rename_i tree state hread
    obtain rfl := Except.ok.inj h
    exact Parse.reads_program ⟨by simp [Parse.State.initial], by simp [Parse.State.initial], hlines⟩
      hread

/-- If the parser accepts the tokens of a text, then its tree is the tree of a program. -/
theorem parse_tokenize {text : List Char} {parsed : Parsed}
    (h : parse (tokenize text).lines = .ok parsed) :
    ∃ program : Program, parsed.tree.shape = program.tree :=
  parse_shape (isWellSpelled_tokenize text) h

end ScoreLang
