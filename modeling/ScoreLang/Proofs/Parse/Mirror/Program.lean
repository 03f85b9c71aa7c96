import ScoreLang.Proofs.Parse.Mirror.Statement
import ScoreLang.Proofs.Parse.Needs
import ScoreLang.Proofs.Parse.Placement

/-!
# Programs Side by Side

The two parsers agree on declarations, functions and whole programs.

Two rules take a word without looking at it: a parameter takes the place of its type, and a body
takes its opening brace. Before the body of a function and the first parameter the word has been
looked at, elsewhere it has not. At the end of the list there is no word to take, and one more is
asked for in vain; both rules are rejected then.

A right brace in the place of a type closes the scope of the parameters, and the end of the function
closes one more. That is the only way to lose the outermost scope, since everything else closes what
it has opened: a word that comes one too early, the right brace after the body of a function, is
rejected at once (`State.Between`).
-/

namespace ScoreLang.Parse

open List

variable {source : List TokenLine} {done list trees : List SyntaxTree} {s t u : State}
  {b n limit limit' : Nat}

theorem meets_declare {name : String} {category : Category} {rule : Rule}
    {post : Unit → State → Prop} (hs : s.Calm source b)
    (h : ∀ scopes, scopes ≠ [] → scopes.length = s.scopes.length →
      post () { s with scopes := scopes }) :
    Meets (declare name category rule) s (ParseFault.Fits source) post := by
  refine meets_bind.2 (meets_openScopes hs.scopeless fun _ => ?_)
  split
  · rename_i hput
    obtain ⟨scope, outer, hcons, -, rfl⟩ := Scopes.put?_cases hput
    exact h _ (cons_ne_nil _ _) (by rw [hcons]; rfl)
  · exact meets_fail

/-! ### The number of scopes -/

/-- At least `n` scopes were open before the current word, unless one too many was closed. -/
def State.Deep (source : List TokenLine) (n : Nat) (state : State) : Prop :=
  ParseFault.noScope.Fits source ∨ ∃ scopes, state.Steady scopes ∧ n ≤ scopes.length

/-- They are still open if the current word is not a right brace. -/
theorem State.Deep.le_length (h : s.Deep source n) (hs : ¬s.At .rightBrace) :
    ParseFault.noScope.Fits source ∨ n ≤ s.scopes.length := by
  rcases h with hfits | ⟨scopes, hsteady, hle⟩
  · exact .inl hfits
  · refine .inr (Nat.le_trans hle (hsteady.turns.length_le fun token hword hkind => ?_))
    exact hs ⟨token, hword, hkind⟩

theorem State.At.ne {kind kind' : Kind} (h : s.At kind) (hne : kind ≠ kind') : ¬s.At kind' := by
  rintro ⟨token, hword, rfl⟩
  obtain ⟨token', hword', rfl⟩ := h
  exact hne (by rw [Option.some.inj (hword.symm.trans hword')])

/-- A word after a comma closes no scope, unless it is one too many. -/
theorem State.Deep.comma (h : s.Deep source n) (hs : s.Calm source b) (hat : s.At .comma)
    (hstep : s.Step t) (ht : t.Steady s.scopes) :
    ParseFault.noScope.Fits source ∨ n ≤ t.scopes.length := by
  rcases h.le_length (hat.ne (by decide)) with hfits | hle
  · exact .inl hfits
  by_cases hbrace : t.At .rightBrace
  · -- the two words stand side by side in the list
    obtain ⟨comma, hcomma, hremaining⟩ := hstep
    obtain ⟨token, hword, hkind⟩ := hbrace
    obtain ⟨comma', hcomma', hcommaKind⟩ := hat
    obtain rfl := Option.some.inj (hcomma.symm.trans hcomma')
    obtain ⟨front, hfront⟩ := hs.suffix
    rw [hremaining, State.remaining_eq ht.pending, hword] at hfront
    refine .inl ⟨front.map Token.kind, (wordsOf t.lines).map Token.kind, ?_⟩
    rw [← TokenLine.map_kind_wordsOf, ← hfront]
    simp [hcommaKind, hkind]
  · exact (State.Deep.le_length (.inr ⟨_, ht, hle⟩) hbrace)

/-! ### Declarations -/

theorem Mirrored.mono {m : Nat} {action : Parse SyntaxTree} {work : Work Unit}
    (h : Mirrored source n action work) (hle : m ≤ n) : Mirrored source m action work :=
  fun _ _ done hm hs => h done (Nat.lt_of_lt_of_le hm hle) hs

section

variable (hlimit : n ≤ min limit limit')

include hlimit

/-- An initial value. -/
theorem mirrored_logical :
    Mirrored source n (logical (expression limit) limit)
      (Work.logical (Work.expression limit') limit') := by
  intro s b done hn hs
  cases n with
  | zero => exact absurd hn (Nat.not_lt_zero _)
  | succ depth =>
    have hexpression : Mirrored source depth (expression limit) (Work.expression limit') :=
      (mirrored_expression hlimit).mono (Nat.le_succ depth)
    exact mirrors_logical hexpression hlimit hn (.inl hs)

/-- The initial values of an array are read, after an assignment sign for which there is a leaf
already. -/
theorem mirrors_initializer (hs : s.Calm source b) (hat : s.At .assign)
    (hn : s.remaining.length < n) :
    Mirrors source done (initializer limit) (Work.initializer limit') s b fun tree _ trees t left =>
      trees = done ++ [tree] ∧ t.Calm source left ∧ ∃ u, s.Step u ∧ Covers tree.leaves u t := by
  refine (Mirrors.ruleWith .initializer nofun (P := fun list t left =>
    t.Calm source left ∧ ∃ u, s.Step u ∧ Spans SyntaxTree.leaves list u t) ?_).imp ?_
  · refine (hs.nextLeaf hat _ _).andThen ?_
    rintro _ _ _ t left ⟨rfl, rfl, ht, hstep, hopening, -⟩
    refine (ht.readWord hopening).andThen ?_
    rintro _ _ _ u left ⟨rfl, hu, hstep', -⟩
    have hlength := hstep.length
    have hlength' := hstep'.length
    refine .bind (.at? (.ite (fun _ => ?_) fun _ => ?_))
    · refine (hu.rightBrace _).map ?_
      rintro sign _ _ v left ⟨⟨rfl, hv, hsign⟩, -⟩
      exact ⟨rfl, hv, t, hstep, .leaf (hopening.shownBy rfl) hstep' (.cons hsign .nil)⟩
    · refine ((mirrored_logical hlimit).separated (by omega) hlimit hu).andThen ?_
      rintro values _ _ v left ⟨rfl, hv, hvalues⟩
      refine (hv.rightBrace _).map ?_
      rintro sign _ _ w left ⟨⟨rfl, hw, hsign⟩, -⟩
      refine ⟨by simp, hw, t, hstep, ?_⟩
      exact .leaf (hopening.shownBy rfl) hstep' (.append hvalues (.cons hsign .nil))
  · rintro _ _ _ t left ⟨rfl, list, rfl, ht, u, hstep, hspans⟩
    exact ⟨rfl, ht, u, hstep, hspans.branch rfl⟩

theorem mirrored_declarator : Mirrored source n (declarator limit) (Work.declarator limit') := by
  intro s b done hn hs
  refine .rule .declarator rfl nofun ?_
  refine .bind (.look (meets_expect fun token htoken hkind => .bind (.leaf ?_)))
  obtain ⟨kind, name⟩ := token
  subst hkind
  refine (hs.readWord ⟨_, htoken, rfl⟩).andThen ?_
  rintro _ _ _ t left ⟨rfl, ht, hstep, -⟩
  have hlength := hstep.length
  have hname : ∀ {list : List SyntaxTree} {u : State}, Spans SyntaxTree.leaves list t u →
      Spans SyntaxTree.leaves (.leaf (.name name) s.line :: list) s u :=
    fun h => .leaf (State.shownBy_name htoken) hstep h
  simp only [pure_bind]
  refine .bind (.at? (.ite (fun hbracket => ?_) fun _ => ?_))
  · have hopening := State.at_of_any hbracket
    refine .bind (.kindLeaf ((ht.nextNumber hopening _).andThen ?_))
    rintro _ number _ u left ⟨rfl, rfl, hu, hstep', hnumber, -⟩
    refine (hu.nextLeaf ⟨_, hnumber, rfl⟩ _ _).andThen ?_
    rintro _ _ _ v left ⟨rfl, rfl, hv, hstep'', hclosing, -⟩
    refine (hv.readWord hclosing).andThen ?_
    rintro _ _ _ w left ⟨rfl, hw, hlast, -⟩
    have hlength' := hstep'.length
    have hlength'' := hstep''.length
    have hlength''' := hlast.length
    have hlengths : ∀ {list : List SyntaxTree} {x : State}, Spans SyntaxTree.leaves list w x →
        Spans SyntaxTree.leaves (.leaf (.name name) s.line ::
          .leaf (.word Kind.leftBracket.text) t.line :: .leaf (.number number) u.line ::
          .leaf (.word Kind.rightBracket.text) v.line :: list) s x :=
      fun h => hname (.leaf (hopening.shownBy rfl) hstep' (.leaf (State.shownBy_number hnumber)
        hstep'' (.leaf (hclosing.shownBy rfl) hlast h)))
    refine .bind (.at? (.ite (fun hassign => ?_) fun _ => ?_))
    · have hsign := State.at_of_any hassign
      refine .bind (.kindLeaf ((mirrors_initializer hlimit hw hsign (by omega)).andThen ?_))
      rintro values _ _ x left ⟨rfl, hx, y, hstep''', hvalues⟩
      refine .map (.look (meets_declare hx fun scopes hscopes _ => ?_)) fun _ _ _ _ _ h => h
      exact ⟨rfl, hx.withScopes hscopes _,
        hlengths (.leaf (hsign.shownBy rfl) hstep''' (.cons hvalues .nil))⟩
    · refine .map (.look (meets_declare hw fun scopes hscopes _ => ?_)) fun _ _ _ _ _ h => h
      exact ⟨rfl, hw.withScopes hscopes _, hlengths .nil⟩
  · refine .bind (.at? (.ite (fun hassign => ?_) fun _ => ?_))
    · have hsign := State.at_of_any hassign
      refine .bind (.kindLeaf ((ht.readWord hsign).andThen ?_))
      rintro _ _ _ u left ⟨rfl, hu, hstep', -⟩
      have hlength' := hstep'.length
      refine (mirrored_logical hlimit _ (by omega) hu).andThen ?_
      rintro value _ _ v left ⟨rfl, hv, hvalue⟩
      refine .map (.look (meets_declare hv fun scopes hscopes _ => ?_)) fun _ _ _ _ _ h => h
      exact ⟨rfl, hv.withScopes hscopes _,
        hname (.leaf (hsign.shownBy rfl) hstep' (.cons hvalue .nil))⟩
    · refine .map (.look (meets_declare ht fun scopes hscopes _ => ?_)) fun _ _ _ _ _ h => h
      exact ⟨rfl, ht.withScopes hscopes _, hname .nil⟩

theorem mirroredAt_declaration :
    MirroredAt source n .kwInt (declaration limit) (Work.declaration limit') := by
  intro s b done hn hs hat
  refine .ruleAnd .declaration rfl nofun (.bind (.spelledLeaf rfl ?_))
  refine (hs.readWord hat).andThen ?_
  rintro _ _ _ t left ⟨rfl, ht, hstep, -⟩
  have hlength := hstep.length
  refine ((mirrored_declarator hlimit).separated (by omega) hlimit ht).andThen ?_
  rintro names _ _ u left ⟨rfl, hu, hnames⟩
  have hle := hnames.length_le
  refine (hu.semicolon _).map ?_
  rintro sign _ _ v left ⟨⟨rfl, hv, hsign⟩, hlt⟩
  refine ⟨⟨by simp, hv, ?_⟩, by omega⟩
  exact .leaf (hat.shownBy_ofText rfl) hstep (.append hnames (.cons hsign .nil))

theorem mirrored_declarations :
    Mirrored source n (declarations limit) (Work.declarations limit') := by
  intro s b done hn hs
  exact .rule .declarations rfl nofun ((mirroredAt_declaration hlimit).many hn hlimit hs)

/-! ### Words that are taken unseen -/

omit hlimit in
/-- At the end of the list, one more word is asked for in vain. -/
theorem State.Calm.readWord_last {post : Unit → Unit → List SyntaxTree → State → Nat → Prop}
    (hs : s.Calm source b) (hnone : s.word = none)
    (h : ∀ t : State, t.word = none → post () () done t (b - 1)) :
    Mirrors source done Parse.readWord Work.readWord s b post := by
  have hcredit := hs.credit
  refine .readWord hs.orderly (by omega) (hs.meets_readWord.imp ?_)
  rintro _ t ⟨hsteady, -, hremaining, -⟩
  refine h t ?_
  rw [hs.last hnone, hnone, State.remaining_eq hsteady.pending] at hremaining
  cases hword : t.word with
  | none => rfl
  | some token => simp [hword] at hremaining

omit hlimit in
/-- A repetition without a round. -/
theorem Mirrors.many_nil {kind : Kind} {round : Parse (List SyntaxTree)} {round' : Work Unit}
    {post : List SyntaxTree → Unit → List SyntaxTree → State → Nat → Prop}
    (hfound : (s.word.any fun token => token.kind == kind) = false) (h : post [] () done s b) :
    Mirrors source done (Parse.many (Parse.at? kind) round limit)
      (Work.many (Work.at? kind) round' limit') s b post := by
  cases limit <;> cases limit' <;>
    exact .bind (.at? (.ite (fun htrue => nomatch hfound.symm.trans htrue) fun _ => .pure h))

omit hlimit in
/-- No statement begins at the end of the list. -/
theorem mirrors_statements_last {jumps : Bool} (hnone : s.word = none)
    {post : SyntaxTree → Unit → List SyntaxTree → State → Nat → Prop} :
    Mirrors source done (statements (statement (limit + 1)) jumps (limit + 1))
      (Work.statements (Work.statement (limit' + 1)) jumps (limit' + 1)) s b post := by
  have hfail : ∀ {done : List SyntaxTree}
      {post : SyntaxTree → Unit → List SyntaxTree → State → Nat → Prop},
      Mirrors source done (statement (limit + 1) jumps) (Work.statement (limit' + 1) jumps) s b
        post := by
    intro done post
    refine .branch nofun (.get_left (.map (.word ?_) fun _ _ _ _ _ h => h))
    rw [hnone]
    exact .fail
  refine .branch nofun (.get_left (.map ?_ fun _ _ _ _ _ h => h))
  refine .bind (.bind (.atAny? (.pure ?_)))
  rw [hnone]
  exact .bind (.map hfail fun _ _ _ _ _ h => h)

/-- The brace of a body is passed, whatever it is. -/
theorem mirrors_body (hs : s.Calm source b) (hn : s.remaining.length < n) :
    Mirrors source done (body limit) (Work.body limit') s b fun tree _ trees t left =>
      trees = done ++ [tree] ∧ ∃ list, tree = .branch .body s.line
        (.leaf (.word Kind.leftBrace.text) s.line :: list) ∧ t.Calm source left ∧
        ∃ u, s.Step u ∧ Spans SyntaxTree.leaves list u t := by
  refine (Mirrors.ruleWith .body nofun (P := fun list t left => t.Calm source left ∧
    ∃ rest, list = .leaf (.word Kind.leftBrace.text) s.line :: rest ∧
      ∃ u, s.Step u ∧ Spans SyntaxTree.leaves rest u t) (.bind (.kindLeaf ?_))).imp ?_
  · cases hword : s.word with
    | none =>
      -- no declaration and no statement begins at the end of the list
      refine .bind (hs.readWord_last hword fun t hnone => ?_)
      have hat : ∀ kind, (t.word.any fun token => token.kind == kind) = false := by
        intro kind
        rw [hnone]
        rfl
      obtain ⟨limit, rfl⟩ : ∃ m, limit = m + 1 := ⟨limit - 1, by omega⟩
      obtain ⟨limit', rfl⟩ : ∃ m, limit' = m + 1 := ⟨limit' - 1, by omega⟩
      refine .bind (.branch nofun (.get_left (.map (.many_nil (hat _) ?_) fun _ _ _ _ _ h => h)))
      exact .bind (mirrors_statements_last hnone)
    | some token =>
      have hat : s.At token.kind := ⟨token, hword, rfl⟩
      refine (hs.readWord hat).andThen ?_
      rintro _ _ _ t left ⟨rfl, ht, hstep, -⟩
      have hlength := hstep.length
      refine (mirrored_declarations hlimit _ (by omega) ht).andThen ?_
      rintro names _ _ u left ⟨rfl, hu, hnames⟩
      have hlength' := hnames.length
      refine (mirrored_statements (mirroredPhrase_statement hlimit) false (by omega) hlimit
        hu).andThen ?_
      rintro steps _ _ v left ⟨rfl, hv, hsteps⟩
      refine (hv.rightBrace _).map ?_
      rintro sign _ _ w left ⟨⟨rfl, hw, hsign⟩, -⟩
      exact ⟨rfl, hw, _, rfl, t, hstep, .cons hnames (.cons hsteps (.cons hsign .nil))⟩
  · rintro _ _ _ t left ⟨rfl, _, rfl, ht, rest, rfl, u, hstep, hspans⟩
    exact ⟨rfl, rest, rfl, ht, u, hstep, hspans⟩

omit hlimit in
/-- The type of a parameter is passed, whatever it is. -/
theorem mirrors_parameter (hs : s.Calm source b) :
    Mirrors source done parameter Work.parameter s b fun tree _ trees t left =>
      trees = done ++ [tree] ∧ t.Calm source left ∧
        Covers (tree.leavesAfter (.rule .parameters)) s t ∧
        (s.At .kwInt → Covers tree.leaves s t) ∧
        ∃ scopes, t.Steady scopes ∧ scopes.length = s.scopes.length := by
  refine (Mirrors.ruleWith .parameter nofun (P := fun list t left => t.Calm source left ∧
    (∃ name line, list = [.leaf (.word Kind.kwInt.text) s.line, .leaf (.name name) line] ∧
      ∃ u, s.Step u ∧ Covers [⟨.name name, true⟩] u t) ∧
    ∃ scopes, t.Steady scopes ∧ scopes.length = s.scopes.length) (.bind (.kindLeaf ?_))).imp ?_
  · cases hword : s.word with
    | none =>
      refine .bind (.bind (hs.readWord_last hword fun t hnone => ?_))
      refine .bind (.look (meets_expect fun token htoken _ => ?_))
      exact nomatch hnone.symm.trans htoken
    | some token =>
      refine (hs.nextName ⟨token, hword, rfl⟩ _ _).andThen ?_
      rintro _ name _ t left ⟨rfl, rfl, ht, hstep, hname, -, hsteady⟩
      refine .bind (.look (meets_declare ht fun scopes hscopes hlength => ?_))
      rw [hsteady.scopes_eq ⟨_, hname, rfl⟩ rfl] at hlength
      have hcalm := ht.withScopes hscopes t.scopeCount
      refine (hcalm.readWord ⟨_, hname, rfl⟩).map ?_
      rintro _ _ _ u left ⟨rfl, hu, hstep', -, hsteady'⟩
      exact ⟨rfl, hu, ⟨name, _, rfl, _, hstep, .leaf (State.shownBy_name hname) hstep'⟩, scopes,
        hsteady', hlength⟩
  · rintro _ _ _ t left ⟨rfl, _, rfl, ht, ⟨name, line, rfl, u, hstep, hname⟩, hscopes⟩
    refine ⟨rfl, ht, ?_, fun hat => ?_, hscopes⟩
    · exact (Covers.unchecked (.inl rfl) hstep).append hname
    · exact (Covers.leaf (hat.shownBy rfl) hstep).append hname

/-- The parameters of a function. The first one is looked at. -/
theorem mirrors_parameters {count : Nat} (hs : s.Calm source b) (hn : s.remaining.length < n)
    (hdeep : s.Deep source count) :
    Mirrors source done (parameters limit) (Work.parameters limit') s b fun tree _ trees t left =>
      Adds source done s tree trees t left ∧ t.Deep source count := by
  -- a parameter opens and closes no scope
  have hparameter : ∀ {t u : State}, ParseFault.noScope.Fits source ∨ count ≤ t.scopes.length →
      (∃ scopes, u.Steady scopes ∧ scopes.length = t.scopes.length) → u.Deep source count := by
    rintro t u (hfits | hle) ⟨scopes, hu, hlength⟩
    · exact .inl hfits
    · exact .inr ⟨scopes, hu, by omega⟩
  refine (Mirrors.ruleWith .parameters nofun (P := fun list t left => t.Calm source left ∧
    Covers (SyntaxTree.leavesBelow (.rule .parameters) true list) s t ∧ t.Deep source count)
    ?_).imp ?_
  · refine .bind (.at? (.ite (fun _ => .pure ⟨rfl, hs, .of_eq rfl, hdeep⟩) fun _ => ?_))
    refine .bind (.look (meets_expect fun token htoken hkind => ?_))
    have hat : s.At .kwInt := ⟨token, htoken, hkind⟩
    have hfirst : Mirrors source [] parameter Work.parameter s b fun tree _ trees t left =>
        Adds source [] s tree trees t left ∧ t.Deep source count := by
      refine (mirrors_parameter hs).imp ?_
      rintro tree _ _ t left ⟨rfl, ht, -, htree, hscopes⟩
      exact ⟨⟨rfl, ht, htree hat⟩, hparameter (hdeep.le_length (hat.ne (by decide))) hscopes⟩
    refine (Mirrors.separated (SyntaxTree.leavesAfter (.rule .parameters)) (State.Deep source count)
      (fun _ => rfl) hfirst ?_ (by omega)).imp ?_
    · intro c t b b' done hc hcomma hdeep hstep hsteady _ ht
      refine (mirrors_parameter ht).imp ?_
      rintro tree _ _ u left ⟨rfl, hu, htree, -, hscopes⟩
      exact ⟨rfl, hu, htree, hparameter (hdeep.comma hc hcomma hstep hsteady) hscopes⟩
    · rintro _ _ _ t left ⟨⟨node, sons⟩, rest, rfl, rfl, ht, ⟨u, htree, hrest⟩, hdeep⟩
      refine ⟨rfl, ht, ?_, hdeep⟩
      have hloose : Rule.isLoose (.rule .parameters) true node = false := by
        simp [Rule.isLoose]
      rw [SyntaxTree.leavesBelow, hloose, SyntaxTree.leavesBelow_false]
      exact htree.append hrest
  · rintro _ _ _ t left ⟨rfl, list, rfl, ht, hlist, hdeep⟩
    exact ⟨⟨rfl, ht, hlist⟩, hdeep⟩

/-! ### Functions and programs -/

/-- A function has been read. A right brace after its body has closed a scope too early. -/
structure State.Between (source : List TokenLine) (budget : Nat) (state : State) : Prop where
  pending : state.pending = []
  calm : ¬state.At .rightBrace → state.Calm source budget

omit hlimit in
/-- The scope of the parameters is closed. -/
theorem State.Calm.leaveScope (hs : s.Calm source b) (hdeep : s.Deep source 2) :
    Meets Parse.leaveScope s (ParseFault.Fits source) fun _ t =>
      t.Between source b ∧ t.remaining = s.remaining := by
  refine meets_bind.2 (meets_openScopes hs.scopeless fun _ => ?_)
  refine ⟨⟨hs.pending, fun hbrace => ⟨hs.pending, hs.last, hs.suffix, hs.lines, hs.credit,
    ?_⟩⟩, rfl⟩
  intro hnil
  rcases hdeep.le_length hbrace with hfits | hle
  · exact hfits
  · have hlength := congrArg List.length hnil
    rw [length_tail, length_nil] at hlength
    omega

theorem mirrors_function (hs : s.Calm source b) (hat : s.At .kwFunction)
    (hn : s.remaining.length < n) :
    Mirrors source done (function limit) (Work.function limit') s b fun tree _ trees t left =>
      trees = done ++ [tree] ∧ t.Between source left ∧ Covers tree.leaves s t ∧
        t.remaining.length < s.remaining.length := by
  refine (Mirrors.ruleWith .function nofun (P := fun list t left => t.Between source left ∧
    Spans SyntaxTree.leaves list s t ∧ t.remaining.length < s.remaining.length)
    (.bind (.spelledLeaf rfl ?_))).imp ?_
  · refine (hs.nextName hat _ _).andThen ?_
    rintro _ name _ t left ⟨rfl, rfl, ht, hstep, hname, -⟩
    refine .bind (.look (meets_declare ht fun scopes hscopes _ => ?_))
    refine ((ht.withScopes hscopes t.scopeCount).nextLeaf ⟨_, hname, rfl⟩ _ _).andThen ?_
    rintro _ _ _ u left ⟨rfl, rfl, hu, hopened, hopening, -, hsteady⟩
    refine .bind (.look (meets_modify.2 ?_))
    have hscope : u.openScope.Calm source left := hu.withScopes (cons_ne_nil _ _) _
    refine (hscope.readWord hopening).andThen ?_
    rintro _ _ _ v left ⟨rfl, hv, hentered, -, hsteady'⟩
    -- one scope is open, and that of the parameters
    have hdeep : v.Deep source 2 := by
      have hkept : u.scopes = scopes := hsteady.scopes_eq hopening rfl
      exact .inr ⟨_, hsteady', Nat.succ_le_succ (length_pos_iff.2 (hkept ▸ hscopes))⟩
    -- the scopes do not matter for the words that are passed
    have hstep' : t.Step u := hopened
    have hstep'' : u.Step v := hentered
    have hlength := hstep.length
    have hlength' := hstep'.length
    have hlength'' := hstep''.length
    refine (mirrors_parameters hlimit hv (by omega) hdeep).andThen ?_
    rintro given _ _ w left ⟨⟨rfl, hw, hgiven⟩, hdeep⟩
    have hle := hgiven.length
    refine .bind (.expectLeaf fun hclosing => ?_)
    refine (hw.readWord hclosing).andThen ?_
    rintro _ _ _ x left ⟨rfl, hx, hlast, -, hsteady⟩
    have hle' := hlast.length
    refine .bind (.look (meets_expect fun token htoken hkind => ?_))
    have hbrace : x.At .leftBrace := ⟨token, htoken, hkind⟩
    refine (mirrors_body hlimit hx (by omega)).andReads.andThen ?_
    rintro _ _ _ y left ⟨⟨rfl, list, rfl, hy, z, hstep''', hlist⟩, hreads⟩
    have hle'' := hlist.length_le
    have hle''' := hstep'''.length
    have hdeep : y.Deep source 2 := by
      have hturns := hsteady.turns
      rw [htoken] at hturns
      obtain ⟨id, hopen⟩ := hturns.leftBrace hkind
      refine (hdeep.le_length (hclosing.ne (by decide))).imp_right fun hle => ?_
      exact ⟨_, reads_body_steady hx.pending hopen hreads, hle⟩
    have hbody : Spans SyntaxTree.leaves [.branch .body x.line
        (.leaf (.word Kind.leftBrace.text) x.line :: list)] x y :=
      .cons (Spans.branch rfl (.leaf (hbrace.shownBy rfl) hstep''' hlist)) .nil
    refine .map (.look ((hy.leaveScope hdeep).imp ?_)) fun _ _ _ _ _ h => h
    rintro _ r ⟨hr, hremaining⟩
    rw [Spans, Covers, hremaining]
    refine ⟨rfl, hr, ?_, by omega⟩
    exact Spans.leaf (hat.shownBy_ofText rfl) hstep (.leaf (State.shownBy_name hname) hstep'
      (.leaf (hopening.shownBy rfl) hstep'' (.cons hgiven
        (.leaf (hclosing.shownBy rfl) hlast hbody))))
  · rintro _ _ _ t left ⟨rfl, list, rfl, ht, hspans, hlt⟩
    exact ⟨rfl, ht, hspans.branch rfl, hlt⟩

/-- The functions of a program, one after the other. -/
theorem mirrors_functions {count count' : Nat} (hs : s.Between source b)
    (hn : s.remaining.length < n) (hcount : s.remaining.length < min count count') :
    Mirrors source done (many (at? .kwFunction) (return [← function limit]) count)
      (Work.many (Work.at? .kwFunction) (Work.function limit') count') s b fun list _ trees t
      left =>
        trees = done ++ list ∧ t.Between source left ∧ Spans SyntaxTree.leaves list s t := by
  induction count generalizing s b done count' with
  | zero => omega
  | succ count ih =>
    obtain ⟨count', rfl⟩ : ∃ m, count' = m + 1 := ⟨count' - 1, by omega⟩
    refine .bind (.at? (.ite (fun hfound => ?_) fun _ => .pure ⟨by simp, hs, .nil⟩))
    have hat := State.at_of_any hfound
    have hround : Mirrors source done (return [← function limit]) (Work.function limit') s b
        fun list _ trees t left => trees = done ++ list ∧ t.Between source left ∧
          Spans SyntaxTree.leaves list s t ∧ t.remaining.length < s.remaining.length := by
      refine (mirrors_function hlimit (hs.calm (hat.ne (by decide))) hat hn).map ?_
      rintro tree _ _ t left ⟨rfl, ht, htree, hlt⟩
      exact ⟨rfl, ht, .cons htree .nil, hlt⟩
    refine hround.andThen ?_
    rintro first _ _ t left ⟨rfl, ht, hfirst, hlt⟩
    refine (ih ht (by omega) (by omega)).map ?_
    rintro rest _ _ u left ⟨rfl, hu, hrest⟩
    exact ⟨append_assoc _ _ _, hu, hfirst.append hrest⟩

/-- The main function. Its brace is not looked at. -/
theorem mirrors_mainFunction (hs : s.Calm source b) (hat : s.At .kwMain)
    (hn : s.remaining.length < n) :
    Mirrors source done (mainFunction limit) (Work.mainFunction limit') s b
      fun tree _ trees t left => Adds source done s tree trees t left := by
  refine (Mirrors.ruleWith .main nofun (P := fun list t left => t.Calm source left ∧
    Covers (SyntaxTree.leavesBelow (.rule .main) true list) s t)
    (.bind (.spelledLeaf rfl ?_))).imp ?_
  · refine (hs.nextLeaf hat _ _).andThen ?_
    rintro _ _ _ t left ⟨rfl, rfl, ht, hstep, hopening, -⟩
    refine (ht.nextLeaf hopening _ _).andThen ?_
    rintro _ _ _ u left ⟨rfl, rfl, hu, hstep', hclosing, -⟩
    refine (hu.readWord hclosing).andThen ?_
    rintro _ _ _ v left ⟨rfl, hv, hstep'', -⟩
    have hlength := hstep.length
    have hlength' := hstep'.length
    have hlength'' := hstep''.length
    refine (mirrors_body hlimit hv (by omega)).map ?_
    rintro _ _ _ w left ⟨rfl, list, rfl, hw, x, hlast, hlist⟩
    refine ⟨rfl, hw, ?_⟩
    have hbody : Covers (Leaf.uncheckFirst (SyntaxTree.branch .body v.line
        (.leaf (.word Kind.leftBrace.text) v.line :: list)).leaves) v w := by
      rw [SyntaxTree.leaves_branch rfl]
      exact (Covers.unchecked (.inr rfl) hlast).append hlist
    exact (Covers.leaf (hat.shownBy_ofText rfl) hstep).append
      ((Covers.leaf (hopening.shownBy rfl) hstep').append
        ((Covers.leaf (hclosing.shownBy rfl) hstep'').append (hbody.append (.of_eq rfl))))
  · rintro _ _ _ t left ⟨rfl, list, rfl, ht, hlist⟩
    exact ⟨rfl, ht, hlist⟩

/-- What comes after the declarations of a program. -/
theorem mirrors_programEnd {names : List SyntaxTree} (hs : s.Calm source b)
    (hn : s.remaining.length < n) :
    Mirrors source names (programEnd limit (body limit) names) (Work.programEnd limit') s b
      fun list _ trees _ _ => trees = list ∧ ∃ rest, list = names ++ rest ∧
        List.Forall₂ Leaf.Shows (rest.flatMap SyntaxTree.leaves) s.remaining := by
  have hfunctions : Mirrors source names
      (many (at? .kwFunction) (return [← functionWith limit (body limit)]) limit)
      (Work.many (Work.at? .kwFunction) (Work.function limit') limit') s b fun list _ trees t
        left =>
        trees = names ++ list ∧ t.Between source left ∧ Spans SyntaxTree.leaves list s t :=
    mirrors_functions hlimit ⟨hs.pending, fun _ => hs⟩ hn (by omega)
  refine hfunctions.andThen ?_
  rintro functions _ _ t left ⟨rfl, ht, hspans⟩
  have hle := hspans.length_le
  refine .bind (.look (meets_expect fun token htoken hkind => ?_))
  have hat : t.At .kwMain := ⟨token, htoken, hkind⟩
  refine (mirrors_mainFunction hlimit (ht.calm (hat.ne (by decide))) hat (by omega)).andThen ?_
  rintro last _ _ u left ⟨rfl, hu, hlast⟩
  refine .word ?_
  cases hword : u.word with
  | some token => exact .fail
  | none =>
    refine .pure ⟨rfl, functions ++ [last], by simp, ?_⟩
    -- no word is left, so that all have been passed
    obtain ⟨passed, hpassed, hshows⟩ := hspans.append (.cons hlast .nil)
    rw [hu.last hword, append_nil] at hpassed
    rw [hpassed]
    exact hshows

end

/-- **The two parsers agree on programs**: they are rejected alike, or both accept the program with
the sons of the root built. Then there is one token for each leaf. No bound is reached, and each
word is asked for at most twice, not counting the first and the end of the list. -/
theorem mirrors_program (lines : List TokenLine)
    (hlimit : (wordsOf lines).length < min limit limit') :
    Mirrors lines [] (program limit) (Work.program limit') (.initial lines)
      (2 * (wordsOf lines).length + 2) fun tree _ trees _ _ =>
        tree = .branch .program 1 trees ∧ List.Forall₂ Leaf.Shows tree.leaves (wordsOf lines) := by
  have hinitial : (State.initial lines).remaining = wordsOf lines := rfl
  rw [program_eq]
  refine .get_left (.map (.bind (.readWord ?_ (by omega) ?_)) fun _ _ _ _ _ h => h)
  · exact ⟨Nat.zero_le 4, hinitial ▸ suffix_rfl⟩
  refine (meets_readWord_first (s := .initial lines) rfl (cons_ne_nil _ _)).imp ?_
  rintro _ t ⟨ht, hremaining⟩
  replace ht : t.Calm lines (2 * (wordsOf lines).length + 1) := ht
  replace hremaining : t.remaining = wordsOf lines := hremaining
  -- all words have been passed when those of the declarations and of the rest have been
  have hend : ∀ {names : List SyntaxTree} {u : State} {left : Nat},
      u.Calm lines left → Spans SyntaxTree.leaves names t u →
      Mirrors lines names (programEnd limit (body limit) names) (Work.programEnd limit') u
        left fun list _ trees _ _ =>
          SyntaxTree.branch .program 1 list = .branch .program 1 trees ∧
            List.Forall₂ Leaf.Shows (SyntaxTree.branch .program 1 list).leaves (wordsOf lines) := by
    intro names u left hu hnames
    have hle := hnames.length_le
    refine (mirrors_programEnd hlimit hu (by rw [hremaining] at hle; omega)).imp ?_
    rintro _ _ _ _ _ ⟨rfl, rest, rfl, hrest⟩
    obtain ⟨passed, hpassed, hshows⟩ := hnames
    refine ⟨rfl, ?_⟩
    rw [SyntaxTree.leaves_branch rfl, flatMap_append, ← hremaining, hpassed]
    exact rel_append hshows hrest
  refine .bind (.at? (.ite (fun _ => ?_) fun _ => hend ht .nil))
  refine (mirrored_declarations hlimit _ (by rw [hremaining]; omega) ht).andThen ?_
  rintro names _ _ u left ⟨rfl, hu, hnames⟩
  exact hend hu (.cons hnames .nil)

end ScoreLang.Parse
