import ScoreLang.Proofs.Parse.Mirror.Expression

/-!
# Statements Side by Side

The two parsers agree on statements. A statement passes at least one word, which is why a sequence
of statements comes to its end.
-/

namespace ScoreLang.Parse

variable {source : List TokenLine} {done list trees : List SyntaxTree} {s t u : State}
  {b n limit limit' : Nat}

/-- The action and the work add a tree and pass at least one word, if fewer than `limit` words are
left. -/
def MirroredPhrase (source : List TokenLine) (limit : Nat) (action : Parse SyntaxTree)
    (work : Work Unit) : Prop :=
  ∀ ⦃s : State⦄ ⦃b : Nat⦄ (done : List SyntaxTree), s.remaining.length < limit → s.Calm source b →
    Mirrors source done action work s b fun tree _ trees t left =>
      Adds source done s tree trees t left ∧ t.remaining.length < s.remaining.length

/-- A phrase that begins with a word of the given kind. -/
def MirroredAt (source : List TokenLine) (limit : Nat) (kind : Kind) (action : Parse SyntaxTree)
    (work : Work Unit) : Prop :=
  ∀ ⦃s : State⦄ ⦃b : Nat⦄ (done : List SyntaxTree), s.remaining.length < limit → s.Calm source b →
    s.At kind →
    Mirrors source done action work s b fun tree _ trees t left =>
      Adds source done s tree trees t left ∧ t.remaining.length < s.remaining.length

/-- Phrases that begin with a word of the given kind, one after the other. -/
theorem MirroredAt.many {depth : Nat} {kind : Kind} {phrase : Parse SyntaxTree}
    {phrase' : Work Unit}
    (h : MirroredAt source depth kind phrase phrase') (hdepth : s.remaining.length < depth)
    (hlimit : depth ≤ min limit limit') (hs : s.Calm source b) :
    Mirrors source done (Parse.many (at? kind) (return [← phrase]) limit)
      (Work.many (Work.at? kind) phrase' limit') s b
      fun list _ trees t left => Grows source SyntaxTree.leaves done s list trees t left := by
  refine (Mirrors.many _ (fun _ => True) s.remaining.length .at? ?_ (by omega) (Nat.le_refl _) hs
    trivial).imp fun _ _ _ _ _ h => h.1
  intro s' b' done' hle hs' _ hfound
  refine (h done' (by omega) hs' (State.at_of_any hfound)).map ?_
  rintro tree _ _ t left ⟨⟨rfl, ht, htree⟩, hlt⟩
  exact ⟨⟨rfl, ht, .cons htree .nil⟩, trivial, hlt⟩

/-- A sign at the current word is passed. -/
theorem State.Calm.sign {kind : Kind} (hkind : kind.isOperand = false) (hs : s.Calm source b)
    (cause : GrammarCause) (rule : Rule) :
    Mirrors source done (do
        let sign ← expectLeaf kind cause rule
        Parse.readWord
        return sign) (do
        Work.expectLeaf kind cause rule
        Work.readWord) s b
      fun tree _ trees t left =>
        Adds source done s tree trees t left ∧ t.remaining.length < s.remaining.length := by
  refine .bind (.expectLeaf fun hat => ?_)
  refine (hs.readWord hat).map ?_
  rintro _ _ _ t left ⟨rfl, ht, hstep, -⟩
  have hlength := hstep.length
  exact ⟨⟨rfl, ht, .leaf (hat.shownBy hkind) hstep⟩, by omega⟩

theorem State.Calm.semicolon (hs : s.Calm source b) (rule : Rule) :
    Mirrors source done (Parse.semicolon rule) (Work.semicolon rule) s b fun tree _ trees t left =>
      Adds source done s tree trees t left ∧ t.remaining.length < s.remaining.length :=
  hs.sign rfl _ rule

theorem State.Calm.rightBrace (hs : s.Calm source b) (rule : Rule) :
    Mirrors source done (Parse.rightBrace rule) (Work.rightBrace rule) s b fun tree _ trees t
    left =>
      Adds source done s tree trees t left ∧ t.remaining.length < s.remaining.length :=
  hs.sign rfl _ rule

/-- A parenthesised expression is read, after a word for which there is a leaf already. Its closing
parenthesis is the current word then. -/
theorem State.Calm.condition {kind : Kind} (hs : s.Calm source b) (hat : s.At kind)
    (hlimit : s.remaining.length < min limit limit') (rule : Rule) :
    Mirrors source done (Parse.condition rule limit) (Work.condition rule limit') s b
      fun list _ trees t left => trees = done ++ list ∧ t.Calm source left ∧ t.At .rightParen ∧
        t.remaining.length < s.remaining.length ∧
        ∃ u, s.Step u ∧ ∀ v, t.Step v → Spans SyntaxTree.leaves list u v := by
  refine (hs.nextLeaf hat _ _).andThen ?_
  rintro _ _ _ t left ⟨rfl, rfl, ht, hstep, hopening, -⟩
  refine (ht.readWord hopening).andThen ?_
  rintro _ _ _ u left ⟨rfl, hu, hstep', -⟩
  have hlength := hstep.length
  have hlength' := hstep'.length
  refine (mirrored_expression (Nat.le_of_lt hlimit) _ (by omega) hu).andThen ?_
  rintro test _ _ v left ⟨rfl, hv, htest⟩
  have hlength'' := htest.length
  refine .map (.expectLeaf fun hclosing => ?_) fun _ _ _ _ _ h => h
  refine ⟨by simp, hv, hclosing, by omega, t, hstep, fun w hlast => ?_⟩
  exact .leaf (hopening.shownBy rfl) hstep'
    (.cons htest (.leaf (hclosing.shownBy rfl) hlast .nil))

/-! ### Simple statements -/

theorem mirroredAt_returnStatement (hlimit : n ≤ min limit limit') :
    MirroredAt source n .kwReturn (returnStatement limit) (Work.returnStatement limit') := by
  intro s b done hn hs hat
  refine .ruleAnd .returnStatement rfl nofun (.bind (.kindLeaf ?_))
  refine (hs.readWord hat).andThen ?_
  rintro _ _ _ t left ⟨rfl, ht, hstep, -⟩
  have hlength := hstep.length
  refine (mirrored_expression hlimit _ (by omega) ht).andThen ?_
  rintro result _ _ u left ⟨rfl, hu, hresult⟩
  have hlength' := hresult.length
  refine (hu.semicolon _).map ?_
  rintro sign _ _ v left ⟨⟨rfl, hv, hsign⟩, hlt⟩
  exact ⟨⟨rfl, hv, .leaf (hat.shownBy rfl) hstep (.cons hresult (.cons hsign .nil))⟩, by omega⟩

theorem mirroredAt_writeStatement (hlimit : n ≤ min limit limit') :
    MirroredAt source n .kwWrite (writeStatement limit) (Work.writeStatement limit') := by
  intro s b done hn hs hat
  refine .ruleAnd .writeStatement rfl nofun (.bind (.spelledLeaf rfl ?_))
  refine (hs.readWord hat).andThen ?_
  rintro _ _ _ t left ⟨rfl, ht, hstep, -⟩
  have hlength := hstep.length
  refine (mirrored_expression hlimit _ (by omega) ht).andThen ?_
  rintro output _ _ u left ⟨rfl, hu, houtput⟩
  have hlength' := houtput.length
  refine (hu.semicolon _).map ?_
  rintro sign _ _ v left ⟨⟨rfl, hv, hsign⟩, hlt⟩
  exact ⟨⟨rfl, hv, .leaf (hat.shownBy_ofText rfl) hstep (.cons houtput (.cons hsign .nil))⟩,
    by omega⟩

theorem mirroredAt_readStatement :
    MirroredAt source n .kwRead readStatement Work.readStatement := by
  intro s b done hn hs hat
  refine .ruleAnd .readStatement rfl nofun (.bind (.spelledLeaf rfl ?_))
  refine (hs.readWord hat).andThen ?_
  rintro _ _ _ t left ⟨rfl, ht, hstep, -⟩
  have hlength := hstep.length
  refine .bind (.look (meets_expect fun token htoken hkind => ?_))
  obtain ⟨kind, name⟩ := token
  subst hkind
  refine (ht.reference htoken).andThen ?_
  rintro _ index _ u left ⟨target, rfl, ⟨rfl, hu, htarget⟩, -⟩
  have hlength' := htarget.length
  refine ((hu.mono (Nat.sub_le _ _)).semicolon _).map ?_
  rintro sign _ _ v left ⟨⟨rfl, hv, hsign⟩, hlt⟩
  exact ⟨⟨rfl, hv, .leaf (hat.shownBy_ofText rfl) hstep (.cons htarget (.cons hsign .nil))⟩,
    by omega⟩

theorem mirroredPhrase_expressionStatement (hlimit : n ≤ min limit limit') :
    MirroredPhrase source n (expressionStatement limit) (Work.expressionStatement limit') := by
  intro s b done hn hs
  refine .ruleAnd .expressionStatement rfl nofun (.bind (.at? (.ite (fun _ => ?_) fun _ => ?_)))
  · refine (hs.semicolon _).map ?_
    rintro sign _ _ t left ⟨⟨rfl, ht, hsign⟩, hlt⟩
    exact ⟨⟨rfl, ht, .cons hsign .nil⟩, hlt⟩
  · refine (mirrored_expression hlimit _ hn hs).andThen ?_
    rintro value _ _ t left ⟨rfl, ht, hvalue⟩
    have hlength := hvalue.length
    refine (ht.semicolon _).map ?_
    rintro sign _ _ u left ⟨⟨rfl, hu, hsign⟩, hlt⟩
    exact ⟨⟨rfl, hu, .cons hvalue (.cons hsign .nil)⟩, by omega⟩

theorem mirroredAt_jump {kind : Kind} (hkind : kind.keepsSpelling = true) :
    MirroredAt source n kind jump Work.jump := by
  intro s b done hn hs hat
  refine .ruleAnd .jump rfl nofun (.bind (.spelledLeaf rfl ?_))
  refine (hs.readWord hat).andThen ?_
  rintro _ _ _ t left ⟨rfl, ht, hstep, -⟩
  have hlength := hstep.length
  refine (ht.semicolon _).map ?_
  rintro sign _ _ u left ⟨⟨rfl, hu, hsign⟩, hlt⟩
  exact ⟨⟨rfl, hu, .leaf (hat.shownBy_ofText hkind) hstep (.cons hsign .nil)⟩, by omega⟩

/-! ### Statements that contain statements -/

section

variable {statement : Bool → Parse SyntaxTree} {statement' : Bool → Work Unit} {depth : Nat}
  (hstatement : ∀ jumps, MirroredPhrase source depth (statement jumps) (statement' jumps))

include hstatement

/-- A sequence of statements. Every round passes a word, because a statement does. -/
theorem mirrored_statements (jumps : Bool) (hdepth : s.remaining.length < depth)
    (hlimit : depth ≤ min limit limit') (hs : s.Calm source b) :
    Mirrors source done (statements statement jumps limit) (Work.statements statement' jumps
      limit') s b fun tree _ trees t left => Adds source done s tree trees t left := by
  refine .rule .statements rfl nofun ?_
  have hfound : ∀ {s : State} {b : Nat} {done : List SyntaxTree}
      {post : Bool → Bool → List SyntaxTree → State → Nat → Prop},
      post (!(s.word.any fun token => statementsEnd.contains token.kind))
        (!(s.word.any fun token => statementsEnd.contains token.kind)) done s b →
      Mirrors source done (return !(← atAny? statementsEnd))
        (return !(← Work.atAny? statementsEnd)) s b post :=
    fun h => .bind (.atAny? (.pure h))
  refine (Mirrors.many _ (fun _ => True) s.remaining.length hfound ?_ (by omega) (Nat.le_refl _) hs
    trivial).imp fun _ _ _ _ _ h => h.1
  intro s' b' done' hle hs' _ _
  refine (hstatement jumps done' (by omega) hs').map ?_
  rintro tree _ _ t left ⟨⟨rfl, ht, htree⟩, hlt⟩
  exact ⟨⟨rfl, ht, .cons htree .nil⟩, trivial, hlt⟩

variable (hlimit : depth < min limit limit')

include hlimit

theorem mirroredAt_compound (jumps : Bool) :
    MirroredAt source (depth + 1) .leftBrace (compound statement jumps limit)
      (Work.compound statement' jumps limit') := by
  intro s b done hdepth hs hat
  refine .ruleAnd .compound rfl nofun (.bind (.kindLeaf ?_))
  refine (hs.readWord hat).andThen ?_
  rintro _ _ _ t left ⟨rfl, ht, hstep, -⟩
  have hlength := hstep.length
  refine (mirrored_statements hstatement jumps (by omega) (Nat.le_of_lt hlimit) ht).andThen ?_
  rintro body _ _ u left ⟨rfl, hu, hbody⟩
  have hlength' := hbody.length
  refine (hu.rightBrace _).map ?_
  rintro sign _ _ v left ⟨⟨rfl, hv, hsign⟩, hlt⟩
  exact ⟨⟨rfl, hv, .leaf (hat.shownBy rfl) hstep (.cons hbody (.cons hsign .nil))⟩, by omega⟩

theorem mirroredAt_caseClause :
    MirroredAt source (depth + 1) .kwCase (caseClause statement limit)
      (Work.caseClause statement' limit') := by
  intro s b done hdepth hs hat
  refine .ruleAnd .caseClause rfl nofun (.bind (.spelledLeaf rfl ?_))
  refine (hs.nextNumber hat _).andThen ?_
  rintro _ number _ t left ⟨rfl, rfl, ht, hstep, hnumber, -⟩
  refine (ht.nextLeaf ⟨_, hnumber, rfl⟩ _ _).andThen ?_
  rintro _ _ _ u left ⟨rfl, rfl, hu, hstep', hcolon, -⟩
  refine (hu.readWord hcolon).andThen ?_
  rintro _ _ _ v left ⟨rfl, hv, hstep'', -⟩
  have hlength := hstep.length
  have hlength' := hstep'.length
  have hlength'' := hstep''.length
  refine (mirrored_statements hstatement true (by omega) (Nat.le_of_lt hlimit) hv).map ?_
  rintro body _ _ w left ⟨rfl, hw, hbody⟩
  have hlength''' := hbody.length
  refine ⟨⟨rfl, hw, ?_⟩, by omega⟩
  exact .leaf (hat.shownBy_ofText rfl) hstep (.leaf (State.shownBy_number hnumber) hstep'
    (.leaf (hcolon.shownBy rfl) hstep'' (.cons hbody .nil)))

theorem mirroredAt_defaultClause :
    MirroredAt source (depth + 1) .kwDefault (defaultClause statement limit)
      (Work.defaultClause statement' limit') := by
  intro s b done hdepth hs hat
  refine .ruleAnd .defaultClause rfl nofun (.bind (.spelledLeaf rfl ?_))
  refine (hs.nextLeaf hat _ _).andThen ?_
  rintro _ _ _ t left ⟨rfl, rfl, ht, hstep, hcolon, -⟩
  refine (ht.readWord hcolon).andThen ?_
  rintro _ _ _ u left ⟨rfl, hu, hstep', -⟩
  have hlength := hstep.length
  have hlength' := hstep'.length
  refine (mirrored_statements hstatement true (by omega) (Nat.le_of_lt hlimit) hu).map ?_
  rintro body _ _ v left ⟨rfl, hv, hbody⟩
  have hlength'' := hbody.length
  refine ⟨⟨rfl, hv, ?_⟩, by omega⟩
  exact .leaf (hat.shownBy_ofText rfl) hstep (.leaf (hcolon.shownBy rfl) hstep' (.cons hbody .nil))

theorem mirroredAt_switchStatement :
    MirroredAt source (depth + 1) .kwSwitch (switchStatement statement limit)
      (Work.switchStatement statement' limit') := by
  intro s b done hdepth hs hat
  refine .ruleAnd .switchStatement rfl nofun (.bind (.kindLeaf ?_))
  refine (hs.condition hat (by omega) _).andThen ?_
  rintro test _ _ t left ⟨rfl, ht, hclosing, hlt, u, hstep, htest⟩
  refine (ht.nextLeaf hclosing _ _).andThen ?_
  rintro _ _ _ v left ⟨rfl, rfl, hv, hstep', hopening, -⟩
  refine (hv.readWord hopening).andThen ?_
  rintro _ _ _ w left ⟨rfl, hw, hstep'', -⟩
  have hlength' := hstep'.length
  have hlength'' := hstep''.length
  refine .bind (.look (meets_expect fun token htoken hkind => ?_))
  refine ((mirroredAt_caseClause hstatement hlimit).many (by omega) hlimit hw).andThen ?_
  rintro clauses _ _ r left ⟨rfl, hr, hclauses⟩
  have hle := hclauses.length_le
  have hspans : Spans SyntaxTree.leaves (.leaf (.word Kind.kwSwitch.text) s.line ::
      (test ++ .leaf (.word Kind.leftBrace.text) v.line :: clauses)) s r :=
    .leaf (hat.shownBy rfl) hstep
      (.append (htest v hstep') (.leaf (hopening.shownBy rfl) hstep'' hclauses))
  -- the brace after the clauses, with or without a default clause between them
  simp only [pure_bind]
  refine .bind (.at? (.ite (fun hdefault => ?_) fun _ => ?_))
  · refine (mirroredAt_defaultClause hstatement hlimit _ (by omega) hr (State.at_of_any
      hdefault)).andThen ?_
    rintro otherwise _ _ x left ⟨⟨rfl, hx, hotherwise⟩, hlt'⟩
    refine (hx.rightBrace _).map ?_
    rintro sign _ _ y left ⟨⟨rfl, hy, hsign⟩, hlt''⟩
    refine ⟨⟨by simp, hy, ?_⟩, by omega⟩
    exact .append (hspans.append (.cons hotherwise .nil)) (.cons hsign .nil)
  · refine (hr.rightBrace _).map ?_
    rintro sign _ _ x left ⟨⟨rfl, hx, hsign⟩, hlt'⟩
    refine ⟨⟨by simp, hx, ?_⟩, by omega⟩
    exact .append (hspans.append .nil) (.cons hsign .nil)

theorem mirroredAt_ifStatement :
    MirroredAt source (depth + 1) .kwIf (ifStatement statement limit)
      (Work.ifStatement statement' limit') := by
  intro s b done hdepth hs hat
  refine .ruleAnd .ifStatement rfl nofun (.bind (.spelledLeaf rfl ?_))
  refine (hs.condition hat (by omega) _).andThen ?_
  rintro test _ _ t left ⟨rfl, ht, hclosing, hlt, u, hstep, htest⟩
  refine (ht.readWord hclosing).andThen ?_
  rintro _ _ _ v left ⟨rfl, hv, hstep', -⟩
  have hlength := hstep.length
  have hlength' := hstep'.length
  refine (hstatement false _ (by omega) hv).andThen ?_
  rintro body _ _ w left ⟨⟨rfl, hw, hbody⟩, hlt'⟩
  simp only [pure_bind]
  refine .bind (.at? (.ite (fun helse => ?_) fun _ => .pure ⟨⟨by simp, hw, ?_⟩, by omega⟩))
  · have hagain := State.at_of_any helse
    refine .bind (.kindLeaf ((hw.readWord hagain).andThen ?_))
    rintro _ _ _ x left ⟨rfl, hx, hstep'', -⟩
    have hlength'' := hstep''.length
    refine (hstatement false _ (by omega) hx).map ?_
    rintro otherwise _ _ y left ⟨⟨rfl, hy, hotherwise⟩, hlt''⟩
    refine ⟨⟨by simp, hy, ?_⟩, by omega⟩
    exact .leaf (hat.shownBy_ofText rfl) hstep (.append (htest v hstep')
      (.cons hbody (.leaf (hagain.shownBy rfl) hstep'' (.cons hotherwise .nil))))
  · exact .leaf (hat.shownBy_ofText rfl) hstep (.append (htest v hstep') (.cons hbody .nil))

theorem mirroredAt_whileStatement :
    MirroredAt source (depth + 1) .kwWhile (whileStatement statement limit)
      (Work.whileStatement statement' limit') := by
  intro s b done hdepth hs hat
  refine .ruleAnd .whileStatement rfl nofun (.bind (.spelledLeaf rfl ?_))
  refine (hs.condition hat (by omega) _).andThen ?_
  rintro test _ _ t left ⟨rfl, ht, hclosing, hlt, u, hstep, htest⟩
  refine (ht.readWord hclosing).andThen ?_
  rintro _ _ _ v left ⟨rfl, hv, hstep', -⟩
  have hlength' := hstep'.length
  refine (hstatement true _ (by omega) hv).map ?_
  rintro body _ _ w left ⟨⟨rfl, hw, hbody⟩, hlt'⟩
  refine ⟨⟨by simp, hw, ?_⟩, by omega⟩
  exact .leaf (hat.shownBy_ofText rfl) hstep (.append (htest v hstep') (.cons hbody .nil))

theorem mirroredAt_doWhile :
    MirroredAt source (depth + 1) .kwDo (doWhile statement limit)
      (Work.doWhile statement' limit') := by
  intro s b done hdepth hs hat
  refine .ruleAnd .doWhile rfl nofun (.bind (.kindLeaf ?_))
  refine (hs.readWord hat).andThen ?_
  rintro _ _ _ t left ⟨rfl, ht, hstep, -⟩
  have hlength := hstep.length
  refine (hstatement true _ (by omega) ht).andThen ?_
  rintro body _ _ u left ⟨⟨rfl, hu, hbody⟩, hlt⟩
  refine .bind (.expectLeaf fun hagain => ?_)
  refine (hu.condition hagain (by omega) _).andThen ?_
  rintro test _ _ v left ⟨rfl, hv, hclosing, hlt', w, hstep', htest⟩
  refine (hv.readWord hclosing).andThen ?_
  rintro _ _ _ r left ⟨rfl, hr, hstep'', -⟩
  have hlength'' := hstep''.length
  refine (hr.semicolon _).map ?_
  rintro sign _ _ z left ⟨⟨rfl, hz, hsign⟩, hlt''⟩
  refine ⟨⟨by simp, hz, ?_⟩, by omega⟩
  exact .leaf (hat.shownBy rfl) hstep (.cons hbody (.leaf (hagain.shownBy rfl) hstep'
    (.append (htest r hstep'') (.cons hsign .nil))))

theorem mirroredAt_forStatement :
    MirroredAt source (depth + 1) .kwFor (forStatement statement limit)
      (Work.forStatement statement' limit') := by
  intro s b done hdepth hs hat
  refine .ruleAnd .forStatement rfl nofun (.bind (.spelledLeaf rfl ?_))
  refine (hs.nextLeaf hat _ _).andThen ?_
  rintro _ _ _ t left ⟨rfl, rfl, ht, hstep, hopening, -⟩
  refine (ht.readWord hopening).andThen ?_
  rintro _ _ _ u left ⟨rfl, hu, hstep', -⟩
  have hlength := hstep.length
  have hlength' := hstep'.length
  refine (mirrored_expression hlimit _ (by omega) hu).andThen ?_
  rintro first _ _ v left ⟨rfl, hv, hfirst⟩
  have hle := hfirst.length
  refine (hv.semicolon _).andThen ?_
  rintro firstEnd _ _ w left ⟨⟨rfl, hw, hfirstEnd⟩, hlt⟩
  refine (mirrored_expression hlimit _ (by omega) hw).andThen ?_
  rintro test _ _ x left ⟨rfl, hx, htest⟩
  have hle' := htest.length
  refine (hx.semicolon _).andThen ?_
  rintro testEnd _ _ y left ⟨⟨rfl, hy, htestEnd⟩, hlt'⟩
  refine (mirrored_expression hlimit _ (by omega) hy).andThen ?_
  rintro step _ _ z left ⟨rfl, hz, hstep''⟩
  have hle'' := hstep''.length
  refine .bind (.expectLeaf fun hclosing => ?_)
  refine (hz.readWord hclosing).andThen ?_
  rintro _ _ _ r left ⟨rfl, hr, hlast, -⟩
  have hlength'' := hlast.length
  refine (hstatement true _ (by omega) hr).map ?_
  rintro body _ _ q left ⟨⟨rfl, hq, hbody⟩, hlt''⟩
  refine ⟨⟨rfl, hq, ?_⟩, by omega⟩
  exact .leaf (hat.shownBy_ofText rfl) hstep (.leaf (hopening.shownBy rfl) hstep'
    (.cons hfirst (.cons hfirstEnd (.cons htest (.cons htestEnd (.cons hstep''
      (.leaf (hclosing.shownBy rfl) hlast (.cons hbody .nil))))))))

/-- The form of a statement. Forms that are told apart by the first word begin with it. -/
theorem mirrors_statementForm {jumps : Bool} {kind : Kind} (hdepth : s.remaining.length < depth + 1)
    (hs : s.Calm source b) (hat : s.At kind) :
    Mirrors source done (statementForm statement jumps limit kind)
      (Work.statementForm statement' jumps limit' kind) s b fun tree _ trees t left =>
        Adds source done s tree trees t left ∧ t.remaining.length < s.remaining.length := by
  cases kind with
  | kwIf => exact mirroredAt_ifStatement hstatement hlimit done hdepth hs hat
  | kwWhile => exact mirroredAt_whileStatement hstatement hlimit done hdepth hs hat
  | kwDo => exact mirroredAt_doWhile hstatement hlimit done hdepth hs hat
  | kwFor => exact mirroredAt_forStatement hstatement hlimit done hdepth hs hat
  | kwWrite => exact mirroredAt_writeStatement hlimit done hdepth hs hat
  | kwRead => exact mirroredAt_readStatement done hdepth hs hat
  | leftBrace => exact mirroredAt_compound hstatement hlimit jumps done hdepth hs hat
  | kwReturn => exact mirroredAt_returnStatement hlimit done hdepth hs hat
  | kwSwitch => exact mirroredAt_switchStatement hstatement hlimit done hdepth hs hat
  | kwBreak =>
    exact .ite (fun _ => mirroredAt_jump rfl done hdepth hs hat) fun _ => .fail
  | kwContinue =>
    exact .ite (fun _ => mirroredAt_jump rfl done hdepth hs hat) fun _ => .fail
  | name | number | leftParen | semicolon | kwCall =>
    exact mirroredPhrase_expressionStatement hlimit done hdepth hs
  | _ => exact .fail

end

/-- **The two parsers agree on statements**, and do not reach their bounds on the depth. -/
theorem mirroredPhrase_statement {depth : Nat} (hlimit : depth ≤ min limit limit') (jumps : Bool) :
    MirroredPhrase source depth (statement limit jumps) (Work.statement limit' jumps) := by
  induction depth generalizing limit limit' jumps with
  | zero => exact fun s b done hdepth => absurd hdepth (Nat.not_lt_zero _)
  | succ depth ih =>
    obtain ⟨limit, rfl⟩ : ∃ m, limit = m + 1 := ⟨limit - 1, by omega⟩
    obtain ⟨limit', rfl⟩ : ∃ m, limit' = m + 1 := ⟨limit' - 1, by omega⟩
    intro s b done hdepth hs
    refine .ruleAnd .statement rfl nofun (.word ?_)
    cases hword : s.word with
    | none => exact .fail
    | some token =>
      refine (mirrors_statementForm (ih (by omega)) (by omega) hdepth hs ⟨token, hword, rfl⟩).map ?_
      rintro tree _ _ t left ⟨⟨rfl, ht, htree⟩, hlt⟩
      exact ⟨⟨rfl, ht, .cons htree .nil⟩, hlt⟩

end ScoreLang.Parse
