import ScoreLang.Proofs.Parse.Mirror

/-!
# Expressions Side by Side

The two parsers agree on expressions, and an expression passes one word for each of its leaves.

An expression that begins with a name builds the variable twice if no assignment follows: the first
branch is cut off, and the words of the variable and the one after it are read again.
`State.Requeued` is the state at the name then. What has been spent on the first reading is what
the second one may cost: the words that are left after the variable are in no debt.
-/

namespace ScoreLang.Parse

open List

variable {source : List TokenLine} {done list list' trees trees' : List SyntaxTree} {s t u : State}
  {b left limit limit' : Nat}

/-! ### What rules leave behind -/

/-- The parser has passed one word for each leaf of the trees, where `view` gives the leaves. -/
def Spans (view : SyntaxTree → List Leaf) (trees : List SyntaxTree) (s t : State) : Prop :=
  Covers (trees.flatMap view) s t

namespace Spans

variable {view : SyntaxTree → List Leaf} {tree : SyntaxTree}

theorem nil : Spans view [] s s := .of_eq rfl

theorem cons (htree : Covers (view tree) s t) (hlist : Spans view list t u) :
    Spans view (tree :: list) s u :=
  htree.append hlist

/-- A leaf for the current word, which is then passed. -/
theorem leaf {label : Label} {line : Nat} (hshown : s.ShownBy label) (hstep : s.Step t)
    (hlist : Spans SyntaxTree.leaves list t u) :
    Spans SyntaxTree.leaves (.leaf label line :: list) s u :=
  cons (.leaf hshown hstep) hlist

theorem append (hlist : Spans view list s t) (hlist' : Spans view list' t u) :
    Spans view (list ++ list') s u := by
  rw [Spans, flatMap_append]
  exact Covers.append hlist hlist'

/-- The leaves of a branch are those of its sons. -/
theorem branch {rule : Rule} {line : Nat} (hstrict : rule.isStrict = true)
    (h : Spans SyntaxTree.leaves list s t) :
    Covers (SyntaxTree.branch rule line list).leaves s t := by
  rw [SyntaxTree.leaves_branch hstrict]
  exact h

theorem length_le (h : Spans view list s t) : t.remaining.length ≤ s.remaining.length := by
  have hlength := Covers.length h
  omega

end Spans

/-- The trees of a list have been added, and the parser has passed their words. -/
structure Grows (source : List TokenLine) (view : SyntaxTree → List Leaf) (done : List SyntaxTree)
    (s : State) (list trees : List SyntaxTree) (t : State) (left : Nat) : Prop where
  /-- The trees come after those that were there. -/
  trees_eq : trees = done ++ list
  calm : t.Calm source left
  spans : Spans view list s t

/-- One tree has been added, and the parser has passed its words. -/
structure Adds (source : List TokenLine) (done : List SyntaxTree) (s : State) (tree : SyntaxTree)
    (trees : List SyntaxTree) (t : State) (left : Nat) : Prop where
  /-- The tree comes after those that were there. -/
  trees_eq : trees = done ++ [tree]
  calm : t.Calm source left
  covers : Covers tree.leaves s t

/-- The action and the work add a tree, if fewer than `limit` words are left. -/
def Mirrored (source : List TokenLine) (limit : Nat) (action : Parse SyntaxTree)
    (work : Work Unit) : Prop :=
  ∀ ⦃s : State⦄ ⦃b : Nat⦄ (done : List SyntaxTree), s.remaining.length < limit → s.Calm source b →
    Mirrors source done action work s b fun tree _ trees t left => Adds source done s tree
    trees t left

variable {index : Option String} {sons : Parse (List SyntaxTree)} {name : String} {work : Work Unit}

/-- A rule adds a branch, of whose sons `P` is known. -/
theorem Mirrors.ruleWith (rule : Rule) (hpending : rule = .expression → s.pending = [])
    {P : List SyntaxTree → State → Nat → Prop}
    (h : Mirrors source [] sons work s b fun list _ trees t left => trees = list ∧ P list t left) :
    Mirrors source done (Parse.branch rule sons) (Work.branch rule work) s b fun tree _ trees t
      left =>
      trees = done ++ [tree] ∧ ∃ list, tree = .branch rule s.line list ∧ P list t left := by
  refine .branch hpending (.get_left (.map h ?_))
  rintro list _ _ t left ⟨rfl, hP⟩
  exact ⟨rfl, _, rfl, hP⟩

/-- A rule adds a branch; what its sons say about the state afterwards stays true. -/
theorem Mirrors.ruleAnd (rule : Rule) (hstrict : rule.isStrict = true)
    (hpending : rule = .expression → s.pending = []) {P : State → Prop}
    (h : Mirrors source [] sons work s b fun list _ trees t left =>
      Grows source SyntaxTree.leaves [] s list trees t left ∧ P t) :
    Mirrors source done (Parse.branch rule sons) (Work.branch rule work) s b fun tree _ trees t
      left =>
      Adds source done s tree trees t left ∧ P t := by
  refine (ruleWith rule hpending (P := fun list t left =>
    t.Calm source left ∧ Spans SyntaxTree.leaves list s t ∧ P t) (h.imp ?_)).imp ?_
  · rintro list _ _ t left ⟨⟨rfl, hcalm, hspans⟩, hP⟩
    exact ⟨rfl, hcalm, hspans, hP⟩
  · rintro _ _ _ t left ⟨rfl, list, rfl, hcalm, hspans, hP⟩
    exact ⟨⟨rfl, hcalm, hspans.branch hstrict⟩, hP⟩

/-- A rule adds a branch. -/
theorem Mirrors.rule (rule : Rule) (hstrict : rule.isStrict = true)
    (hpending : rule = .expression → s.pending = [])
    (h : Mirrors source [] sons work s b fun list _ trees t left =>
      Grows source SyntaxTree.leaves [] s list trees t left) :
    Mirrors source done (Parse.branch rule sons) (Work.branch rule work) s b fun tree _ trees t
      left =>
      Adds source done s tree trees t left :=
  (ruleAnd rule hstrict hpending (h.imp fun _ _ _ _ _ hgrows => ⟨hgrows, trivial⟩)).imp
    fun _ _ _ _ _ hadds => hadds.1

/-- A repetition, every round of which passes a word, does not reach its limit. -/
theorem Mirrors.many (view : SyntaxTree → List Leaf) (P : State → Prop) (n : Nat)
    {continues : Parse Bool} {continues' : Work Bool} {round : Parse (List SyntaxTree)}
    {round' : Work Unit} {found : State → Bool}
    (hfound : ∀ {s : State} {b : Nat} {done : List SyntaxTree}
      {post : Bool → Bool → List SyntaxTree → State → Nat → Prop},
      post (found s) (found s) done s b → Mirrors source done continues continues' s b post)
    (hround : ∀ {s : State} {b : Nat} {done : List SyntaxTree}, s.remaining.length ≤ n →
      s.Calm source b → P s → found s = true →
      Mirrors source done round round' s b fun list _ trees t left =>
        Grows source view done s list trees t left ∧ P t ∧
          t.remaining.length < s.remaining.length)
    (hlimit : s.remaining.length < min limit limit') (hn : s.remaining.length ≤ n)
    (hs : s.Calm source b) (hP : P s) :
    Mirrors source done (Parse.many continues round limit) (Work.many continues' round' limit') s b
      fun list _ trees t left => Grows source view done s list trees t left ∧ P t := by
  induction limit generalizing s b done limit' with
  | zero => omega
  | succ limit ih =>
    obtain ⟨limit', rfl⟩ : ∃ m, limit' = m + 1 := ⟨limit' - 1, by omega⟩
    refine .bind (hfound (.ite (fun htrue => ?_) fun hfalse => ?_))
    · refine (hround hn hs hP htrue).andThen ?_
      rintro list _ _ t left ⟨⟨rfl, ht, hspans⟩, htP, hlt⟩
      refine (ih (by omega) (by omega) ht htP).map ?_
      rintro list' _ _ u left' ⟨⟨rfl, hu, hspans'⟩, huP⟩
      exact ⟨⟨append_assoc _ _ _, hu, hspans.append hspans'⟩, huP⟩
    · exact .pure ⟨⟨(append_nil done).symm, hs, .nil⟩, hP⟩

/-- A list with commas between its elements, where the first one and the others may be seen
differently. What holds after an element holds at the next comma. -/
theorem Mirrors.separated (view : SyntaxTree → List Leaf) (P : State → Prop)
    {element : Parse SyntaxTree} {element' : Work Unit}
    (hcomma : ∀ line, view (.leaf (.word Kind.comma.text) line) = [⟨.word Kind.comma.text, true⟩])
    (hfirst : Mirrors source done element element' s b fun tree _ trees t left =>
      Adds source done s tree trees t left ∧ P t)
    (helement : ∀ {c t : State} {b b' : Nat} {done : List SyntaxTree}, c.Calm source b' →
      c.At .comma → P c → c.Step t → t.Steady c.scopes →
      t.remaining.length < s.remaining.length → t.Calm source b →
      Mirrors source done element element' t b fun tree _ trees u left =>
        trees = done ++ [tree] ∧ u.Calm source left ∧ Covers (view tree) t u ∧ P u)
    (hlimit : s.remaining.length < min limit limit') :
    Mirrors source done (Parse.separated limit element) (Work.separated limit' element') s b
      fun list _ trees t left => ∃ tree rest, list = tree :: rest ∧ trees = done ++ list ∧
        t.Calm source left ∧ (∃ u, Covers tree.leaves s u ∧ Spans view rest u t) ∧ P t := by
  refine hfirst.andThen ?_
  rintro tree _ _ t left ⟨⟨rfl, ht, hcovers⟩, htP⟩
  have hlength := hcovers.length
  refine (many view P s.remaining.length .at? ?_ (by omega) (by omega) ht htP).map ?_
  · intro s' b' done' hle hs' hsP hfound
    have hat := State.at_of_any hfound
    refine .bind (.kindLeaf ((hs'.readWord hat).andThen ?_))
    rintro _ _ _ t' left' ⟨rfl, ht', hstep, -, hsteady⟩
    have hlength' := hstep.length
    refine (helement hs' hat hsP hstep hsteady (by omega) ht').map ?_
    rintro tree' _ _ u left'' ⟨rfl, hu, hcovers', huP⟩
    have hshown : Covers (view (.leaf (.word Kind.comma.text) s'.line)) s' t' := by
      rw [hcomma]
      exact .leaf (hat.shownBy rfl) hstep
    have hlength'' := hcovers'.length
    exact ⟨⟨by simp, hu, .cons hshown (.cons hcovers' .nil)⟩, huP, by omega⟩
  · rintro rest _ _ u left' ⟨⟨rfl, hu, hspans⟩, huP⟩
    exact ⟨tree, rest, rfl, by simp, hu, ⟨t, hcovers, hspans⟩, huP⟩

/-- A list with commas between its elements. -/
theorem Mirrored.separated {depth : Nat} {element : Parse SyntaxTree} {element' : Work Unit}
    (h : Mirrored source depth element element') (hdepth : s.remaining.length < depth)
    (hlimit : depth ≤ min limit limit') (hs : s.Calm source b) :
    Mirrors source done (Parse.separated limit element) (Work.separated limit' element') s b
      fun list _ trees t left => Grows source SyntaxTree.leaves done s list trees t left := by
  refine (Mirrors.separated SyntaxTree.leaves (fun _ => True) (fun _ => rfl)
    ((h done hdepth hs).imp fun _ _ _ _ _ hadds => ⟨hadds, trivial⟩) ?_ (by omega)).imp ?_
  · intro c t b b' done _ _ _ _ _ hlt ht
    refine (h done (by omega) ht).imp ?_
    rintro tree _ _ u left ⟨rfl, hu, hcovers⟩
    exact ⟨rfl, hu, hcovers, trivial⟩
  · rintro _ _ _ t left ⟨tree, rest, rfl, rfl, ht, ⟨u, hcovers, hspans⟩, -⟩
    exact ⟨rfl, ht, .cons hcovers hspans⟩

/-! ### Variables -/

theorem State.shownBy_name (h : s.word = some ⟨.name, name⟩) :
    s.ShownBy (.name name) :=
  ⟨_, h, mem_cons_self⟩

theorem State.shownBy_number {number : String} (h : s.word = some ⟨.number, number⟩) :
    s.ShownBy (.number number) :=
  ⟨_, h, mem_cons_self⟩

theorem State.Step.remaining_eq {token : Token} (h : s.Step t) (hword : s.word = some token) :
    s.remaining = token.plain :: t.remaining := by
  obtain ⟨token', hword', hremaining⟩ := h
  obtain rfl : token = token' := Option.some.inj (hword.symm.trans hword')
  exact hremaining

/-- A square bracket is passed. -/
theorem State.Step.remaining_bracket {kind : Kind} (h : s.Step t) (hat : s.At kind)
    (hkind : kind = .leftBracket ∨ kind = .rightBracket) :
    s.remaining = ⟨kind, kind.text⟩ :: t.remaining := by
  obtain ⟨token, hword, rfl⟩ := hat
  rw [h.remaining_eq hword, Token.plain, if_pos hkind]

theorem State.Calm.mono {b' : Nat} (h : s.Calm source b) (hle : b ≤ b') : s.Calm source b' :=
  { h with credit := Nat.lt_of_lt_of_le h.credit hle }

/-- The words of a variable are passed. Reading them again will cost as much. Without an index, no
bracket follows. -/
theorem State.Calm.reference (hs : s.Calm source b) (hword : s.word = some ⟨.name, name⟩) :
    Mirrors source done Parse.reference Work.reference s b fun result index trees t left =>
      ∃ tree, result = (tree, index) ∧
        Adds source done s tree trees t (left - ((indexWords index).length + 1)) ∧
        t.Closed source ∧ s.remaining = ⟨.name, name⟩ :: indexWords index ++ t.remaining ∧
        (index = none → (t.word.any fun token => token.kind == .leftBracket) = false) := by
  have hcredit := hs.credit
  unfold Parse.reference Work.reference
  refine .branch nofun (.get_left (.bind (.look (meets_spelling.2 ?_))))
  rw [hword]
  refine .bind (.leaf (.bind (.look (meets_checkDeclared hs.scopeless ?_))))
  refine (hs.readWord ⟨_, hword, rfl⟩).andThen ?_
  rintro _ _ _ t left ⟨rfl, ht, hstep, hleft, -⟩
  have hlength := hstep.length
  have hremaining := hstep.remaining_eq hword
  refine .bind (.at? (.ite (fun hbracket => ?_) fun hbracket => ?_))
  · have hopening := State.at_of_any hbracket
    refine .bind (.kindLeaf ((ht.nextNumber hopening _).andThen ?_))
    rintro _ index _ u left' ⟨rfl, rfl, hu, hstep', hnumber, hleft', -⟩
    refine (hu.nextLeaf ⟨_, hnumber, rfl⟩ _ _).andThen ?_
    rintro _ _ _ v left'' ⟨rfl, rfl, hv, hstep'', hclosing, hleft'', -⟩
    refine (hv.readWord hclosing).andThen ?_
    rintro _ _ _ w rest ⟨rfl, hw, hlast, hrest, -⟩
    have hpassed : s.remaining = ⟨.name, name⟩ :: indexWords (some index) ++ w.remaining := by
      rw [hremaining, hstep'.remaining_bracket hopening (.inl rfl), hstep''.remaining_eq hnumber,
        hlast.remaining_bracket hclosing (.inr rfl)]
      rfl
    have htotal := congrArg List.length hpassed
    simp only [length_cons, length_append, indexWords, length_nil] at htotal
    refine .pure ⟨_, rfl, ⟨rfl, { hw with credit := ?_ }, ?_⟩,
      hlast.closed hclosing rfl hv.suffix hw, hpassed, by simp⟩
    · simp only [indexWords, length_cons, length_nil]
      omega
    · exact Spans.branch rfl (.leaf (State.shownBy_name hword) hstep
        (.leaf (hopening.shownBy rfl) hstep'
        (.leaf (State.shownBy_number hnumber) hstep'' (.leaf (hclosing.shownBy rfl) hlast .nil))))
  · refine .pure ⟨_, rfl, ⟨rfl, { ht with credit := ?_ }, ?_⟩,
      hstep.closed ⟨_, hword, rfl⟩ rfl hs.suffix ht, hremaining, fun _ => hbracket⟩
    · simp only [indexWords, length_nil]
      omega
    · exact Spans.branch rfl (.leaf (State.shownBy_name hword) hstep .nil)

/-- The state after the words that are pending. -/
def State.resume (state : State) (last : Option Token) : State :=
  { state with word := last, pending := [] }

/-- A variable was taken back, and the word that follows it is the last one that is pending. -/
structure State.Requeued (source : List TokenLine) (budget : Nat) (index : Option String)
    (last : Option Token) (state : State) : Prop where
  word : ∃ name, state.word = some ⟨.name, name⟩
  /-- The other words of the variable and the word after it are pending. -/
  pending : state.pending = (indexWords index).map some ++ [last]
  /-- A variable with an index is taken back as a whole. -/
  index_eq_none : index = none → (last.any fun token => token.kind == .leftBracket) = false
  suffix : state.remaining <:+ wordsOf source
  calm : (state.resume last).Calm source (budget - ((indexWords index).length + 1))
  closed : (state.resume last).Closed source

/-- At most four words are pending. -/
theorem State.Requeued.length_pending_le {last : Option Token}
    (h : s.Requeued source b index last) : s.pending.length ≤ 4 := by
  rw [h.pending]
  cases index with
  | none => exact Nat.le_of_ble_eq_true rfl
  | some index => exact Nat.le_refl 4

/-- A word that is pending is read again. -/
theorem Mirrors.readAgain {token : Token} {word : Option Token} {rest : List (Option Token)}
    {post : Unit → Unit → List SyntaxTree → State → Nat → Prop} (hword : s.word = some token)
    (hpending : s.pending = word :: rest) (hlength : rest.length ≤ 3)
    (hsuffix : s.remaining <:+ wordsOf source) (hb : 0 < b)
    (h : s.Step { s with word := word, pending := rest } →
      State.remaining { s with word := word, pending := rest } <:+ wordsOf source →
      post () () done { s with word := word, pending := rest } (b - 1)) :
    Mirrors source done Parse.readWord Work.readWord s b post := by
  have hremaining : s.remaining
      = token.plain :: State.remaining { s with word := word, pending := rest } := by
    cases word <;> simp [State.remaining, hword, hpending]
  have horderly : (Desk.Event.read s).Orderly (wordsOf source) :=
    ⟨by rw [hpending, length_cons]; omega, hsuffix⟩
  refine .readWord horderly hb ((meets_readWord_pending hpending).2 (h ⟨token, hword,
    hremaining⟩ ?_))
  exact (suffix_cons _ _).trans (hremaining ▸ hsuffix)

/-- A variable that was taken back is read again. -/
theorem State.Requeued.reference {last : Option Token} (hs : s.Requeued source b index last) :
    Mirrors source done Parse.reference Work.reference s b fun result _ trees t left =>
      Adds source done s result.1 trees t left ∧ t.Closed source := by
  have hcredit := hs.calm.credit
  obtain ⟨name, hword⟩ := hs.word
  have hpending := hs.pending
  have hcalm := hs.calm
  have hscopeless : s.scopes = [] → ParseFault.noScope.Fits source := hcalm.scopeless
  unfold Parse.reference Work.reference
  refine .branch nofun (.get_left (.bind (.look (meets_spelling.2 ?_))))
  rw [hword]
  refine .bind (.leaf (.bind (.look (meets_checkDeclared hscopeless (.bind ?_)))))
  cases index with
  | none =>
    refine .readAgain hword hpending (Nat.zero_le 3) hs.suffix (by omega) fun hstep _ => ?_
    refine .bind (.at? (.ite (fun hbracket => ?_) fun _ => .pure ⟨⟨rfl, hcalm, ?_⟩, hs.closed⟩))
    · exact absurd hbracket (by rw [hs.index_eq_none rfl]; exact Bool.false_ne_true)
    · exact Spans.branch rfl (.leaf (State.shownBy_name hword) hstep .nil)
  | some index =>
    simp only [indexWords, length_cons, length_nil] at hcredit hcalm
    refine .readAgain hword hpending (Nat.le_refl 3) hs.suffix (by omega) fun hstep hsuffix => ?_
    refine .bind (.at? (.bind (.kindLeaf (.bind ?_))))
    refine .bind (.readAgain rfl rfl (by simp) hsuffix (by omega) fun hstep' hsuffix' => ?_)
    refine .bind (.look (meets_expect fun token htoken _ => ?_))
    obtain rfl := Option.some.inj htoken
    refine .bind (.leaf (.pure (.bind ?_)))
    refine .bind (.readAgain rfl rfl (by simp) hsuffix' (by omega) fun hstep'' hsuffix'' => ?_)
    refine .bind (.look (meets_expect fun token htoken _ => ?_))
    obtain rfl := Option.some.inj htoken
    refine .kindLeaf (.bind ?_)
    refine .readAgain rfl rfl (by simp) hsuffix'' (by omega) fun hlast _ => ?_
    refine .pure ⟨⟨rfl, hcalm, ?_⟩, hs.closed⟩
    exact Spans.branch rfl (.leaf (State.shownBy_name hword) hstep
      (.leaf ⟨_, rfl, mem_cons_self⟩ hstep'
      (.leaf (State.shownBy_number rfl) hstep'' (.leaf ⟨_, rfl, mem_cons_self⟩ hlast .nil))))

/-- A variable is taken back. The tokens from it on are again those that are left. -/
theorem State.Calm.takeBack (hs : s.Calm source b)
    (ht : t.Calm source (left - ((indexWords index).length + 1))) (hclosed : t.Closed source)
    (hremaining : s.remaining = ⟨.name, name⟩ :: indexWords index ++ t.remaining)
    (hbracket : index = none → (t.word.any fun token => token.kind == .leftBracket) = false) :
    (t.takeBack ⟨.name, name⟩ (indexWords index)).Requeued source left index t.word ∧
      (t.takeBack ⟨.name, name⟩ (indexWords index)).remaining = s.remaining := by
  have hsame : (t.takeBack ⟨.name, name⟩ (indexWords index)).remaining = s.remaining := by
    rw [hremaining, State.remaining_eq ht.pending]
    simp only [State.takeBack, State.remaining, ht.pending, wordsOf]
    cases index <;> cases t.word <;> rfl
  have hresume : (t.takeBack ⟨.name, name⟩ (indexWords index)).resume t.word = t := by
    rw [State.resume, State.takeBack, ← ht.pending]
  refine ⟨⟨⟨name, rfl⟩, ?_, hbracket, hsame ▸ hs.suffix, hresume.symm ▸ ht,
    hresume.symm ▸ hclosed⟩, hsame⟩
  rw [State.takeBack, ht.pending, nil_append]

/-! ### Operands and operators -/

/-- No word is pending, or a variable was taken back. -/
def State.Primed (source : List TokenLine) (budget : Nat) (state : State) : Prop :=
  state.Calm source budget ∨ ∃ index last, state.Requeued source budget index last

/-- The action and the work add a tree, which may begin with a variable that was taken back. -/
def MirroredOperand (source : List TokenLine) (limit : Nat) (action : Parse SyntaxTree)
    (work : Work Unit) : Prop :=
  ∀ ⦃s : State⦄ ⦃b : Nat⦄ (done : List SyntaxTree), s.remaining.length < limit → s.Primed source b →
    Mirrors source done action work s b fun tree _ trees t left =>
      Adds source done s tree trees t left ∧ t.Closed source

section

variable {expression : Parse SyntaxTree} {expression' : Work Unit} {depth : Nat}
  (hexpression : Mirrored source depth expression expression') (hlimit : depth < min limit limit')

include hexpression hlimit

theorem mirrors_call (hdepth : s.remaining.length < depth + 1) (hs : s.Calm source b)
    (hat : s.At .kwCall) :
    Mirrors source done (call expression limit) (Work.call expression' limit') s b
      fun tree _ trees t left => Adds source done s tree trees t left ∧ t.Closed source := by
  refine .ruleAnd .call rfl nofun (.bind (.kindLeaf ?_))
  refine (hs.nextName hat _ _).andThen ?_
  rintro _ name _ t left ⟨rfl, rfl, ht, hstep, hname, -⟩
  refine .bind (.look (meets_checkDeclared ht.scopeless ?_))
  refine (ht.nextLeaf ⟨_, hname, rfl⟩ _ _).andThen ?_
  rintro _ _ _ u left ⟨rfl, rfl, hu, hstep', hopening, -⟩
  refine (hu.readWord hopening).andThen ?_
  rintro _ _ _ v left ⟨rfl, hv, hstep'', -⟩
  have hlength := hstep.length
  have hlength' := hstep'.length
  have hlength'' := hstep''.length
  have hspans : ∀ {line line' line'' : Nat} {rest : List SyntaxTree} {w : State},
      Spans SyntaxTree.leaves rest v w → Spans SyntaxTree.leaves
        (.leaf (.word Kind.kwCall.text) line :: .leaf (.name name) line' ::
          .leaf (.word Kind.leftParen.text) line'' :: rest) s w :=
    fun h => .leaf (hat.shownBy rfl) hstep (.leaf (State.shownBy_name hname) hstep'
      (.leaf (hopening.shownBy rfl) hstep'' h))
  refine .bind (.at? (.ite (fun hright => ?_) fun _ => ?_))
  · have hclosing := State.at_of_any hright
    refine .pure_left (.bind (.kindLeaf ((hv.readWord hclosing).map ?_)))
    rintro _ _ _ w left ⟨rfl, hw, hlast, -⟩
    exact ⟨⟨rfl, hw, hspans (.leaf (hclosing.shownBy rfl) hlast .nil)⟩,
      hlast.closed hclosing rfl hv.suffix hw⟩
  · refine (Mirrors.rule .arguments rfl nofun
      (hexpression.separated (by omega) (Nat.le_of_lt hlimit) hv)).andThen ?_
    rintro given _ _ w left ⟨rfl, hw, hgiven⟩
    refine .bind (.look (meets_expect fun token htoken hkind => ?_))
    have hclosing : w.At .rightParen := ⟨token, htoken, hkind⟩
    refine .pure_left (.bind (.kindLeaf ((hw.readWord hclosing).map ?_)))
    rintro _ _ _ r left ⟨rfl, hr, hlast, -⟩
    exact ⟨⟨rfl, hr, hspans (.cons hgiven (.leaf (hclosing.shownBy rfl) hlast .nil))⟩,
      hlast.closed hclosing rfl hw.suffix hr⟩

theorem mirroredOperand_factor :
    MirroredOperand source (depth + 1) (factor expression limit)
      (Work.factor expression' limit') := by
  intro s b done hdepth hs
  refine .ruleAnd .factor rfl nofun ?_
  rcases hs with hs | ⟨index, last, hs⟩
  · refine .bind (.at? (.ite (fun hparen => ?_) fun _ => ?_))
    · have hopening := State.at_of_any hparen
      refine .bind (.kindLeaf ((hs.readWord hopening).andThen ?_))
      rintro _ _ _ t left ⟨rfl, ht, hstep, -⟩
      have hlength := hstep.length
      refine (hexpression _ (by omega) ht).andThen ?_
      rintro inner _ _ u left ⟨rfl, hu, hinner⟩
      refine .bind (.expectLeaf fun hclosing => ?_)
      refine (hu.readWord hclosing).map ?_
      rintro _ _ _ v left ⟨rfl, hv, hlast, -⟩
      exact ⟨⟨rfl, hv, .leaf (hopening.shownBy rfl) hstep
        (.cons hinner (.leaf (hclosing.shownBy rfl) hlast .nil))⟩,
        hlast.closed hclosing rfl hu.suffix hv⟩
    refine .bind (.at? (.ite (fun hcall => ?_) fun _ => ?_))
    · refine (mirrors_call hexpression hlimit hdepth hs (State.at_of_any hcall)).map ?_
      rintro tree _ _ t left ⟨⟨rfl, ht, htree⟩, hclosed⟩
      exact ⟨⟨rfl, ht, .cons htree .nil⟩, hclosed⟩
    refine .bind (.at? (.ite (fun hname => ?_) fun _ => ?_))
    · obtain ⟨⟨kind, name⟩, hword, rfl⟩ := State.at_of_any hname
      refine (hs.reference hword).andThen ?_
      rintro _ index _ t left ⟨tree, rfl, ⟨rfl, ht, htree⟩, hclosed, -⟩
      exact .pure ⟨⟨rfl, ht.mono (Nat.sub_le _ _), .cons htree .nil⟩, hclosed⟩
    · refine .bind (.look (meets_expect fun token htoken hkind => .bind (.leaf ?_)))
      obtain ⟨kind, number⟩ := token
      subst hkind
      refine (hs.readWord ⟨_, htoken, rfl⟩).map ?_
      rintro _ _ _ t left ⟨rfl, ht, hstep, -⟩
      exact ⟨⟨rfl, ht, .leaf (State.shownBy_number htoken) hstep .nil⟩,
        hstep.closed ⟨_, htoken, rfl⟩ rfl hs.suffix ht⟩
  · -- a variable that was taken back begins with a name
    obtain ⟨name, hword⟩ := hs.word
    have hat : ∀ kind, (s.word.any fun token => token.kind == kind) = (Kind.name == kind) := by
      intro kind
      rw [hword]
      rfl
    refine .bind (.at? (.ite (fun hparen => ?_) fun _ => ?_))
    · exact absurd ((hat _).symm.trans hparen) (by decide)
    refine .bind (.at? (.ite (fun hcall => ?_) fun _ => ?_))
    · exact absurd ((hat _).symm.trans hcall) (by decide)
    refine .bind (.at? (.ite (fun _ => ?_) fun hname => ?_))
    · refine hs.reference.andThen ?_
      rintro ⟨tree, _⟩ index _ t left ⟨⟨rfl, ht, htree⟩, hclosed⟩
      exact .pure ⟨⟨rfl, ht, .cons htree .nil⟩, hclosed⟩
    · exact absurd ((hat _).symm.trans hname) (by decide)

omit hexpression hlimit in
/-- Operands with signs between them. In every round, the sign is passed and an operand is read. -/
theorem MirroredOperand.chain {operand : Parse SyntaxTree} {operand' : Work Unit}
    {n : Nat} (hoperand : MirroredOperand source n operand operand') {kinds : List Kind}
    {round : Parse (List SyntaxTree)} {round' : Work Unit}
    (hround : ∀ (s : State) (b : Nat) (done : List SyntaxTree),
      (s.word.any fun token => kinds.contains token.kind) = true → ∃ label, s.ShownBy label ∧
        ∀ {post : List SyntaxTree → Unit → List SyntaxTree → State → Nat → Prop},
          Mirrors source (done ++ [.leaf label s.line]) (do
            readWord
            let tree ← operand
            return [.leaf label s.line, tree]) (do
            Work.readWord
            operand') s b post →
          Mirrors source done round round' s b post)
    (hlimit : n ≤ min limit limit') (hn : s.remaining.length < n) (hs : s.Primed source b) :
    Mirrors source done (do
        let first ← operand
        let rest ← many (atAny? kinds) round limit
        return first :: rest) (do
        operand'
        Work.many (Work.atAny? kinds) round' limit') s b
      fun list _ trees t left =>
        Grows source SyntaxTree.leaves done s list trees t left ∧ t.Closed source := by
  refine (hoperand done hn hs).andThen ?_
  rintro first _ _ t left ⟨⟨rfl, ht, hfirst⟩, hclosed⟩
  have hlength := hfirst.length
  refine (Mirrors.many SyntaxTree.leaves (State.Closed source) t.remaining.length .atAny? ?_
    (by omega) (by omega) ht hclosed).map ?_
  · intro s' b' done' hle hs' _ hfound
    obtain ⟨kind, -, hat⟩ := State.at_of_contains hfound
    obtain ⟨label, hshown, hround⟩ := hround s' b' done' hfound
    refine hround ((hs'.readWord hat).andThen ?_)
    rintro _ _ _ u left' ⟨rfl, hu, hstep, -⟩
    have hlength' := hstep.length
    refine (hoperand _ (by omega) (.inl hu)).map ?_
    rintro tree _ _ v left'' ⟨⟨rfl, hv, htree⟩, hclosed⟩
    have hlength'' := htree.length
    exact ⟨⟨by simp, hv, .leaf hshown hstep (.cons htree .nil)⟩, hclosed, by omega⟩
  · rintro rest _ _ u left' ⟨⟨rfl, hu, hrest⟩, hclosed⟩
    exact ⟨⟨by simp, hu, .cons hfirst hrest⟩, hclosed⟩

theorem mirroredOperand_product :
    MirroredOperand source (depth + 1) (product expression limit)
      (Work.product expression' limit') := by
  intro s b done hdepth hs
  refine .ruleAnd .product rfl nofun ?_
  refine (mirroredOperand_factor hexpression hlimit).chain (fun s b done hfound => ?_) hlimit
    hdepth hs
  cases htimes : s.word.any fun token => token.kind == .times with
  | true =>
    have hat := State.at_of_any htimes
    refine ⟨_, hat.shownBy rfl, fun h => .bind (.at? ?_)⟩
    rw [htimes]
    exact .bind (.kindLeaf h)
  | false =>
    have hat : s.At .slash := by
      obtain ⟨kind, hkind, hat⟩ := State.at_of_contains hfound
      obtain rfl | rfl : kind = .times ∨ kind = .slash := by simpa using hkind
      · obtain ⟨token, hword, hkind⟩ := hat
        simp [hword, hkind] at htimes
      · exact hat
    refine ⟨_, hat.shownBy rfl, fun h => .bind (.at? ?_)⟩
    rw [htimes]
    exact .bind (.kindLeaf h)

theorem mirroredOperand_sum :
    MirroredOperand source (depth + 1) (sum expression limit)
      (Work.sum expression' limit') := by
  intro s b done hdepth hs
  refine .ruleAnd .sum rfl nofun ?_
  refine (mirroredOperand_product hexpression hlimit).chain (fun s b done hfound => ?_) hlimit
    hdepth hs
  obtain ⟨kind, hkind, hat⟩ := State.at_of_contains hfound
  refine ⟨_, hat.shownBy_ofText ?_, fun h => .bind (.spelledLeaf rfl h)⟩
  obtain rfl | rfl : kind = .plus ∨ kind = .minus := by simpa using hkind
  · rfl
  · rfl

/-- A condition that ends with the words of the list ends with an operand. -/
theorem mirrors_logical (hdepth : s.remaining.length < depth + 1) (hs : s.Primed source b) :
    Mirrors source done (logical expression limit) (Work.logical expression' limit') s b
      fun tree _ trees t left => Adds source done s tree trees t left := by
  refine .rule .logical rfl nofun ?_
  refine (mirroredOperand_sum hexpression hlimit _ hdepth hs).andThen ?_
  rintro first _ _ t left ⟨⟨rfl, ht, hfirst⟩, hclosed⟩
  have hlength := hfirst.length
  refine .word ?_
  cases hword : t.word with
  | none => exact .throw (hclosed hword)
  | some token =>
    refine .ite (fun hlogic => ?_) fun _ => .pure ⟨rfl, ht, .cons hfirst .nil⟩
    have hat : t.At token.kind := ⟨token, hword, rfl⟩
    refine .bind (.spelledLeaf rfl ((ht.readWord hat).andThen ?_))
    rintro _ _ _ u left ⟨rfl, hu, hstep, -⟩
    have hlength' := hstep.length
    refine (mirroredOperand_sum hexpression hlimit _ (by omega) (.inl hu)).map ?_
    rintro second _ _ v left ⟨⟨rfl, hv, hsecond⟩, -⟩
    refine ⟨rfl, hv, .cons hfirst (.leaf (hat.shownBy_ofText ?_) hstep (.cons hsecond .nil))⟩
    generalize token.kind = kind at hlogic
    cases kind <;> first | rfl | cases hlogic

theorem mirrored_assignment :
    Mirrored source (depth + 1) (assignment expression limit)
      (Work.assignment expression' limit') := by
  intro s b done hdepth hs
  refine .rule .expression rfl (fun _ => hs.pending) ?_
  refine .bind (.at? (.ite (fun hname => ?_) fun _ => ?_))
  · obtain ⟨⟨kind, name⟩, hword, rfl⟩ := State.at_of_any hname
    refine .bind (.look (meets_spelling.2 ?_))
    refine (hs.reference hword).andThen ?_
    rintro _ index _ t left ⟨target, rfl, ⟨rfl, ht, htarget⟩, hclosed, hremaining, hbracket⟩
    refine .bind (.at? (.ite (fun hassign => ?_) fun _ => ?_))
    · have hat := State.at_of_any hassign
      have hcalm := ht.mono (Nat.sub_le left ((indexWords index).length + 1))
      have hlength := htarget.length
      refine (hcalm.readWord hat).andThen ?_
      rintro _ _ _ u left ⟨rfl, hu, hstep, -⟩
      have hlength' := hstep.length
      refine .bind (.kindLeaf ?_)
      refine (mirrors_logical hexpression hlimit (by omega) (.inl hu)).map ?_
      rintro value _ _ v left ⟨rfl, hv, hvalue⟩
      exact ⟨rfl, hv, .cons htarget (.leaf (hat.shownBy rfl) hstep (.cons hvalue .nil))⟩
    · obtain ⟨hrequeued, hsame⟩ := hs.takeBack ht hclosed hremaining hbracket
      rw [hword]
      refine .bind (.takeBack ⟨hrequeued.length_pending_le, hrequeued.suffix⟩ (.cutOff ?_))
      refine (mirrors_logical hexpression hlimit (hsame ▸ hdepth)
        (.inr ⟨index, t.word, hrequeued⟩)).map ?_
      rintro value _ _ v left ⟨rfl, hv, hvalue⟩
      rw [Covers, hsame] at hvalue
      exact ⟨rfl, hv, .cons hvalue .nil⟩
  · refine (mirrors_logical hexpression hlimit hdepth (.inl hs)).map ?_
    rintro value _ _ t left ⟨rfl, ht, hvalue⟩
    exact ⟨rfl, ht, .cons hvalue .nil⟩

end

/-- **The two parsers agree on expressions**, and do not reach their bounds on the depth. -/
theorem mirrored_expression {depth : Nat} (hlimit : depth ≤ min limit limit') :
    Mirrored source depth (expression limit) (Work.expression limit') := by
  induction depth generalizing limit limit' with
  | zero => exact fun s b done hdepth => absurd hdepth (Nat.not_lt_zero _)
  | succ depth ih =>
    obtain ⟨limit, rfl⟩ : ∃ m, limit = m + 1 := ⟨limit - 1, by omega⟩
    obtain ⟨limit', rfl⟩ : ∃ m, limit' = m + 1 := ⟨limit' - 1, by omega⟩
    exact mirrored_assignment (ih (by omega)) (by omega)

end ScoreLang.Parse
