import ScoreLang.Proofs.Parse.Failure
import ScoreLang.Proofs.Parse.Needs

/-!
# The Parser Knows What Is Declared

The scopes of the parser hold no more than the vocabulary of a place (`Scopes.Within`): a
declaration enters its name into both, and what was entered between braces is gone after them. So
whatever the parser finds declared is declared.

There is one exception. The type of a parameter after a comma is not looked at, so that a brace may
stand in its place, and a brace opens or closes a scope wherever it stands. It is therefore assumed
that no brace stands directly after a comma (`Kind.mayPrecede`).
-/

namespace ScoreLang

open List

/-! ### Scopes and vocabularies -/

/-- What the scopes hold belongs to a vocabulary. -/
def Scopes.Within (scopes : Scopes) (v : Vocabulary) : Prop :=
  ∀ name, (scopes.find? name).isSome = true → name ∈ v.names

namespace Scopes

variable {scopes after : Scopes} {v w : Vocabulary} {name label : String} {category : Category}
  {size : Int}

/-- A name that is found after another one was entered is that one, or was found before. -/
theorem find?_put? (h : scopes.put? name category size label = some after) {other : String}
    (hfound : (after.find? other).isSome = true) :
    other = name ∨ (scopes.find? other).isSome = true := by
  obtain ⟨scope, outer, rfl, -, rfl⟩ := put?_cases h
  by_cases hinner : ((scope.insert name category size label).find? other).isSome = true
  · rw [Scope.isSome_find?_insert] at hinner
    refine hinner.imp_right fun hscope => ?_
    obtain ⟨entry, hentry⟩ := Option.isSome_iff_exists.1 hscope
    simp [find?, hentry]
  · refine .inr ?_
    have hold : scope.find? other = none := by
      by_contra hsome
      exact hinner ((Scope.isSome_find?_insert ..).2
        (.inr (Option.isSome_iff_ne_none.2 hsome)))
    rw [Option.not_isSome_iff_eq_none] at hinner
    simpa [find?, hinner, hold] using hfound

/-- A declared name is one of the vocabulary. -/
theorem Within.put? (hwithin : scopes.Within v)
    (h : scopes.put? name category size label = some after) (hname : name ∈ w.names)
    (hnames : v.names ⊆ w.names) : after.Within w := by
  intro other hother
  rcases find?_put? h hother with rfl | hother
  · exact hname
  · exact hnames (hwithin other hother)

/-- Braces bring no new names. -/
theorem Within.turns {word : Option Token} (h : scopes.Within v)
    (hturns : Parse.Turns word scopes after) : after.Within v := by
  cases hturns with
  | last | plain | opening => exact h
  | closing =>
    rename_i scope _ _
    intro name hname
    apply h name
    rw [find?]
    cases scope.find? name with
    | none => exact hname
    | some => rfl

end Scopes

namespace Vocabulary

/-- Declarators are declared one after the other. -/
theorem declareAll_append (v : Vocabulary) (first second : List Declarator) :
    v.declareAll (first ++ second) = (v.declareAll first).declareAll second :=
  foldl_append

theorem mem_names_declare (v : Vocabulary) (name : String) :
    name ∈ (v.declare name).names ∧ v.names ⊆ (v.declare name).names :=
  ⟨mem_cons_self, subset_cons_self _ _⟩

theorem mem_names_define (v : Vocabulary) (name : String) :
    name ∈ (v.define name).names ∧ v.names ⊆ (v.define name).names := by
  constructor
  · simp [names, define]
  · intro other hother
    simp only [names, define, mem_append, mem_cons] at hother ⊢
    exact hother.imp_right .inr

end Vocabulary

/-- The names in two lists of declarators. -/
theorem declaredOccurrences_append (v : Vocabulary) (first second : List Declarator) :
    declaredOccurrences v (first ++ second)
      = declaredOccurrences v first ++ declaredOccurrences (v.declareAll first) second := by
  induction first generalizing v with
  | nil => rfl
  | cons d first ih =>
    rw [cons_append, declaredOccurrences, declaredOccurrences, ih, append_assoc]
    rfl

/-- The names in two lists of functions. -/
theorem functionOccurrences_append (v : Vocabulary) (first second : List Function) :
    functionOccurrences v (first ++ second) = functionOccurrences v first ++
      functionOccurrences (first.foldl (fun v f => v.define f.name) v) second := by
  induction first generalizing v with
  | nil => rfl
  | cons f first ih =>
    rw [cons_append, functionOccurrences, functionOccurrences, ih, append_assoc]
    rfl

/-- A declarator needs the names that its initial values use. -/
theorem Declarator.needs_tree (d : Declarator) :
    d.tree.needs = d.uses.map fun use => .name use.name := by
  cases d with
  | plain | array => simp (disch := decide) [tree, uses, needs_phrase]
  | initial name value => simp (disch := decide) [tree, uses, needs_phrase, value.needs_tree]
  | filled name length values =>
    have hvalues : ∀ values : List (Expr .logical), Tree.needsAll ((values.map Expr.tree).flatMap
        fun tree => [word ",", tree]) = (values.flatMap Expr.uses).map fun use =>
        .name use.name := by
      intro values
      induction values with
      | nil => rfl
      | cons value values ih => simp [ih, value.needs_tree]
    cases values with
    | nil => simp (disch := decide) [tree, uses, needs_phrase, separatedBy]
    | cons value values =>
      simp (disch := decide) [tree, uses, needs_phrase, separatedBy, value.needs_tree, hvalues]

/-- If a list that was extended is that of some phrases, then so was the list before. -/
theorem exists_append_of_append_eq_map {α β : Type} {f : α → β} {done : List β} {last : β}
    {phrases : List α} (h : done ++ [last] = phrases.map f) :
    ∃ before phrase, phrases = before ++ [phrase] ∧ done = before.map f ∧ last = f phrase := by
  obtain ⟨before, rest, rfl, hbefore, hrest⟩ := append_eq_map_iff.1 h
  obtain ⟨phrase, rfl, hlast⟩ := map_eq_singleton_iff.1 hrest
  exact ⟨before, phrase, rfl, hbefore.symm, hlast.symm⟩

/-! ### Declarations -/

namespace Parse

variable {scopes : Scopes} {s s' : State} {tree : SyntaxTree} {limit : Nat} {v : Vocabulary}

/-- The initial values use declared names. -/
theorem supplied_initializer (hs : s.Steady scopes) (hat : s.At .assign)
    (h : Reads (initializer limit) s tree s') : Supplied scopes false tree := by
  simp only [initializer, reads_branch, reads_bind, reads_at?] at h
  obtain ⟨_, ⟨opening, t, hopening, _, u, hread, _, _, ⟨rfl, rfl⟩, h⟩, rfl⟩ := h
  obtain ⟨hleft, hopening, ht⟩ := needs_nextLeaf hopening
  obtain ⟨id, hu⟩ := (hs.readWord hat rfl hopening).leftBrace ht hread
  refine .branch rfl ?_
  split at h
  · simp only [reads_bind, reads_pure] at h
    obtain ⟨closing, _, hclosing, rfl, rfl⟩ := h
    simp [Supplied.bare hleft, Supplied.bare (needs_rightBrace hclosing)]
  · simp only [reads_bind, reads_pure] at h
    obtain ⟨values, x, hvalues, closing, _, hclosing, rfl, rfl⟩ := h
    have hvalues := ((serves_logical limit).separated hu hvalues).2
    simp only [cons_append, forall_mem_cons, forall_mem_append]
    exact ⟨.bare hleft, fun tree h => (hvalues tree h).of_empty,
      .bare (needs_rightBrace hclosing), forall_mem_nil _⟩

/-- The names in the initial values of a declarator are declared before it. -/
theorem supplied_declarator (hs : s.Steady scopes) (h : Reads (declarator limit) s tree s') :
    Supplied scopes false tree := by
  simp only [declarator, reads_branch, reads_bind, reads_expect, reads_leaf, reads_at?] at h
  obtain ⟨trees, ⟨token, _, ⟨hword, hkind, rfl⟩, _, _, ⟨rfl, rfl⟩, _, t, hread, _, _,
    ⟨rfl, rfl⟩, h⟩, rfl⟩ := h
  have ht := hs.readWord ⟨token, hword, hkind⟩ rfl hread
  have hname : Supplied scopes false (.leaf (.name token.spelling) s.line) := .bare (by simp)
  refine .branch rfl ?_
  split at h
  · rename_i hbracket
    simp only [reads_bind, reads_at?] at h
    obtain ⟨opening, _, hopening, number, u, hnumber, closing, w, hclosing, _, x, hafter, _, _,
      ⟨rfl, rfl⟩, h⟩ := h
    obtain ⟨hleft, rfl⟩ := needs_kindLeaf hopening
    obtain ⟨hdigits, hnumber, hu⟩ := needs_nextNumber hnumber
    obtain ⟨hright, hclosing, hw⟩ := needs_nextLeaf hclosing
    have hx := ((ht.readWord (State.at_of_any hbracket) rfl hnumber).readWord hu rfl
      hclosing).readWord hw rfl hafter
    split at h
    · rename_i hassign
      simp only [reads_bind, reads_pure] at h
      obtain ⟨sign, _, hsign, values, y, hvalues, _, _, ⟨rfl, rfl⟩, _, _, -, rfl, rfl⟩ := h
      obtain ⟨hbare, rfl⟩ := needs_kindLeaf hsign
      have hvalues := supplied_initializer hx (State.at_of_any hassign) hvalues
      simp [hname, Supplied.bare hleft, Supplied.bare hdigits, Supplied.bare hright,
        Supplied.bare hbare, hvalues]
    · simp only [reads_bind, reads_pure] at h
      obtain ⟨_, _, ⟨rfl, rfl⟩, _, _, -, rfl, rfl⟩ := h
      simp [hname, Supplied.bare hleft, Supplied.bare hdigits, Supplied.bare hright]
  · simp only [reads_bind, reads_at?] at h
    obtain ⟨_, _, ⟨rfl, rfl⟩, h⟩ := h
    split at h
    · rename_i hassign
      simp only [reads_bind, reads_pure] at h
      obtain ⟨sign, _, hsign, _, u, hread', value, w, hvalue, _, _, ⟨rfl, rfl⟩, _, _, -, rfl,
        rfl⟩ := h
      obtain ⟨hbare, rfl⟩ := needs_kindLeaf hsign
      have hu := ht.readWord (State.at_of_any hassign) rfl hread'
      simp [hname, Supplied.bare hbare, (serves_logical limit hu hvalue).2]
    · simp only [reads_bind, reads_pure] at h
      obtain ⟨_, _, ⟨rfl, rfl⟩, _, _, -, rfl, rfl⟩ := h
      simp [hname]

/-- The scopes after some declarators, given by their trees: the innermost one was there before and
holds the names, and the vocabulary has been extended alike. -/
structure Declares (v : Vocabulary) (done : List (Tree Label)) (scopes : Scopes) : Prop where
  holds : scopes.Holds (done.filterMap Tree.declared?)
  within : ∀ ds : List Declarator, done = ds.map Declarator.tree → scopes.Within (v.declareAll ds)
  declared : ∀ ds : List Declarator, done = ds.map Declarator.tree →
    ∀ o ∈ declaredOccurrences v ds, o.use.name ∈ o.known.names

theorem Declares.nil {scope : Scope} {outer : Scopes} (hwithin : Scopes.Within (scope :: outer) v) :
    Declares v [] (scope :: outer) := by
  refine ⟨⟨nodup_nil, scope, outer, rfl, by simp⟩, ?_, ?_⟩
  · intro ds hds
    obtain rfl := map_eq_nil_iff.1 hds.symm
    exact hwithin
  · intro ds hds
    obtain rfl := map_eq_nil_iff.1 hds.symm
    exact forall_mem_nil _

/-- **One more declarator.** -/
theorem Declares.step {after : Scopes} {done : List (Tree Label)} {name : String}
    {category : Category} (h : Declares v done scopes) (hs : s.Steady scopes)
    (hread : Reads (declarator limit) s tree s') (hname : tree.shape.declared? = some name)
    (hput : scopes.put? name category 0 "" = some after) :
    Declares v (done ++ [tree.shape]) after := by
  refine ⟨?_, ?_, ?_⟩
  · simpa [hname] using h.holds.put? hput
  · intro ds hds
    obtain ⟨before, d, rfl, hbefore, hd⟩ := exists_append_of_append_eq_map hds
    obtain rfl : d.name = name := by simpa [hd] using hname
    rw [Vocabulary.declareAll_append]
    have hnames := (v.declareAll before).mem_names_declare d.name
    exact (h.within before hbefore).put? hput hnames.1 hnames.2
  · intro ds hds o ho
    obtain ⟨before, d, rfl, hbefore, hd⟩ := exists_append_of_append_eq_map hds
    rw [declaredOccurrences_append, mem_append] at ho
    rcases ho with ho | ho
    · exact h.declared before hbefore o ho
    · simp only [declaredOccurrences, append_nil, mem_map] at ho
      obtain ⟨use, huse, rfl⟩ := ho
      have hneed : .name use.name ∈ tree.shape.needs := by
        rw [hd, d.needs_tree]
        exact mem_map.2 ⟨use, huse, rfl⟩
      exact h.within before hbefore _ (supplied_declarator hs hread _ hneed)

/-- **Bodies.** What is known in the body is what was known before it and what it declares, and
nothing of that is left after it. -/
theorem reads_body_named {scope : Scope} {outer : Scopes} {body : Body} (hpending : s.pending = [])
    (hscopes : s.scopes = scope :: outer) (hwithin : s.scopes.Within v)
    (h : Reads (Parse.body limit) s tree s') (hshape : tree.shape = body.tree) :
    s'.Steady outer ∧ body.Tidy ∧ ∀ o ∈ body.occurrences v, o.use.name ∈ o.known.names := by
  have hsteady := reads_body_steady hpending hscopes h
  simp only [Parse.body, reads_branch, reads_bind, reads_pure] at h
  obtain ⟨_, ⟨opening, _, hopening, _, t, hread, names, u, hnames, steps, w, hsteps, closing, _,
    hclosing, rfl, rfl⟩, rfl⟩ := h
  obtain ⟨-, rfl⟩ := reads_kindLeaf hopening
  simp only [SyntaxTree.shape_branch, map_cons, Body.tree, phrase, Tree.node.injEq,
    List.cons.injEq, true_and] at hshape
  obtain ⟨-, hnamesShape, hstepsShape, -⟩ := hshape
  have ht := State.Steady.of_readWord hpending hread
  rw [hscopes] at ht hwithin
  obtain ⟨after, hu, hafter⟩ := reads_declarations_induct (P := Declares v)
    (fun hdone hs hread hname hput => hdone.step hs hread hname hput) ht (.nil hwithin) hnames
  rw [hnamesShape, declaratorTrees_declarationsTree] at hafter
  obtain ⟨-, hsteps⟩ := serves_statements (serves_statement limit) limit hu hsteps
  have hneeds : ∀ need ∈ Tree.needsAll body.steps.sons, need.Met after false := by
    intro need hneed
    apply hsteps need
    rw [hstepsShape, ← phrase, needs_phrase rfl]
    exact hneed
  obtain ⟨hnodup, -⟩ := hafter.holds
  rw [filterMap_declared?_tree] at hnodup
  refine ⟨hsteady, ⟨hnodup, ?_⟩, ?_⟩
  · refine body.steps.guarded_inside fun hloop => ?_
    cases hneeds _ hloop
  · intro o ho
    rcases mem_append.1 ho with ho | ho
    · exact hafter.declared _ rfl o ho
    · obtain ⟨use, huse, rfl⟩ := mem_map.1 ho
      exact hafter.within _ rfl _
        (hneeds (.name use.name) (body.steps.name_mem_needsAll.2 ⟨use, huse, rfl⟩))

end Parse

/-! ### Functions -/

/-- Whether a word may stand directly before another one: a comma does not stand before a brace. -/
def Kind.mayPrecede (first second : Kind) : Bool := first != .comma || !second.isBrace

/-- The name of a parameter. -/
def Tree.parameter? : Tree Label → Option String
  | .node (.rule .parameter) (_ :: .node (.name name) _ :: _) => some name
  | _ => none

@[simp] theorem parameter?_word (text : String) : (word text).parameter? = none := rfl

@[simp] theorem parameter?_parameterTree (name : String) :
    (parameterTree name).parameter? = some name := rfl

/-- The parameters of a list, from their trees. -/
theorem filterMap_parameter?_separatedBy (names : List String) :
    (separatedBy "," (names.map parameterTree)).filterMap Tree.parameter? = names := by
  have hrest : ∀ names : List String, ((names.map parameterTree).flatMap fun tree =>
      [word ",", tree]).filterMap Tree.parameter? = names := by
    intro names
    induction names with
    | nil => rfl
    | cons name names ih => simp [filterMap_cons, ih]
  cases names with
  | nil => rfl
  | cons name names => simp [separatedBy, hrest]

namespace Parse

variable {source : List TokenLine} {limit : Nat} {s s' : State} {tree : SyntaxTree} {v : Vocabulary}
  {scope : Scope} {outer : Scopes}

/-- The scopes at a word that is not a brace. -/
theorem State.Steady.eq_of_not_brace {scopes : Scopes} (hs : s.Steady scopes)
    (h : ∀ kind, s.At kind → kind.isBrace = false) : s.scopes = scopes := by
  have hturns := hs.turns
  cases hword : s.word with
  | none =>
    rw [hword] at hturns
    cases hturns
    rfl
  | some token => exact hs.scopes_eq ⟨token, hword, rfl⟩ (h _ ⟨token, hword, rfl⟩)

/-- The parser is between two rules. -/
def State.Rested (source : List TokenLine) (state : State) : Prop := ∃ b, state.Calm source b

theorem State.Calm.rested {b : Nat} (h : s.Calm source b) : s.Rested source := ⟨b, h⟩

namespace State.Rested

theorem pending (h : s.Rested source) : s.pending = [] := h.choose_spec.pending

theorem suffix (h : s.Rested source) : s.remaining <:+ wordsOf source := h.choose_spec.suffix

theorem length_lt (h : s.Rested source) (hlimit : (wordsOf source).length < limit) :
    s.remaining.length < limit :=
  Nat.lt_of_le_of_lt h.suffix.length_le hlimit

theorem withScopes (h : s.Rested source) {scopes : Scopes} (hscopes : scopes ≠ []) (count : Nat) :
    State.Rested source { s with scopes := scopes, scopeCount := count } :=
  ⟨_, h.choose_spec.withScopes hscopes count⟩

/-- A word is read from the list. -/
theorem readWord (h : s.Rested source) {u : Unit} (hread : Reads Parse.readWord s u s') :
    s'.Rested source ∧ s.remaining = (s.word.map Token.plain).toList ++ s'.remaining := by
  obtain ⟨b, h⟩ := h
  obtain ⟨hsteady, hlast, hremaining, hlines⟩ := h.meets_readWord.of_reads hread
  have hsuffix := (suffix_append _ _).trans (hremaining ▸ h.suffix)
  refine ⟨⟨_, hsteady.pending, hlast, hsuffix, hlines, Nat.lt_succ_self _, fun hnil => ?_⟩,
    hremaining⟩
  exact h.scopeless (by_contra fun hscopes => hsteady.turns.ne_nil hscopes hnil)

/-- No brace stands behind a comma. -/
theorem not_brace (hs : s.Rested source)
    (hwords : (TokenLine.kinds source).IsChain fun first second => first.mayPrecede second = true)
    (hat : s.At .comma) {u : Unit} (hread : Reads Parse.readWord s u s') {kind : Kind}
    (hkind : s'.At kind) : kind.isBrace = false := by
  obtain ⟨hs', hremaining⟩ := hs.readWord hread
  rw [State.remaining_eq hs'.pending] at hremaining
  obtain ⟨comma, hcomma, hcommaKind⟩ := hat
  obtain ⟨token, hword, rfl⟩ := hkind
  have hsuffix := hs.suffix.map Token.kind
  rw [TokenLine.map_kind_wordsOf, hremaining, hcomma, hword] at hsuffix
  have hchain := hwords.suffix hsuffix
  simp only [Option.map_some, Option.toList_some, cons_append, nil_append, map_cons,
    Token.kind_plain, isChain_cons_cons, hcommaKind] at hchain
  simpa [Kind.mayPrecede] using hchain.1

end State.Rested

/-- What is known of the parser on its own. -/
theorem Mirrors.of_reads {α β : Type} {a : Parse α} {work : Work β} {b : Nat} {x : α}
    {post : α → β → List SyntaxTree → State → Nat → Prop} (h : Mirrors source [] a work s b post)
    (hreads : Reads a s x s') : ∃ y trees left, post x y trees s' left := by
  have hagrees := h (.ofRoot (.rule .program)) [] (Workbench.open_ofRoot (.rule .program))
  have hrun : a.run s = .ok (x, s') := hreads
  rw [hrun] at hagrees
  obtain ⟨y, trees, _, left, -, -, hpost⟩ := hagrees
  exact ⟨y, trees, left, hpost⟩

/-- A parameter is declared. -/
theorem reads_parameter_put? (hpending : s.pending = []) (h : Reads parameter s tree s') :
    ∃ name after, tree.shape.parameter? = some name ∧
      s.scopes.put? name .variable 0 "" = some after ∧ s'.Steady after := by
  simp only [parameter, nextName, reads_branch, reads_bind, reads_pure, reads_expect,
    reads_leaf] at h
  obtain ⟨_, ⟨keyword, _, hkeyword, _, _, ⟨_, t, hname, token, _, ⟨hword, hkind, rfl⟩, _, _,
    ⟨rfl, rfl⟩, rfl, rfl⟩, _, u, hdeclare, _, _, hread, rfl, rfl⟩, rfl⟩ := h
  obtain ⟨-, rfl⟩ := reads_kindLeaf hkeyword
  have ht := State.Steady.of_readWord hpending hname
  obtain ⟨after, hput, rfl⟩ := reads_declare hdeclare
  rw [ht.scopes_eq ⟨token, hword, hkind⟩ rfl] at hput
  have hkept : ({ t with scopes := after } : State).pending = [] := ht.pending
  exact ⟨token.spelling, after, by simp [phrase, Tree.parameter?], hput, .of_readWord hkept hread⟩

/-- Some parameters have been entered into the innermost scope. -/
def State.Takes (source : List TokenLine) (v : Vocabulary) (outer : Scopes) (names : List String)
    (state : State) : Prop :=
  state.Rested source ∧ ∃ scope, state.Steady (scope :: outer) ∧
    Scopes.Within (scope :: outer) ⟨names ++ v.vars, v.functions⟩

/-- **One more parameter.** The word before its name is not a brace. -/
theorem State.Takes.parameter {names : List String} (hs : s.Takes source v outer names)
    (hbrace : ∀ kind, s.At kind → kind.isBrace = false) (h : Reads Parse.parameter s tree s') :
    s'.Takes source v outer (names ++ [tree.shape].filterMap Tree.parameter?) := by
  obtain ⟨⟨b, hcalm⟩, scope, hs, hwithin⟩ := hs
  obtain ⟨_, _, _, -, hcalm', -⟩ := (mirrors_parameter hcalm).of_reads h
  obtain ⟨name, after, hname, hput, hafter⟩ := reads_parameter_put? hs.pending h
  rw [hs.eq_of_not_brace hbrace] at hput
  obtain ⟨_, _, hcons, -, rfl⟩ := Scopes.put?_cases hput
  obtain ⟨rfl, rfl⟩ := List.cons.inj hcons
  refine ⟨hcalm'.rested, _, hafter, hwithin.put? hput ?_ ?_⟩
  · simp [Vocabulary.names, hname]
  · intro other hother
    simp only [Vocabulary.names, mem_append] at hother ⊢
    tauto

variable (hwords : (TokenLine.kinds source).IsChain
  fun first second => first.mayPrecede second = true)

include hwords

/-- The scope of the parameters. -/
theorem State.Takes.parameters (hs : s.Takes source v outer [])
    (h : Reads (Parse.parameters limit) s tree s') :
    s'.Takes source v outer (tree.shape.sons.filterMap Tree.parameter?) := by
  simp only [Parse.parameters, reads_branch, reads_bind, reads_at?] at h
  obtain ⟨trees, ⟨_, _, ⟨rfl, rfl⟩, h⟩, rfl⟩ := h
  rw [SyntaxTree.shape_branch]
  split at h
  · simp only [reads_pure] at h
    obtain ⟨rfl, rfl⟩ := h
    exact hs
  simp only [separated, reads_bind, reads_expect, reads_pure] at h
  obtain ⟨token, _, ⟨hword, hkind, rfl⟩, first, t, hfirst, rest, _, hrest, rfl, rfl⟩ := h
  have hint : ∀ kind, s.At kind → kind.isBrace = false := by
    rintro _ ⟨other, hother, rfl⟩
    obtain rfl := Option.some.inj (hword.symm.trans hother)
    rw [hkind]
    rfl
  refine (reads_many (fun trees state => state.Takes source v outer
    ((trees.map SyntaxTree.shape).filterMap Tree.parameter?)) (fun _ => True) ?_ ?_ [first]
    (hs.parameter hint hfirst) hrest).1
  · intro done s t hs hfound trees u hround
    obtain ⟨hcomma, rfl⟩ := reads_at?.1 hfound
    have hat := State.at_of_any hcomma.symm
    simp only [reads_bind, reads_pure] at hround
    obtain ⟨comma, _, hleaf, _, x, hread, tree, _, htree, rfl, rfl⟩ := hround
    obtain ⟨hshape, rfl⟩ := reads_kindLeaf hleaf
    obtain ⟨hrested, scope, hs, hwithin⟩ := hs
    have hx : x.Takes source v outer ((done.map SyntaxTree.shape).filterMap Tree.parameter?) :=
      ⟨(hrested.readWord hread).1, scope, hs.readWord hat rfl hread, hwithin⟩
    have hnext := hx.parameter (fun _ hkind => hrested.not_brace hwords hat hread hkind) htree
    simpa [hshape, filterMap_cons] using hnext
  · intro done s t hs hfound
    exact ⟨(reads_at?.1 hfound).2 ▸ hs, trivial⟩

/-- **Functions.** The name of a function is known in its body. -/
theorem reads_function_named {f : Function} (hrested : s.Rested source)
    (hwithin : s.scopes.Within v) (h : Reads (function limit) s tree s')
    (hshape : tree.shape = f.tree) :
    s'.Settled (fun scopes => scopes ≠ [] ∧ scopes.Within (v.define f.name)) ∧ f.body.Tidy ∧
      ∀ o ∈ f.body.occurrences (v.enter f), o.use.name ∈ o.known.names := by
  simp only [function, nextName, reads_branch, reads_bind, reads_pure, reads_modify, reads_expect,
    reads_leaf, reads_leaveScope] at h
  obtain ⟨_, ⟨keyword, _, hkeyword, _, _, ⟨_, t, hname, token, _, ⟨hword, hkind, rfl⟩, _, _,
    ⟨rfl, rfl⟩, rfl, rfl⟩, _, u, hdeclare, opening, w, hopening, _, _, rfl, _, x, hread, given, y,
    hgiven, closing, _, hclosing, _, z, hread', brace, _, ⟨hbrace, hleft, rfl⟩, steps, a,
      hsteps, _, _,
    ⟨-, rfl⟩, rfl, rfl⟩, rfl⟩ := h
  obtain ⟨-, rfl⟩ := reads_spelledLeaf hkeyword
  simp only [SyntaxTree.shape_branch, map_cons, Function.tree, phrase, Tree.node.injEq,
    List.cons.injEq, true_and, SyntaxTree.shape_leaf, nameLeaf, Label.name.injEq] at hshape
  obtain ⟨-, ⟨hown, -⟩, -, hgivenShape, -, hstepsShape, -⟩ := hshape
  -- the name is entered into the global scope
  have ht := State.Steady.of_readWord hrested.pending hname
  obtain ⟨globals, hput, rfl⟩ := reads_declare hdeclare
  rw [ht.scopes_eq ⟨token, hword, hkind⟩ rfl, hown] at hput
  have hglobals : globals ≠ [] := by
    obtain ⟨_, _, -, -, rfl⟩ := Scopes.put?_cases hput
    exact cons_ne_nil _ _
  have hnames := v.mem_names_define f.name
  have hdefined : globals.Within (v.define f.name) := hwithin.put? hput hnames.1 hnames.2
  -- the parameters are entered into a scope of their own
  have hu := (hrested.readWord hname).1.withScopes hglobals t.scopeCount
  obtain ⟨hopening, hleftParen⟩ := reads_nextLeaf_word hopening
  have hwRested := (hu.readWord hopening).1
  have hw : w.scopes = globals :=
    (State.Steady.of_readWord hu.pending hopening).scopes_eq hleftParen rfl
  have hopen := hwRested.withScopes (cons_ne_nil (.empty w.scopeCount false 0) w.scopes)
    (w.scopeCount + 1)
  have hx := State.Steady.of_readWord hopen.pending hread
  simp only [hw] at hx
  have htakes : x.Takes source (v.define f.name) globals [] :=
    ⟨(hopen.readWord hread).1, _, hx, hdefined⟩
  obtain ⟨-, scope, hy, hparameters⟩ := htakes.parameters hwords hgiven
  rw [hgivenShape, Tree.sons, filterMap_parameter?_separatedBy] at hparameters
  -- the body has a scope inside that one
  obtain ⟨hright, rfl⟩ := reads_expectLeaf_at hclosing
  have hz := hy.readWord hright rfl hread'
  have hturns := hz.turns
  rw [hbrace] at hturns
  obtain ⟨id, hbody⟩ := hturns.leftBrace hleft
  obtain ⟨ha, htidy, hdeclared⟩ :=
    reads_body_named hz.pending hbody (hparameters.turns hturns) hsteps hstepsShape
  refine ⟨⟨ha.pending, fun hat hkind => ?_⟩, htidy, hdeclared⟩
  have hlast : a.scopes = scope :: globals := ha.scopes_eq hat hkind
  simp only [hlast, tail_cons]
  exact ⟨hglobals, hdefined⟩

/-- The state after some functions, given by their trees. -/
structure State.Defines (source : List TokenLine) (v : Vocabulary) (done : List (Tree Label))
    (state : State) : Prop where
  between : ∃ b, state.Between source b
  settled : state.Settled fun scopes => ∀ fs : List Function, done = fs.map Function.tree →
    scopes ≠ [] ∧ scopes.Within (fs.foldl (fun v f => v.define f.name) v)
  tidy : ∀ fs : List Function, done = fs.map Function.tree → ∀ f ∈ fs, f.body.Tidy
  declared : ∀ fs : List Function, done = fs.map Function.tree →
    ∀ o ∈ functionOccurrences v fs, o.use.name ∈ o.known.names

/-- **One more function.** -/
theorem State.Defines.step {done : List (Tree Label)} (hs : s.Defines source v done)
    (hat : s.At .kwFunction) (hlimit : (wordsOf source).length < limit)
    (h : Reads (function limit) s tree s') : s'.Defines source v (done ++ [tree.shape]) := by
  obtain ⟨b, hbetween⟩ := hs.between
  have hcalm := hbetween.calm (hat.ne (by decide))
  obtain ⟨_, _, _, -, hbetween', -⟩ :=
    (mirrors_function (Nat.le_of_eq (Nat.min_self limit).symm) hcalm
    hat (hcalm.rested.length_lt hlimit)).of_reads h
  have hlast : ∀ fs : List Function, done ++ [tree.shape] = fs.map Function.tree →
      ∃ before f, fs = before ++ [f] ∧ done = before.map Function.tree ∧
        s'.Settled (fun scopes => scopes ≠ [] ∧
          scopes.Within ((before.foldl (fun v f => v.define f.name) v).define f.name)) ∧
        f.body.Tidy ∧ ∀ o ∈ f.body.occurrences
          ((before.foldl (fun v f => v.define f.name) v).enter f), o.use.name ∈ o.known.names := by
    intro fs hfs
    obtain ⟨before, f, rfl, hbefore, hf⟩ := exists_append_of_append_eq_map hfs
    obtain ⟨-, hwithin⟩ := hs.settled.holds hat rfl before hbefore
    exact ⟨before, f, rfl, hbefore, reads_function_named hwords hcalm.rested hwithin h hf⟩
  refine ⟨⟨_, hbetween'⟩, ⟨hbetween'.pending, ?_⟩, ?_, ?_⟩
  · intro kind hkind hbrace fs hfs
    obtain ⟨before, f, rfl, -, hsettled, -⟩ := hlast fs hfs
    rw [foldl_append]
    exact hsettled.holds hkind hbrace
  · intro fs hfs f hf
    obtain ⟨before, last, rfl, hbefore, -, htidy, -⟩ := hlast fs hfs
    rcases mem_append.1 hf with hf | hf
    · exact hs.tidy before hbefore f hf
    · exact mem_singleton.1 hf ▸ htidy
  · intro fs hfs o ho
    obtain ⟨before, f, rfl, hbefore, -, -, hdeclared⟩ := hlast fs hfs
    rw [functionOccurrences_append, mem_append] at ho
    rcases ho with ho | ho
    · exact hs.declared before hbefore o ho
    · exact hdeclared o (by simpa [functionOccurrences] using ho)

/-- The functions of a program, one after the other. -/
theorem State.Defines.many {trees : List SyntaxTree} {count : Nat} (hs : s.Defines source v [])
    (hlimit : (wordsOf source).length < limit)
    (h : Reads (Parse.many (at? .kwFunction) (do return [← function limit]) count) s trees s') :
    s'.Defines source v (trees.map SyntaxTree.shape) := by
  refine (reads_many (fun done state => state.Defines source v (done.map SyntaxTree.shape))
    (fun _ => True) ?_ ?_ [] hs h).1
  · intro done s t hs hfound trees u hround
    obtain ⟨hfunction, rfl⟩ := reads_at?.1 hfound
    simp only [reads_bind, reads_pure] at hround
    obtain ⟨tree, _, htree, rfl, rfl⟩ := hround
    rw [map_append]
    exact hs.step hwords (State.at_of_any hfunction.symm) hlimit htree
  · intro done s t hs hfound
    exact ⟨(reads_at?.1 hfound).2 ▸ hs, trivial⟩

/-! ### Programs -/

omit hwords

/-- The names of the main function have been declared. -/
theorem reads_mainFunction_named {program : Program} (hpending : s.pending = [])
    (hscopes : s.scopes ≠ []) (hwithin : s.scopes.Within v)
    (h : Reads (mainFunction limit) s tree s') (hshape : tree.shape = program.mainTree) :
    program.body.Tidy ∧ ∀ o ∈ program.body.occurrences v, o.use.name ∈ o.known.names := by
  simp only [mainFunction, reads_branch, reads_bind, reads_pure] at h
  obtain ⟨_, ⟨keyword, _, hkeyword, opening, t, hopening, closing, u, hclosing, _, w, hread,
    steps, _, hsteps, rfl, rfl⟩, rfl⟩ := h
  obtain ⟨-, rfl⟩ := reads_spelledLeaf hkeyword
  simp only [SyntaxTree.shape_branch, map_cons, Program.mainTree, phrase, Tree.node.injEq,
    List.cons.injEq, true_and] at hshape
  obtain ⟨-, -, -, hstepsShape, -⟩ := hshape
  obtain ⟨hopening, ht⟩ := reads_nextLeaf_word hopening
  obtain ⟨hclosing, hu⟩ := reads_nextLeaf_word hclosing
  have hw := ((State.Steady.of_readWord hpending hopening).readWord ht rfl hclosing).readWord hu rfl
    hread
  -- the word before the body is not looked at
  obtain ⟨scope, outer, hcons⟩ := exists_cons_of_ne_nil (hw.turns.ne_nil hscopes)
  exact (reads_body_named hw.pending hcons (hwithin.turns hw.turns) hsteps hstepsShape).2

/-- No function has been read. -/
theorem State.Defines.nil (hrested : s.Rested source)
    (hs : s.Settled fun scopes => scopes ≠ [] ∧ scopes.Within v) : s.Defines source v [] := by
  have hnil : ∀ fs : List Function, [] = fs.map Function.tree → fs = [] :=
    fun fs hfs => map_eq_nil_iff.1 hfs.symm
  obtain ⟨b, hcalm⟩ := hrested
  refine ⟨⟨b, hcalm.pending, fun _ => hcalm⟩, ⟨hs.pending, ?_⟩, ?_, ?_⟩
  · intro kind hkind hbrace fs hfs
    rw [hnil fs hfs]
    exact hs.holds hkind hbrace
  · intro fs hfs
    rw [hnil fs hfs]
    exact forall_mem_nil _
  · intro fs hfs
    rw [hnil fs hfs]
    exact forall_mem_nil _

/-- The functions and the main function, after the global declarations. -/
theorem Declares.named {p : Program} {scopes : Scopes} {functions : List SyntaxTree}
    {last : SyntaxTree} {t u : State}
    (hwords : (TokenLine.kinds source).IsChain fun first second => first.mayPrecede second = true)
    (hglobals : Declares ⟨[], []⟩ ((declarators p.globals).map Declarator.tree) scopes)
    (hs : s.Steady scopes) (hrested : s.Rested source) (hlimit : (wordsOf source).length < limit)
    (hfunctions : Reads (many (at? .kwFunction) (do return [← function limit]) limit) s functions t)
    (hat : t.At .kwMain) (hlast : Reads (mainFunction limit) t last u)
    (hfunctionShapes : functions.map SyntaxTree.shape = p.functions.map Function.tree)
    (hlastShape : last.shape = p.mainTree) : p.Named := by
  obtain ⟨hnodup, scope, outer, hcons, -⟩ := hglobals.holds
  rw [filterMap_declared?_tree] at hnodup
  have hstart : s.Defines source p.globalVocabulary [] := by
    refine .nil hrested ⟨hs.pending, fun hkind hbrace => ?_⟩
    rw [hs.scopes_eq hkind hbrace]
    exact ⟨hcons ▸ cons_ne_nil _ _, hglobals.within _ rfl⟩
  have ht := hstart.many hwords hlimit hfunctions
  obtain ⟨hscopes, hwithin⟩ := ht.settled.holds hat rfl _ hfunctionShapes
  obtain ⟨htidy, hdeclared⟩ :=
    reads_mainFunction_named ht.settled.pending hscopes hwithin hlast hlastShape
  refine ⟨?_, hnodup, ht.tidy _ hfunctionShapes, htidy⟩
  rw [Program.occurrences, forall_mem_append, forall_mem_append]
  exact ⟨⟨hglobals.declared _ rfl, ht.declared _ hfunctionShapes⟩, hdeclared⟩

end Parse

/-- Whether a tree is that of declarations. -/
def Tree.isDeclarations : Tree Label → Bool
  | .node (.rule .declarations) _ => true
  | _ => false

/-- The parts of a program can be told from their trees. -/
theorem Program.tree_parts {program : Program} {names functions : List (Tree Label)}
    {last : Tree Label} (hnames : ∀ tree ∈ names, tree.isDeclarations = true)
    (hfunctions : ∀ tree ∈ functions, tree.isDeclarations = false)
    (h : phrase .program (names ++ functions ++ [last]) = program.tree) :
    names = (if program.globals.isEmpty then [] else [declarationsTree program.globals]) ∧
      functions = program.functions.map Function.tree ∧ last = program.mainTree := by
  simp only [Program.tree, phrase, Tree.node.injEq, true_and] at h
  obtain ⟨hfront, hlast⟩ := append_inj' h rfl
  have hfilter : ∀ {first second : List (Tree Label)},
    (∀ tree ∈ first, tree.isDeclarations = true) →
      (∀ tree ∈ second, tree.isDeclarations = false) →
      (first ++ second).filter Tree.isDeclarations = first := by
    intro first second hfirst hsecond
    rw [filter_append, filter_eq_self.2 hfirst, filter_eq_nil_iff.2 ?_,
      append_nil]
    simpa using hsecond
  have hglobals : names
      = (if program.globals.isEmpty then [] else [declarationsTree program.globals]) := by
    rw [← hfilter hnames hfunctions, hfront]
    refine hfilter ?_ ?_
    · split <;> simp [declarationsTree, phrase, Tree.isDeclarations]
    · simp [Function.tree, phrase, Tree.isDeclarations]
  refine ⟨hglobals, ?_, by simpa using hlast⟩
  rw [hglobals] at hfront
  exact append_cancel_left hfront

namespace Parse

variable {source : List TokenLine} {limit : Nat} {s s' : State} {tree : SyntaxTree}

/-- **A program** that the parser accepts uses declared names. -/
theorem reads_program_named {p : Program} (hspelled : s.Spelled) (hpending : s.pending = [])
    (hscopes : s.scopes = [.empty 0 false 0])
    (hwords : (TokenLine.kinds s.lines).IsChain fun first second => first.mayPrecede second = true)
    (hlimit : (wordsOf s.lines).length < limit) (h : Reads (program limit) s tree s')
    (hshape : tree.shape = p.tree) : p.Named := by
  simp only [program, reads_branch, reads_bind, reads_at?] at h
  obtain ⟨trees, ⟨_, t, hread, _, _, ⟨rfl, rfl⟩, h⟩, rfl⟩ := h
  have hrested : t.Rested s.lines :=
    ((meets_readWord_first hpending (by simp [hscopes])).of_reads hread).1.rested
  have ht := State.Steady.of_readWord hpending hread
  have htSpelled := hspelled.readWord hread
  rw [hscopes] at ht
  have hnone : Declares ⟨[], []⟩ [] [.empty 0 false 0] :=
    .nil fun name hname => Bool.noConfusion hname
  have hfunctionTrees : ∀ {u w : State} {functions : List SyntaxTree}, u.Spelled →
      Reads (many (at? .kwFunction) (do return [← function limit]) limit) u functions w →
      ∀ tree ∈ functions.map SyntaxTree.shape, tree.isDeclarations = false := by
    intro u w functions hu hfunctions
    obtain ⟨⟨list, hlist⟩, -⟩ := reads_functions hu hfunctions
    simp [hlist, Function.tree, phrase, Tree.isDeclarations]
  rw [SyntaxTree.shape_branch] at hshape
  split at h
  · -- there are global declarations
    simp only [reads_bind, reads_pure, reads_expect, reads_get] at h
    obtain ⟨names, u, hnames, _, _, ⟨rfl, rfl⟩, functions, w, hfunctions, token, _,
      ⟨hword, hkind, rfl⟩, last, x, hlast, _, _, ⟨rfl, rfl⟩, h⟩ := h
    split at h
    · simp at h
    obtain ⟨rfl, -⟩ := reads_pure.1 h
    obtain ⟨⟨list, hlist, -⟩, huSpelled⟩ := reads_declarations htSpelled hnames
    simp only [map_append, map_cons, map_nil] at hshape
    obtain ⟨hglobals, hfunctionShapes, hlastShape⟩ := Program.tree_parts
      (by simp [hlist, declarationsTree, phrase, Tree.isDeclarations])
      (hfunctionTrees huSpelled hfunctions) hshape
    have hnamesShape : names.shape = declarationsTree p.globals := by
      split at hglobals
      · cases hglobals
      · exact singleton_inj.1 hglobals
    obtain ⟨after, hu, hafter⟩ := reads_declarations_induct (P := Declares ⟨[], []⟩)
      (fun hdone hs hread hname hput => hdone.step hs hread hname hput) ht hnone hnames
    rw [hnamesShape, declaratorTrees_declarationsTree] at hafter
    obtain ⟨b, hcalm⟩ := hrested
    obtain ⟨_, _, _, -, hcalm', -⟩ :=
      (mirrored_declarations (Nat.le_of_eq (Nat.min_self limit).symm) []
      (hcalm.rested.length_lt hlimit) hcalm).of_reads hnames
    exact hafter.named hwords hu hcalm'.rested hlimit hfunctions ⟨token, hword, hkind⟩ hlast
      hfunctionShapes hlastShape
  · -- there are none
    simp only [reads_bind, reads_pure, reads_expect, reads_get] at h
    obtain ⟨_, _, ⟨rfl, rfl⟩, functions, w, hfunctions, token, _, ⟨hword, hkind, rfl⟩, last,
      x, hlast, _, _, ⟨rfl, rfl⟩, h⟩ := h
    split at h
    · simp at h
    obtain ⟨rfl, -⟩ := reads_pure.1 h
    simp only [map_append, map_cons, map_nil] at hshape
    obtain ⟨hglobals, hfunctionShapes, hlastShape⟩ := Program.tree_parts (forall_mem_nil _)
      (hfunctionTrees htSpelled hfunctions) hshape
    have hempty : p.globals = [] := by
      split at hglobals
      · rename_i hempty
        exact isEmpty_iff.1 hempty
      · cases hglobals
    have hstart : Declares ⟨[], []⟩ ((declarators p.globals).map Declarator.tree)
        [.empty 0 false 0] := hempty ▸ hnone
    exact hstart.named hwords ht hrested hlimit hfunctions ⟨token, hword, hkind⟩ hlast
      hfunctionShapes hlastShape

end Parse

/-- **Every name that an accepted program uses has been declared**, no name is declared twice in a
scope, and jumps come after the beginning of a loop or a switch, if no brace stands directly after a
comma. -/
theorem named_of_parse {lines : List TokenLine}
    (hlines : ∀ line ∈ lines, line.isWellSpelled = true)
    (hwords : (TokenLine.kinds lines).IsChain fun first second => first.mayPrecede second = true)
    {parsed : Parsed} {program : Program} (h : parse lines = .ok parsed)
    (hshape : parsed.tree.shape = program.tree) : program.Named := by
  unfold parse at h
  split at h
  · simp at h
  · rename_i tree state hread
    obtain rfl := Except.ok.inj h
    have hspelled : (Parse.State.initial lines).Spelled :=
      ⟨by simp [Parse.State.initial], by simp [Parse.State.initial], hlines⟩
    exact Parse.reads_program_named hspelled rfl rfl hwords
      (Nat.lt_succ_of_le (Parse.length_wordsOf_le lines)) hread hshape

end ScoreLang
