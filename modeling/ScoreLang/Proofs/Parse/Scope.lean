import ScoreLang.Proofs.Meaning
import ScoreLang.Proofs.Parse.Program

/-!
# The Parser Rejects a Name That Is Declared Twice

A brace opens or closes a scope at the moment it is read, and it is read one word ahead of its use.
`State.Steady` therefore speaks of the scopes *before* the current word: those of the state are
what that word has made of them. An expression has no brace in it, so it keeps a state steady for
the same scopes, whatever word comes after it; the initial values of an array close the scope that
they open.

An assignment begins like a variable, and the parser takes the variable back if no assignment sign
follows it. In between, the words that were taken back are pending (`State.Rewound`).

## Main results

* `calm_expression`: an expression keeps the scopes;
* `reads_declarations_induct`: what the declarators keep one after the other, declarations keep;
* `reads_declarations_holds`: the names of some declarations are different from each other;
* `wellNamed_of_parse`: so are those of an accepted program without functions.
-/

namespace ScoreLang

open List

/-! ### Words and scopes -/

/-- Whether a word of this kind is a brace. -/
def Kind.isBrace (kind : Kind) : Bool := kind = .leftBrace || kind = .rightBrace

namespace Parse

/-- What a word makes of the scopes when it is read. -/
inductive Turns : Option Token → Scopes → Scopes → Prop where
  | last {scopes : Scopes} : Turns none scopes scopes
  | plain {token : Token} {scopes : Scopes} : token.kind.isBrace = false →
      Turns (some token) scopes scopes
  | opening {token : Token} {scopes : Scopes} {id : Nat} : token.kind = .leftBrace →
      Turns (some token) scopes (.empty id false 0 :: scopes)
  /-- A right brace closes a scope that is not the outermost one. -/
  | closing {token : Token} {scope : Scope} {scopes : Scopes} : token.kind = .rightBrace →
      scopes ≠ [] → Turns (some token) (scope :: scopes) scopes

namespace Turns

variable {word : Option Token} {token : Token} {before after : Scopes}

/-- A word that is not a brace leaves the scopes alone. -/
theorem eq (h : Turns (some token) before after) (hkind : token.kind.isBrace = false) :
    after = before := by
  cases h with
  | plain _ => rfl
  | opening hleft => simp [hleft, Kind.isBrace] at hkind
  | closing hright _ => simp [hright, Kind.isBrace] at hkind

/-- A left brace opens a scope. -/
theorem leftBrace (h : Turns (some token) before after) (hkind : token.kind = .leftBrace) :
    ∃ id, after = .empty id false 0 :: before := by
  cases h with
  | plain hplain => simp [hkind, Kind.isBrace] at hplain
  | opening _ => exact ⟨_, rfl⟩
  | closing hright _ => exact nomatch hkind.symm.trans hright

/-- A right brace closes one. -/
theorem rightBrace (h : Turns (some token) before after) (hkind : token.kind = .rightBrace) :
    ∃ scope, before = scope :: after := by
  cases h with
  | plain hplain => simp [hkind, Kind.isBrace] at hplain
  | opening hleft => exact nomatch hkind.symm.trans hleft
  | closing _ _ => exact ⟨_, rfl⟩

/-- Only a right brace closes a scope. -/
theorem length_le (h : Turns word before after)
    (hword : ∀ token, word = some token → token.kind ≠ .rightBrace) :
    before.length ≤ after.length := by
  cases h with
  | last => exact Nat.le_refl _
  | plain _ => exact Nat.le_refl _
  | opening _ => exact Nat.le_succ _
  | closing hright _ => exact absurd hright (hword _ rfl)

/-- Some scope stays open. -/
theorem ne_nil (h : Turns word before after) (hbefore : before ≠ []) : after ≠ [] := by
  cases h with
  | last => exact hbefore
  | plain _ => exact hbefore
  | opening _ => exact cons_ne_nil _ _
  | closing _ hscopes => exact hscopes

end Turns

variable {cause : GrammarCause} {rule : Rule} {tree : SyntaxTree}
  {result : SyntaxTree × Option String} {u : Unit}

/-- The parser turns the scopes in this way. -/
theorem reads_braceScope_turns {token : Token} {s s' : State}
    (h : Reads (braceScope token.kind) s u s') : Turns (some token) s.scopes s'.scopes := by
  simp only [braceScope] at h
  split at h
  · rename_i hleft
    rw [reads_modify] at h
    subst h
    exact .opening hleft
  split at h
  · rename_i hright
    simp only [reads_bind, reads_openScopes] at h
    obtain ⟨_, _, ⟨-, rfl, rfl⟩, h⟩ := h
    split at h
    · rename_i scope inner outer hscopes
      rw [reads_modify] at h
      rw [h, hscopes]
      exact .closing hright (cons_ne_nil _ _)
    · simp at h
  · rename_i hleft hright
    rw [reads_pure] at h
    rw [h.2]
    exact .plain (by simp [Kind.isBrace, hleft, hright])

/-! ### Steady states -/

/-- The current word is of the given kind. -/
def State.At (state : State) (kind : Kind) : Prop :=
  ∃ token, state.word = some token ∧ token.kind = kind

/-- The current word is of the kind that was found. -/
theorem State.at_of_any {state : State} {kind : Kind}
    (h : (state.word.any fun token => token.kind == kind) = true) : state.At kind := by
  obtain ⟨token, hword, hkind⟩ := exists_token_of_any h
  exact ⟨token, hword, by simpa using hkind⟩

/-- The current word is of one of the kinds. -/
theorem State.at_of_contains {state : State} {kinds : List Kind}
    (h : (state.word.any fun token => kinds.contains token.kind) = true) :
    ∃ kind ∈ kinds, state.At kind := by
  obtain ⟨token, hword, hkind⟩ := exists_token_of_any h
  exact ⟨token.kind, by simpa using hkind, token, hword, rfl⟩

/-- No word is pending, and the scopes before the current word are the given ones. -/
structure State.Steady (scopes : Scopes) (state : State) : Prop where
  pending : state.pending = []
  /-- The current word has made the scopes of the state. -/
  turns : Turns state.word scopes state.scopes

namespace State.Steady

variable {scopes : Scopes} {s s' : State} {kind : Kind}

/-- The scopes at a word that is not a brace. -/
theorem scopes_eq (h : s.Steady scopes) (hat : s.At kind) (hkind : kind.isBrace = false) :
    s.scopes = scopes := by
  obtain ⟨token, hword, rfl⟩ := hat
  have hturns := h.turns
  rw [hword] at hturns
  exact hturns.eq hkind

/-- The next word is read from the list. -/
theorem of_readWord (hpending : s.pending = []) {u : Unit} (hread : Reads readWord s u s') :
    s'.Steady s.scopes := by
  simp only [readWord, reads_bind, reads_get] at hread
  obtain ⟨_, _, ⟨rfl, rfl⟩, hread⟩ := hread
  rw [hpending] at hread
  simp only [readLine, reads_bind, reads_get] at hread
  obtain ⟨_, _, ⟨rfl, rfl⟩, hread⟩ := hread
  split at hread
  · rw [reads_set] at hread
    subst hread
    exact ⟨hpending, .last⟩
  · simp only [reads_bind, reads_set, reads_modify] at hread
    obtain ⟨_, _, rfl, _, t, hbrace, rfl⟩ := hread
    obtain ⟨-, hkept, -⟩ := reads_braceScope hbrace
    have hturns := reads_braceScope_turns hbrace
    exact ⟨hkept.trans hpending, hturns⟩
  · simp at hread
  · simp at hread

/-- The word after one that is not a brace is read. -/
theorem readWord (h : s.Steady scopes) (hat : s.At kind) (hkind : kind.isBrace = false) {u : Unit}
    (hread : Reads Parse.readWord s u s') : s'.Steady scopes :=
  h.scopes_eq hat hkind ▸ of_readWord h.pending hread

end State.Steady

/-! ### Reading a word of a kind -/

/-- One word is read before the leaf. -/
theorem reads_nextLeaf_word {kind : Kind} {s s' : State}
    (h : Reads (nextLeaf kind cause rule) s tree s') :
    Reads readWord s () s' ∧ s'.At kind := by
  simp only [nextLeaf, expectLeaf, reads_bind, reads_expect] at h
  obtain ⟨_, t, hread, token, _, ⟨hword, hkind, rfl⟩, hleaf⟩ := h
  obtain ⟨-, rfl⟩ := reads_kindLeaf hleaf
  exact ⟨hread, token, hword, hkind⟩

/-- One word is read before the number. -/
theorem reads_nextNumber_word {s s' : State} {result : String × SyntaxTree}
    (h : Reads (nextNumber rule) s result s') : Reads readWord s () s' ∧ s'.At .number := by
  simp only [nextNumber, reads_bind, reads_expect, reads_leaf, reads_pure] at h
  obtain ⟨_, t, hread, token, _, ⟨hword, hkind, rfl⟩, _, _, ⟨rfl, rfl⟩, -, rfl⟩ := h
  exact ⟨hread, token, hword, hkind⟩

/-- One word is read before the name. -/
theorem reads_nextName_word {s s' : State} {result : String × SyntaxTree}
    (h : Reads (nextName cause rule) s result s') :
    Reads readWord s () s' ∧ s'.At .name := by
  simp only [nextName, reads_bind, reads_expect, reads_leaf, reads_pure] at h
  obtain ⟨_, t, hread, token, _, ⟨hword, hkind, rfl⟩, _, _, ⟨rfl, rfl⟩, -, rfl⟩ := h
  exact ⟨hread, token, hword, hkind⟩

/-- An expected word is there, and is not read. -/
theorem reads_expectLeaf_at {kind : Kind} {s s' : State}
    (h : Reads (expectLeaf kind cause rule) s tree s') : s.At kind ∧ s = s' := by
  have heq := (reads_expectLeaf h).2
  simp only [expectLeaf, reads_bind, reads_expect] at h
  obtain ⟨token, _, ⟨hword, hkind, rfl⟩, -⟩ := h
  exact ⟨⟨token, hword, hkind⟩, heq⟩

/-- The check changes nothing. -/
theorem reads_checkDeclared {name place : String} {s s' : State}
    (h : Reads (checkDeclared name place) s u s') : s = s' := by
  simp only [checkDeclared, reads_bind, reads_openScopes] at h
  obtain ⟨_, _, ⟨-, rfl, rfl⟩, h⟩ := h
  split at h
  · simp at h
  · exact (reads_pure.1 h).2

/-! ### Words that were taken back -/

/-- A variable was taken back, and the word that follows it is the last one that is pending. -/
structure State.Rewound (scopes : Scopes) (index : Option String) (last : Option Token)
    (state : State) : Prop where
  word : state.At .name
  /-- The other words of the variable and the word after it are pending. -/
  pending : state.pending = (indexWords index).map some ++ [last]
  /-- A variable with an index is taken back as a whole. -/
  index_eq_none : index = none → (last.any fun token => token.kind == .leftBracket) = false
  /-- The word after the variable has made the scopes of the state. -/
  turns : Turns last scopes state.scopes

/-- A pending word is read again. -/
theorem reads_readWord_pending {word : Option Token} {rest : List (Option Token)} {s s' : State}
    (hpending : s.pending = word :: rest) :
    Reads readWord s u s' ↔ s' = { s with word := word, pending := rest } := by
  simp only [readWord, reads_bind, reads_get]
  constructor
  · rintro ⟨_, _, ⟨rfl, rfl⟩, h⟩
    rw [hpending] at h
    exact reads_set.1 h
  · intro h
    refine ⟨s, s, ⟨rfl, rfl⟩, ?_⟩
    rw [hpending]
    exact reads_set.2 h

/-- The words of a variable are read. Without an index, no bracket follows. -/
theorem reads_reference_words {s s' : State} (h : Reads reference s result s') :
    ∃ t, Reads readWord s () t ∧
      (result.2 = none ∧ (t.word.any fun token => token.kind == .leftBracket) = false ∧ t = s' ∨
        result.2 ≠ none ∧ t.At .leftBracket ∧ ∃ u v, Reads readWord t () u ∧ u.At .number ∧
          Reads readWord u () v ∧ v.At .rightBracket ∧ Reads readWord v () s') := by
  simp only [reference, reads_bind, reads_get, reads_spelling, reads_leaf, reads_at?] at h
  obtain ⟨_, _, ⟨rfl, rfl⟩, _, _, ⟨rfl, rfl⟩, _, _, ⟨rfl, rfl⟩, _, _, hcheck, _, t, hread, _, _,
    ⟨rfl, rfl⟩, h⟩ := h
  obtain rfl := reads_checkDeclared hcheck
  refine ⟨t, hread, ?_⟩
  split at h
  · rename_i hbracket
    simp only [reads_bind, reads_pure] at h
    obtain ⟨opening, _, hopening, number, u, hnumber, closing, v, hclosing, _, w, hafter, rfl,
      rfl⟩ := h
    obtain ⟨-, rfl⟩ := reads_kindLeaf hopening
    obtain ⟨hnumber, hu⟩ := reads_nextNumber_word hnumber
    obtain ⟨hclosing, hv⟩ := reads_nextLeaf_word hclosing
    exact .inr ⟨by simp, State.at_of_any hbracket, u, v, hnumber, hu, hclosing, hv, hafter⟩
  · rename_i hbracket
    rw [reads_pure] at h
    obtain ⟨rfl, rfl⟩ := h
    exact .inl ⟨rfl, by simpa using hbracket, rfl⟩

/-- After a variable the scopes are as before. -/
theorem State.Steady.reference {scopes : Scopes} {s s' : State} (hs : s.Steady scopes)
    (hat : s.At .name) (h : Reads Parse.reference s result s') :
    s'.Steady scopes ∧
      (result.2 = none → (s'.word.any fun token => token.kind == .leftBracket) = false) := by
  obtain ⟨t, hread, h⟩ := reads_reference_words h
  have ht := hs.readWord hat rfl hread
  rcases h with ⟨-, hbracket, rfl⟩ | ⟨hne, hleft, u, v, hu, hnumber, hv, hright, hlast⟩
  · exact ⟨ht, fun _ => hbracket⟩
  · have hsteady := ((ht.readWord hleft rfl hu).readWord hnumber rfl hv).readWord hright rfl hlast
    exact ⟨hsteady, fun hnone => absurd hnone hne⟩

/-- A variable that was taken back is read again. -/
theorem State.Rewound.reference {scopes : Scopes} {index : Option String} {last : Option Token}
    {s s' : State} (hs : s.Rewound scopes index last) (h : Reads Parse.reference s result s') :
    s'.Steady scopes := by
  obtain ⟨t, hread, h⟩ := reads_reference_words h
  cases index with
  | none =>
    obtain rfl := (reads_readWord_pending hs.pending).1 hread
    rcases h with ⟨-, -, rfl⟩ | ⟨-, ⟨token, hword, hkind⟩, -⟩
    · exact ⟨rfl, hs.turns⟩
    · have hbracket := hs.index_eq_none rfl
      obtain rfl : last = some token := hword
      simp [hkind] at hbracket
  | some index =>
    obtain rfl := (reads_readWord_pending hs.pending).1 hread
    rcases h with ⟨-, hbracket, -⟩ | ⟨-, -, u, v, hu, -, hv, -, hlast⟩
    · exact absurd hbracket (by simp)
    · obtain rfl := (reads_readWord_pending rfl).1 hu
      obtain rfl := (reads_readWord_pending rfl).1 hv
      obtain rfl := (reads_readWord_pending rfl).1 hlast
      exact ⟨rfl, hs.turns⟩

/-- The state is steady, or a variable was taken back. -/
def State.Ready (scopes : Scopes) (state : State) : Prop :=
  state.Steady scopes ∨ ∃ index last, state.Rewound scopes index last

/-- A word that does not begin a variable was not taken back. -/
theorem State.Ready.steady {scopes : Scopes} {s : State} {kind : Kind} (h : s.Ready scopes)
    (hat : s.At kind) (hkind : kind ≠ .name) : s.Steady scopes := by
  rcases h with h | ⟨index, last, h⟩
  · exact h
  · obtain ⟨token, hword, rfl⟩ := hat
    obtain ⟨token', hword', hname⟩ := h.word
    obtain rfl := Option.some.inj (hword.symm.trans hword')
    exact absurd hname hkind

/-! ### Expressions -/

/-- An action after which the scopes are the same as before, but for the word that follows. -/
def Calm {α : Type} (action : Parse α) : Prop :=
  ∀ ⦃scopes : Scopes⦄ ⦃s s' : State⦄ ⦃a : α⦄, s.Steady scopes → Reads action s a s' →
    s'.Steady scopes

/-- A calm action that may begin with a variable that was taken back. -/
def Resumes {α : Type} (action : Parse α) : Prop :=
  ∀ ⦃scopes : Scopes⦄ ⦃s s' : State⦄ ⦃a : α⦄, s.Ready scopes → Reads action s a s' →
    s'.Steady scopes

/-- What can resume is calm. -/
theorem Resumes.calm {α : Type} {action : Parse α} (h : Resumes action) : Calm action :=
  fun _ _ _ _ hs hread => h (.inl hs) hread

/-- A repetition, every round of which is calm. -/
theorem Calm.many {continues : Parse Bool} {round : Parse (List SyntaxTree)}
    (hlook : ∀ {found : Bool} {s t : State}, Reads continues s found t → s = t)
    (hround : ∀ {scopes : Scopes} {s s' : State} {trees : List SyntaxTree}, s.Steady scopes →
      Reads continues s true s → Reads round s trees s' → s'.Steady scopes) (limit : Nat) :
    Calm (many continues round limit) := by
  intro scopes s s' trees hs h
  refine (reads_many (fun _ state => state.Steady scopes) (fun _ => True) ?_ ?_ [] hs h).1
  · intro _ s t hs hfound _ u hu
    obtain rfl := hlook hfound
    exact hround hs hfound hu
  · intro _ s t hs hfound
    exact ⟨hlook hfound ▸ hs, trivial⟩

/-- A list with commas between its elements. -/
theorem Calm.separated {element : Parse SyntaxTree} (helement : Calm element) (limit : Nat) :
    Calm (separated limit element) := by
  intro scopes s s' trees hs h
  simp only [Parse.separated, reads_bind, reads_pure] at h
  obtain ⟨first, t, hfirst, rest, _, hrest, -, rfl⟩ := h
  refine Calm.many (fun h => (reads_at?.1 h).2) ?_ limit (helement hs hfirst) hrest
  intro scopes s s' trees hs hfound hround
  simp only [reads_bind, reads_pure] at hround
  obtain ⟨comma, _, hcomma, _, t, hread, tree, _, htree, -, rfl⟩ := hround
  obtain ⟨-, rfl⟩ := reads_kindLeaf hcomma
  have hat : s.At .comma := State.at_of_any (reads_at?.1 hfound).1.symm
  exact helement (hs.readWord hat rfl hread) htree

/-- A call leaves the scopes as they were. -/
theorem calm_call {expression : Parse SyntaxTree} (hexpression : Calm expression) (limit : Nat)
    {scopes : Scopes} {s s' : State} (hs : s.Steady scopes) (hat : s.At .kwCall)
    (h : Reads (call expression limit) s tree s') : s'.Steady scopes := by
  simp only [call, reads_branch, reads_bind, reads_at?] at h
  obtain ⟨_, ⟨keyword, _, hkeyword, name, t, hname, _, _, hcheck, opening, u, hopening, _, v, hread,
    _, _, ⟨rfl, rfl⟩, h⟩, -⟩ := h
  obtain ⟨-, rfl⟩ := reads_kindLeaf hkeyword
  obtain ⟨hname, ht⟩ := reads_nextName_word hname
  obtain rfl := reads_checkDeclared hcheck
  obtain ⟨hopening, hu⟩ := reads_nextLeaf_word hopening
  have hv := ((hs.readWord hat rfl hname).readWord ht rfl hopening).readWord hu rfl hread
  split at h
  · rename_i hright
    simp only [reads_bind, reads_pure] at h
    obtain ⟨_, _, ⟨-, rfl⟩, closing, _, hclosing, _, _, hafter, -, rfl⟩ := h
    obtain ⟨-, rfl⟩ := reads_kindLeaf hclosing
    exact hv.readWord (State.at_of_any hright) rfl hafter
  · simp only [reads_bind, reads_expect, reads_pure, arguments, reads_branch] at h
    obtain ⟨_, w, ⟨_, hlist, -⟩, token, _, ⟨hword, hkind, rfl⟩, _, _, ⟨-, rfl⟩, closing, _,
      hclosing, _, _, hafter, -, rfl⟩ := h
    obtain ⟨-, rfl⟩ := reads_kindLeaf hclosing
    exact (hexpression.separated limit hv hlist).readWord ⟨token, hword, hkind⟩ rfl hafter

/-- An operand can be read again. -/
theorem resumes_factor {expression : Parse SyntaxTree} (hexpression : Calm expression)
    (limit : Nat) : Resumes (factor expression limit) := by
  intro scopes s s' tree hs h
  simp only [factor, reads_branch, reads_bind, reads_at?] at h
  obtain ⟨_, ⟨_, _, ⟨rfl, rfl⟩, h⟩, -⟩ := h
  split at h
  · rename_i hparen
    have hat := State.at_of_any hparen
    simp only [reads_bind, reads_pure] at h
    obtain ⟨opening, _, hopening, _, t, hread, inner, u, hinner, closing, _, hclosing, _, _,
      hafter, -, rfl⟩ := h
    obtain ⟨-, rfl⟩ := reads_kindLeaf hopening
    obtain ⟨hright, rfl⟩ := reads_expectLeaf_at hclosing
    have ht := (hs.steady hat (by decide)).readWord hat rfl hread
    exact (hexpression ht hinner).readWord hright rfl hafter
  simp only [reads_bind, reads_at?] at h
  obtain ⟨_, _, ⟨rfl, rfl⟩, h⟩ := h
  split at h
  · rename_i hcall
    have hat := State.at_of_any hcall
    simp only [reads_bind, reads_pure] at h
    obtain ⟨tree, _, hread, -, rfl⟩ := h
    exact calm_call hexpression limit (hs.steady hat (by decide)) hat hread
  simp only [reads_bind, reads_at?] at h
  obtain ⟨_, _, ⟨rfl, rfl⟩, h⟩ := h
  split at h
  · rename_i hname
    simp only [reads_bind, reads_pure] at h
    obtain ⟨result, _, hread, -, rfl⟩ := h
    rcases hs with hs | ⟨index, last, hs⟩
    · exact (hs.reference (State.at_of_any hname) hread).1
    · exact hs.reference hread
  · simp only [reads_bind, reads_expect, reads_leaf, reads_pure] at h
    obtain ⟨token, _, ⟨hword, hkind, rfl⟩, _, _, ⟨-, rfl⟩, _, _, hread, -, rfl⟩ := h
    have hat : s.At .number := ⟨token, hword, hkind⟩
    exact (hs.steady hat (by decide)).readWord hat rfl hread

/-- Operands with signs between them: the first operand may have been taken back. In every round,
the sign is passed and an operand is read. -/
theorem Resumes.chain {operand : Parse SyntaxTree} (hoperand : Resumes operand)
    {round : Parse (List SyntaxTree)} {kinds : List Kind}
    (hkinds : ∀ kind ∈ kinds, kind.isBrace = false)
    (hround : ∀ {s s' : State} {trees : List SyntaxTree}, Reads round s trees s' →
      ∃ t tree, Reads readWord s () t ∧ Reads operand t tree s') (limit : Nat) :
    Resumes (do
      let first ← operand
      let rest ← many (atAny? kinds) round limit
      return first :: rest) := by
  intro scopes s s' trees hs h
  simp only [reads_bind, reads_pure] at h
  obtain ⟨first, t, hfirst, rest, _, hrest, -, rfl⟩ := h
  refine Calm.many (fun h => (reads_atAny?.1 h).2) ?_ limit (hoperand hs hfirst) hrest
  intro scopes s s' trees hs hfound h
  obtain ⟨t, tree, hread, htree⟩ := hround h
  obtain ⟨kind, hmem, hat⟩ := State.at_of_contains (reads_atAny?.1 hfound).1.symm
  exact hoperand.calm (hs.readWord hat (hkinds kind hmem) hread) htree

/-- A word as it is spelled is a leaf. -/
theorem reads_spelledLeaf {s s' : State} {leaf : SyntaxTree} (h : Reads spelledLeaf s leaf s') :
    (∃ label, leaf.shape = .node label []) ∧ s = s' := by
  simp only [spelledLeaf, reads_bind, reads_spelling, reads_leaf] at h
  obtain ⟨_, _, ⟨-, rfl⟩, rfl, rfl⟩ := h
  exact ⟨⟨_, SyntaxTree.shape_leaf _ _⟩, rfl⟩

/-- A product can be read again. -/
theorem resumes_product {expression : Parse SyntaxTree} (hexpression : Calm expression)
    (limit : Nat) : Resumes (product expression limit) := by
  intro scopes s s' tree hs h
  rw [product, reads_branch] at h
  obtain ⟨trees, h, -⟩ := h
  refine (resumes_factor hexpression limit).chain ?_ ?_ limit hs h
  · decide
  · intro s s' trees hround
    simp only [reads_bind, reads_at?] at hround
    obtain ⟨_, _, ⟨rfl, rfl⟩, hround⟩ := hround
    split at hround <;>
    · simp only [reads_bind, reads_pure] at hround
      obtain ⟨sign, _, hsign, _, t, hread, tree, _, htree, -, rfl⟩ := hround
      obtain ⟨-, rfl⟩ := reads_kindLeaf hsign
      exact ⟨t, tree, hread, htree⟩

/-- A sum can be read again. -/
theorem resumes_sum {expression : Parse SyntaxTree} (hexpression : Calm expression)
    (limit : Nat) : Resumes (sum expression limit) := by
  intro scopes s s' tree hs h
  rw [sum, reads_branch] at h
  obtain ⟨trees, h, -⟩ := h
  refine (resumes_product hexpression limit).chain ?_ ?_ limit hs h
  · decide
  · intro s s' trees hround
    simp only [reads_bind, reads_pure] at hround
    obtain ⟨sign, _, hsign, _, t, hread, tree, _, htree, -, rfl⟩ := hround
    obtain ⟨-, rfl⟩ := reads_spelledLeaf hsign
    exact ⟨t, tree, hread, htree⟩

/-- A comparison can be read again. -/
theorem resumes_logical {expression : Parse SyntaxTree} (hexpression : Calm expression)
    (limit : Nat) : Resumes (logical expression limit) := by
  have hsum := resumes_sum hexpression limit
  intro scopes s s' tree hs h
  simp only [logical, reads_branch, reads_bind, reads_get] at h
  obtain ⟨_, ⟨left, t, hleft, _, _, ⟨rfl, rfl⟩, h⟩, -⟩ := h
  have ht := hsum hs hleft
  split at h
  · simp at h
  · rename_i token hword
    split at h
    · rename_i hlogic
      simp only [reads_bind, reads_pure] at h
      obtain ⟨sign, _, hsign, _, u, hread, right, _, hright, -, rfl⟩ := h
      obtain ⟨-, rfl⟩ := reads_spelledLeaf hsign
      have hbrace : token.kind.isBrace = false := by
        cases hkind : token.kind <;> simp_all [Kind.isLogic, Kind.isBrace]
      exact hsum.calm (ht.readWord ⟨token, hword, rfl⟩ hbrace hread) hright
    · obtain ⟨-, rfl⟩ := reads_pure.1 h
      exact ht

/-- An assignment is calm, although its target is read twice. -/
theorem calm_assignment {expression : Parse SyntaxTree} (hexpression : Calm expression)
    (limit : Nat) : Calm (assignment expression limit) := by
  have hlogical := resumes_logical hexpression limit
  intro scopes s s' tree hs h
  simp only [assignment, reads_branch, reads_bind, reads_at?] at h
  obtain ⟨_, ⟨_, _, ⟨rfl, rfl⟩, h⟩, -⟩ := h
  split at h
  · rename_i hname
    simp only [reads_bind, reads_spelling, reads_at?] at h
    obtain ⟨_, _, ⟨rfl, rfl⟩, ⟨target, index⟩, t, htarget, _, _, ⟨rfl, rfl⟩, h⟩ := h
    obtain ⟨ht, hbracket⟩ := hs.reference (State.at_of_any hname) htarget
    split at h
    · rename_i hassign
      simp only [reads_bind, reads_pure] at h
      obtain ⟨_, u, hread, sign, _, hsign, value, _, hvalue, -, rfl⟩ := h
      obtain ⟨-, rfl⟩ := reads_kindLeaf hsign
      exact hlogical.calm (ht.readWord (State.at_of_any hassign) rfl hread) hvalue
    · simp only [reads_bind, reads_pure, takeBack, reads_modify] at h
      obtain ⟨_, _, rfl, value, _, hvalue, -, rfl⟩ := h
      refine hlogical (.inr ⟨index, t.word, ?_⟩) hvalue
      exact ⟨⟨_, rfl, rfl⟩, by rw [ht.pending, nil_append], hbracket, ht.turns⟩
  · simp only [reads_bind, reads_pure] at h
    obtain ⟨value, _, hvalue, -, rfl⟩ := h
    exact hlogical.calm hs hvalue

/-- **Expressions** keep the scopes. -/
theorem calm_expression (depth : Nat) : Calm (expression depth) := by
  induction depth with
  | zero =>
    intro scopes s s' tree hs h
    simp [expression] at h
  | succ depth ih => exact calm_assignment ih (depth + 1)

theorem calm_logical (limit : Nat) : Calm (logical (expression limit) limit) :=
  (resumes_logical (calm_expression limit) limit).calm

/-! ### Initial values -/

/-- The right brace is there, and is read. -/
theorem reads_rightBrace_word {s s' : State} (h : Reads (rightBrace rule) s tree s') :
    s.At .rightBrace ∧ Reads readWord s () s' := by
  simp only [rightBrace, reads_bind, reads_pure] at h
  obtain ⟨sign, _, hsign, _, _, hread, -, rfl⟩ := h
  obtain ⟨hat, rfl⟩ := reads_expectLeaf_at hsign
  exact ⟨hat, hread⟩

/-- The semicolon is there, and is read. -/
theorem reads_semicolon_word {s s' : State} (h : Reads (semicolon rule) s tree s') :
    tree.shape = word ";" ∧ s.At .semicolon ∧ Reads readWord s () s' := by
  simp only [semicolon, reads_bind, reads_pure] at h
  obtain ⟨sign, _, hsign, _, _, hread, rfl, rfl⟩ := h
  obtain ⟨hat, rfl⟩ := reads_expectLeaf_at hsign
  exact ⟨(reads_expectLeaf hsign).1, hat, hread⟩

/-- The scopes at a right brace. -/
theorem State.Steady.rightBrace {scope : Scope} {scopes : Scopes} {s s' : State}
    (hs : s.Steady (scope :: scopes)) (h : Reads (Parse.rightBrace rule) s tree s') :
    s'.Steady scopes := by
  obtain ⟨⟨token, hword, hkind⟩, hread⟩ := reads_rightBrace_word h
  have hturns := hs.turns
  rw [hword] at hturns
  obtain ⟨_, hscopes⟩ := hturns.rightBrace hkind
  obtain ⟨-, rfl⟩ := List.cons.inj hscopes
  exact .of_readWord hs.pending hread

/-- The initial values of an array close the scope that they open. -/
theorem State.Steady.initializer {scopes : Scopes} {s s' : State} {limit : Nat}
    (hs : s.Steady scopes) (hat : s.At .assign) (h : Reads (Parse.initializer limit) s tree s') :
    s'.Steady scopes := by
  simp only [Parse.initializer, reads_branch, reads_bind, reads_at?] at h
  obtain ⟨_, ⟨opening, t, hopening, _, u, hread, _, _, ⟨rfl, rfl⟩, h⟩, -⟩ := h
  obtain ⟨hopening, token, hword, hkind⟩ := reads_nextLeaf_word hopening
  have ht := hs.readWord hat rfl hopening
  have hturns := ht.turns
  rw [hword] at hturns
  obtain ⟨id, hscopes⟩ := hturns.leftBrace hkind
  have hu := State.Steady.of_readWord ht.pending hread
  rw [hscopes] at hu
  split at h
  · simp only [reads_bind, reads_pure] at h
    obtain ⟨closing, _, hclosing, -, rfl⟩ := h
    exact hu.rightBrace hclosing
  · simp only [reads_bind, reads_pure] at h
    obtain ⟨values, v, hvalues, closing, _, hclosing, -, rfl⟩ := h
    exact ((calm_logical limit).separated limit hu hvalues).rightBrace hclosing

end Parse

/-! ### Declared names -/

/-- The name that a declarator declares. -/
def Tree.declared? : Tree Label → Option String
  | .node (.rule .declarator) (.node (.name name) _ :: _) => some name
  | _ => none

/-- The branches of the declarators of a declaration. -/
def Tree.declaratorSons (tree : Tree Label) : List (Tree Label) :=
  tree.sons.filter fun son => son.declared?.isSome

/-- The branches of the declarators of some declarations. -/
def Tree.declaratorTrees (tree : Tree Label) : List (Tree Label) :=
  tree.sons.flatMap Tree.declaratorSons

/-- The tree of a declarator shows the name that it declares. -/
@[simp] theorem Declarator.declared?_tree (d : Declarator) : d.tree.declared? = some d.name := by
  cases d <;> rfl

@[simp] theorem Tree.declared?_node_nil (label : Label) :
    (Tree.node label []).declared? = none := by
  cases label with
  | rule rule => cases rule <;> rfl
  | name name => rfl
  | number digits => rfl
  | word text => rfl

@[simp] theorem declared?_word (text : String) : (word text).declared? = none := rfl

/-- The declarators of one declaration. -/
theorem Declaration.declaratorSons_tree (d : Declaration) :
    d.tree.declaratorSons = (d.first :: d.rest).map Declarator.tree := by
  have hrest : ∀ ds : List Declarator, ((ds.map Declarator.tree).flatMap fun tree =>
      [word ",", tree]).filter (fun son => son.declared?.isSome) = ds.map Declarator.tree := by
    intro ds
    induction ds with
    | nil => rfl
    | cons d ds ih => simp [ih]
  simp [Tree.declaratorSons, Declaration.tree, phrase, Tree.sons, separatedBy, hrest]

/-- The declarators of all declarations. -/
theorem declaratorTrees_declarationsTree (ds : List Declaration) :
    (declarationsTree ds).declaratorTrees = (declarators ds).map Declarator.tree := by
  rw [declarators, map_flatMap, Tree.declaratorTrees, declarationsTree, phrase, Tree.sons,
    flatMap_map]
  exact flatMap_congr fun d _ => d.declaratorSons_tree

/-- The names of some declarators, from their trees. -/
theorem filterMap_declared?_tree (ds : List Declarator) :
    (ds.map Declarator.tree).filterMap Tree.declared? = ds.map Declarator.name := by
  induction ds with
  | nil => rfl
  | cons d ds ih => simp [ih]

/-- A name is entered into the innermost scope, which does not hold it. -/
theorem Scopes.put?_cases {scopes after : Scopes} {name label : String} {category : Category}
    {size : Int} (h : scopes.put? name category size label = some after) :
    ∃ scope outer, scopes = scope :: outer ∧ (scope.find? name).isSome = false ∧
      after = scope.insert name category size label :: outer := by
  cases scopes with
  | nil => cases h
  | cons scope outer =>
    simp only [put?, Scope.put?, Option.map_eq_some_iff] at h
    obtain ⟨_, hscope, rfl⟩ := h
    split at hscope
    · cases hscope
    · rename_i hnew
      exact ⟨scope, outer, rfl, Bool.eq_false_iff.2 hnew, by rw [Option.some.inj hscope]⟩

/-- Some names are different from each other, and the innermost scope holds them. -/
def Scopes.Holds (scopes : Scopes) (names : List String) : Prop :=
  names.Nodup ∧ ∃ scope outer, scopes = scope :: outer ∧
    ∀ name ∈ names, (scope.find? name).isSome = true

/-- A name that can be put into the innermost scope is a new one. -/
theorem Scopes.Holds.put? {scopes scopes' : Scopes} {names : List String} {name label : String}
    {category : Category} {size : Int} (h : scopes.Holds names)
    (hput : scopes.put? name category size label = some scopes') :
    scopes'.Holds (names ++ [name]) := by
  obtain ⟨hnodup, scope, outer, rfl, hnames⟩ := h
  obtain ⟨_, _, hcons, hnew, rfl⟩ := put?_cases hput
  obtain ⟨rfl, rfl⟩ := List.cons.inj hcons
  refine ⟨?_, _, outer, rfl, ?_⟩
  · rw [nodup_append]
    refine ⟨hnodup, by simp, ?_⟩
    rintro other hother _ hname rfl
    rw [mem_singleton] at hname
    exact absurd (hnames other hother) (by rw [hname, hnew]; exact Bool.false_ne_true)
  · intro other hother
    rw [Scope.isSome_find?_insert]
    rcases mem_append.1 hother with hother | hother
    · exact .inr (hnames other hother)
    · exact .inl (mem_singleton.1 hother)

namespace Parse

/-- A name that is declared is put into the innermost scope. -/
theorem reads_declare {name : String} {category : Category} {rule : Rule} {s s' : State} {u : Unit}
    (h : Reads (declare name category rule) s u s') :
    ∃ scopes, s.scopes.put? name category 0 "" = some scopes ∧ s' = { s with scopes :=
      scopes } := by
  simp only [declare, reads_bind, reads_openScopes] at h
  obtain ⟨_, _, ⟨-, rfl, rfl⟩, h⟩ := h
  split at h
  · rename_i scopes hput
    exact ⟨scopes, hput, reads_modify.1 h⟩
  · simp at h

/-- A declarator declares its name after its initial value. -/
theorem reads_declarator_declare {limit : Nat} {scopes : Scopes} {s s' : State} {tree : SyntaxTree}
    (hs : s.Steady scopes) (h : Reads (declarator limit) s tree s') :
    ∃ name category t, tree.shape.declared? = some name ∧ t.Steady scopes ∧
      Reads (declare name category .declarator) t () s' := by
  simp only [declarator, reads_branch, reads_bind, reads_expect, reads_leaf, reads_at?] at h
  obtain ⟨trees, ⟨token, _, ⟨hword, hkind, rfl⟩, _, _, ⟨rfl, rfl⟩, _, t, hread, _, _,
    ⟨rfl, rfl⟩, h⟩, rfl⟩ := h
  have ht := hs.readWord ⟨token, hword, hkind⟩ rfl hread
  refine ⟨token.spelling, ?_⟩
  split at h
  · rename_i hbracket
    simp only [reads_bind, reads_at?] at h
    obtain ⟨opening, _, hopening, number, u, hnumber, closing, v, hclosing, _, w, hafter, _, _,
      ⟨rfl, rfl⟩, h⟩ := h
    obtain ⟨-, rfl⟩ := reads_kindLeaf hopening
    obtain ⟨hnumber, hu⟩ := reads_nextNumber_word hnumber
    obtain ⟨hclosing, hv⟩ := reads_nextLeaf_word hclosing
    have hw := ((ht.readWord (State.at_of_any hbracket) rfl hnumber).readWord hu rfl
      hclosing).readWord hv rfl hafter
    split at h
    · rename_i hassign
      simp only [reads_bind, reads_pure] at h
      obtain ⟨sign, _, hsign, values, x, hvalues, _, _, ⟨rfl, rfl⟩, _, _, hdeclare, rfl, rfl⟩ := h
      obtain ⟨-, rfl⟩ := reads_kindLeaf hsign
      exact ⟨.array, x, by simp [phrase, Tree.declared?],
        hw.initializer (State.at_of_any hassign) hvalues, hdeclare⟩
    · simp only [reads_bind, reads_pure] at h
      obtain ⟨_, _, ⟨rfl, rfl⟩, _, _, hdeclare, rfl, rfl⟩ := h
      exact ⟨.array, _, by simp [phrase, Tree.declared?], hw, hdeclare⟩
  · simp only [reads_bind, reads_at?] at h
    obtain ⟨_, _, ⟨rfl, rfl⟩, h⟩ := h
    split at h
    · rename_i hassign
      simp only [reads_bind, reads_pure] at h
      obtain ⟨sign, _, hsign, _, u, hread', value, v, hvalue, _, _, ⟨rfl, rfl⟩, _, _, hdeclare, rfl,
        rfl⟩ := h
      obtain ⟨-, rfl⟩ := reads_kindLeaf hsign
      exact ⟨.variable, v, by simp [phrase, Tree.declared?],
        calm_logical limit (ht.readWord (State.at_of_any hassign) rfl hread') hvalue, hdeclare⟩
    · simp only [reads_bind, reads_pure] at h
      obtain ⟨_, _, ⟨rfl, rfl⟩, _, _, hdeclare, rfl, rfl⟩ := h
      exact ⟨.variable, t, by simp [phrase, Tree.declared?], ht, hdeclare⟩

/-- The scopes are known unless the current word is a brace. A brace after a declarator is an error;
it has changed the scopes before the name was declared. -/
structure State.Settled (P : Scopes → Prop) (state : State) : Prop where
  pending : state.pending = []
  holds : ∀ {kind : Kind}, state.At kind → kind.isBrace = false → P state.scopes

/-! What holds of no declarator, and is kept if the name of one is entered, holds of the declarators
of declarations. -/

section

variable {limit : Nat} {P : List (Tree Label) → Scopes → Prop}
  (hstep : ∀ {done : List (Tree Label)} {scopes after : Scopes} {s s' : State} {tree : SyntaxTree}
    {name : String} {category : Category}, P done scopes → s.Steady scopes →
    Reads (declarator limit) s tree s' → tree.shape.declared? = some name →
    scopes.put? name category 0 "" = some after → P (done ++ [tree.shape]) after)

include hstep

/-- One more declarator. -/
theorem reads_declarator_settled {done : List (Tree Label)} {scopes : Scopes} {s s' : State}
    {tree : SyntaxTree} (hs : s.Steady scopes) (hdone : P done scopes)
    (h : Reads (declarator limit) s tree s') :
    s'.Settled (P (done ++ [tree.shape].filter fun son => son.declared?.isSome)) := by
  obtain ⟨name, category, t, hname, ht, hdeclare⟩ := reads_declarator_declare hs h
  obtain ⟨after, hput, rfl⟩ := reads_declare hdeclare
  refine ⟨ht.pending, ?_⟩
  intro kind hat hkind
  rw [ht.scopes_eq hat hkind] at hput
  simpa [hname] using hstep hdone hs h hname hput

/-- One more declaration. -/
theorem reads_declaration_induct {done : List (Tree Label)} {scopes : Scopes} {s s' : State}
    {tree : SyntaxTree} (hs : s.Steady scopes) (hat : s.At .kwInt) (hdone : P done scopes)
    (h : Reads (declaration limit) s tree s') :
    ∃ after, s'.Steady after ∧ P (done ++ tree.shape.declaratorSons) after := by
  simp only [declaration, separated, reads_branch, reads_bind, reads_pure] at h
  obtain ⟨_, ⟨keyword, _, hkeyword, _, t, hread, list, _, ⟨first, v, hfirst, rest, u, hrest,
    rfl, rfl⟩, sign, _, hsign, rfl, rfl⟩, rfl⟩ := h
  obtain ⟨⟨label, hlabel⟩, rfl⟩ := reads_spelledLeaf hkeyword
  have hv := reads_declarator_settled hstep (hs.readWord hat rfl hread) hdone hfirst
  have hu : u.Settled (P (done ++ (([first] ++ rest).map SyntaxTree.shape).filter
      fun son => son.declared?.isSome)) := by
    refine (reads_many (fun trees state => state.Settled (P (done ++
      (trees.map SyntaxTree.shape).filter fun son => son.declared?.isSome))) (fun _ => True)
      ?_ ?_ [first] hv hrest).1
    · intro before s t hs hfound trees w hround
      obtain ⟨hcomma, rfl⟩ := reads_at?.1 hfound
      simp only [reads_bind, reads_pure] at hround
      obtain ⟨comma, _, hleaf, _, x, hread, tree, _, htree, rfl, rfl⟩ := hround
      obtain ⟨hshape, rfl⟩ := reads_kindLeaf hleaf
      have hbefore := hs.holds (State.at_of_any hcomma.symm) rfl
      have hafter := reads_declarator_settled hstep (.of_readWord hs.pending hread) hbefore htree
      simpa [hshape, filter_cons] using hafter
    · intro before s t hs hfound
      exact ⟨(reads_at?.1 hfound).2 ▸ hs, trivial⟩
  obtain ⟨hsemicolon, hend, hafter⟩ := reads_semicolon_word hsign
  have hlast := hu.holds hend rfl
  refine ⟨u.scopes, .of_readWord hu.pending hafter, ?_⟩
  rw [SyntaxTree.shape_branch, Tree.declaratorSons, phrase, Tree.sons]
  simpa [hlabel, hsemicolon, filter_cons] using hlast

/-- **Declarations**, one declarator after the other. -/
theorem reads_declarations_induct {scopes : Scopes} {s s' : State} {tree : SyntaxTree}
    (hs : s.Steady scopes) (hnil : P [] scopes) (h : Reads (declarations limit) s tree s') :
    ∃ after, s'.Steady after ∧ P tree.shape.declaratorTrees after := by
  rw [declarations, reads_branch] at h
  obtain ⟨trees, h, rfl⟩ := h
  rw [SyntaxTree.shape_branch]
  refine (reads_many (fun trees state => ∃ after, state.Steady after ∧
    P ((trees.map SyntaxTree.shape).flatMap Tree.declaratorSons) after) (fun _ => True)
    ?_ ?_ [] ⟨scopes, hs, hnil⟩ h).1
  · rintro done s t ⟨after, hs, hdone⟩ hfound trees u hround
    obtain ⟨hint, rfl⟩ := reads_at?.1 hfound
    simp only [reads_bind, reads_pure] at hround
    obtain ⟨tree, _, htree, rfl, rfl⟩ := hround
    obtain ⟨later, hlater, htrees⟩ :=
      reads_declaration_induct hstep hs (State.at_of_any hint.symm) hdone htree
    exact ⟨later, hlater, by simpa using htrees⟩
  · rintro done s t hs hfound
    exact ⟨(reads_at?.1 hfound).2 ▸ hs, trivial⟩

end

/-- The names of some declarations are different from each other. -/
theorem reads_declarations_holds {limit : Nat} {scopes : Scopes} {s s' : State} {tree : SyntaxTree}
    (hs : s.Steady scopes) (hscopes : scopes ≠ []) (h : Reads (declarations limit) s tree s') :
    ∃ after, s'.Steady after ∧
      after.Holds (tree.shape.declaratorTrees.filterMap Tree.declared?) := by
  refine reads_declarations_induct
    (P := fun done scopes => scopes.Holds (done.filterMap Tree.declared?)) ?_ hs ?_ h
  · intro done scopes after s s' tree name category hdone _ _ hname hput
    simpa [hname] using hdone.put? hput
  · obtain ⟨scope, outer, rfl⟩ := exists_cons_of_ne_nil hscopes
    exact ⟨nodup_nil, scope, outer, rfl, by simp⟩

/-! ### Programs -/

/-- No word is pending, and some scope is open. -/
structure State.Open (state : State) : Prop where
  pending : state.pending = []
  scopes : state.scopes ≠ []

/-- A word leaves some scope open. -/
theorem State.Open.readWord {s s' : State} {u : Unit} (hs : s.Open)
    (h : Reads Parse.readWord s u s') : s'.Open := by
  have hsteady := State.Steady.of_readWord hs.pending h
  exact ⟨hsteady.pending, hsteady.turns.ne_nil hs.scopes⟩

/-- The names that are declared in the main function. -/
theorem reads_mainFunction_nodup {limit : Nat} {s s' : State} {tree : SyntaxTree}
    {program : Program} (hs : s.Open) (h : Reads (mainFunction limit) s tree s')
    (hshape : tree.shape = program.mainTree) :
    ((declarators program.body.declarations).map Declarator.name).Nodup := by
  simp only [mainFunction, body, reads_branch, reads_bind, reads_pure] at h
  obtain ⟨_, ⟨keyword, _, hkeyword, opening, t, hopening, closing, u, hclosing, _, v, hread,
    inner, _,
    ⟨_, ⟨brace, _, hbrace, _, w, hnext, names, x, hnames, steps, y, -, last, z, -, rfl, rfl⟩,
      rfl⟩, rfl,
    rfl⟩, rfl⟩ := h
  obtain ⟨-, rfl⟩ := reads_spelledLeaf hkeyword
  obtain ⟨hopening, -⟩ := reads_nextLeaf_word hopening
  obtain ⟨hclosing, -⟩ := reads_nextLeaf_word hclosing
  obtain ⟨-, rfl⟩ := reads_kindLeaf hbrace
  have hv := ((hs.readWord hopening).readWord hclosing).readWord hread
  obtain ⟨_, -, hnodup, -⟩ :=
    reads_declarations_holds (.of_readWord hv.pending hnext) hv.scopes hnames
  have htree : names.shape = declarationsTree program.body.declarations := by
    simp only [SyntaxTree.shape_branch, map_cons, Program.mainTree, Body.tree, phrase,
      Tree.node.injEq, List.cons.injEq] at hshape
    exact hshape.2.2.2.2.1.2.2.1
  rwa [htree, declaratorTrees_declarationsTree, filterMap_declared?_tree] at hnodup

/-- No function is read if no tree is. -/
theorem eq_of_reads_many_nil {kind : Kind} {round : Parse SyntaxTree} {limit : Nat} {s s' : State}
    (h : Reads (many (at? kind) (do return [← round]) limit) s [] s') : s = s' := by
  cases limit with
  | zero =>
    simp only [many, reads_bind, reads_at?] at h
    obtain ⟨_, _, ⟨rfl, rfl⟩, h⟩ := h
    split at h
    · simp at h
    · exact (reads_pure.1 h).2
  | succ limit =>
    simp only [many, reads_bind, reads_at?] at h
    obtain ⟨_, _, ⟨rfl, rfl⟩, h⟩ := h
    split at h
    · simp only [reads_bind, reads_pure] at h
      obtain ⟨_, _, ⟨tree, _, -, rfl, -⟩, rest, _, -, hnil, -⟩ := h
      exact nomatch hnil
    · exact (reads_pure.1 h).2

/-- The names of a program without functions. -/
theorem reads_program_wellNamed {limit : Nat} {s s' : State} {tree : SyntaxTree} {p : Program}
    (hspelled : s.Spelled) (hs : s.Open) (h : Reads (program limit) s tree s')
    (hshape : tree.shape = p.tree) (hfunctions : p.functions = []) : p.WellNamed := by
  simp only [program, reads_branch, reads_bind, reads_at?] at h
  obtain ⟨trees, ⟨_, t, hread, _, _, ⟨rfl, rfl⟩, h⟩, rfl⟩ := h
  have ht := hs.readWord hread
  simp only [SyntaxTree.shape_branch, Program.tree, hfunctions, phrase, Tree.node.injEq, true_and,
    map_nil, append_nil] at hshape
  split at h
  · -- there are global declarations
    simp only [reads_bind, reads_pure, reads_expect, reads_get] at h
    obtain ⟨names, u, hnames, _, _, ⟨rfl, rfl⟩, functions, v, hmany, token, _, ⟨-, -, rfl⟩, last, w,
      hlast, _, _, ⟨rfl, rfl⟩, h⟩ := h
    split at h
    · simp at h
    obtain ⟨rfl, -⟩ := reads_pure.1 h
    rw [map_append] at hshape
    obtain ⟨hfront, hlastShape⟩ := append_inj' hshape rfl
    have hne : p.globals.isEmpty = false := by
      by_contra hempty
      rw [if_pos (by simpa using hempty)] at hfront
      simp at hfront
    simp only [hne, Bool.false_eq_true, if_false, singleton_append, map_cons,
      List.cons.injEq, map_eq_nil_iff] at hfront
    obtain ⟨hglobals, rfl⟩ := hfront
    obtain rfl := eq_of_reads_many_nil hmany
    obtain ⟨after, hu, hnodup, scope, outer, hafter, -⟩ :=
      reads_declarations_holds (.of_readWord hs.pending hread) hs.scopes hnames
    have hopen : u.Open := ⟨hu.pending, hu.turns.ne_nil (by simp [hafter])⟩
    rw [hglobals, declaratorTrees_declarationsTree, filterMap_declared?_tree] at hnodup
    exact ⟨hnodup, reads_mainFunction_nodup hopen hlast (by simpa using hlastShape)⟩
  · -- there are none
    simp only [reads_bind, reads_pure, reads_expect, reads_get] at h
    obtain ⟨_, _, ⟨rfl, rfl⟩, functions, v, hmany, token, _, ⟨-, -, rfl⟩, last, w, hlast, _, _,
      ⟨rfl, rfl⟩, h⟩ := h
    split at h
    · simp at h
    obtain ⟨rfl, -⟩ := reads_pure.1 h
    rw [nil_append, map_append] at hshape
    obtain ⟨hfront, hlastShape⟩ := append_inj' hshape rfl
    obtain ⟨⟨list, hlist⟩, -⟩ := reads_functions (hspelled.readWord hread) hmany
    have hglobals : p.globals = [] := by
      by_contra hne
      rw [if_neg (by simpa using hne), hlist] at hfront
      -- a function is no declaration
      obtain ⟨f, _, -, hf, -⟩ := map_eq_cons_iff.1 hfront
      simp [Function.tree, declarationsTree, phrase] at hf
    simp only [hglobals, isEmpty_nil, if_true, map_eq_nil_iff] at hfront
    subst hfront
    obtain rfl := eq_of_reads_many_nil hmany
    refine ⟨?_, reads_mainFunction_nodup ht hlast (by simpa using hlastShape)⟩
    rw [hglobals]
    exact nodup_nil

end Parse

/-- **A name is declared once**: in a program without functions that the parser accepts, neither the
global names nor those of the main function are declared twice. -/
theorem wellNamed_of_parse {lines : List TokenLine}
    (hlines : ∀ line ∈ lines, line.isWellSpelled = true) {parsed : Parsed} {program : Program}
    (h : parse lines = .ok parsed) (hshape : parsed.tree.shape = program.tree)
    (hfunctions : program.functions = []) : program.WellNamed := by
  unfold parse at h
  split at h
  · simp at h
  · rename_i tree state hread
    obtain rfl := Except.ok.inj h
    have hspelled : (Parse.State.initial lines).Spelled :=
      ⟨by simp [Parse.State.initial], by simp [Parse.State.initial], hlines⟩
    exact Parse.reads_program_wellNamed hspelled ⟨rfl, cons_ne_nil _ _⟩ hread hshape hfunctions

end ScoreLang
