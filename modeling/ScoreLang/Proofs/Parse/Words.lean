import ScoreLang.Parse.Words
import ScoreLang.Proofs.Outcome
import ScoreLang.Proofs.Token.Spelling

/-!
# What the Parser Reads

One lemma for each action that the grammar rules are made of. A rule is given words that are spelled
as their kinds demand (`State.Spelled`), and leaves such words; what it returns is described by its
`shape`, the tree of its labels.

A list of phrases is read by `many`, one round after the other. `reads_many` is the induction over
the rounds: what holds before the first round, and is kept by every round, holds after the last
one. `reads_chain` is its use for lists with signs between their elements.
-/

namespace ScoreLang

open List

/-- The labels of a syntax tree. -/
def SyntaxTree.shape (tree : SyntaxTree) : Tree Label := tree.map Node.label

@[simp] theorem SyntaxTree.shape_leaf (label : Label) (line : Nat) :
    (SyntaxTree.leaf label line).shape = .node label [] := by
  simp [SyntaxTree.shape, SyntaxTree.leaf]

/-- The shape of a branch is a phrase. -/
@[simp] theorem SyntaxTree.shape_branch (rule : Rule) (line : Nat) (sons : List SyntaxTree) :
    (SyntaxTree.branch rule line sons).shape = phrase rule (sons.map SyntaxTree.shape) := by
  simp [SyntaxTree.shape, SyntaxTree.branch, phrase]

/-! ### Labels of words -/

/-- A text without a blank and without an angle bracket is the label of a word. -/
theorem Label.ofText_eq_word {text : String} (hbracket : '<' ∉ text.toList)
    (hblank : ' ' ∉ text.toList) : Label.ofText text = .word text := by
  have hrule : Rule.all.find? (fun form => form.text == text) = none := by
    rw [List.find?_eq_none]
    intro form hmem heq
    have hform : '<' ∈ form.text.toList := by
      rw [Rule.text, String.toList_append, String.toList_append]
      simp
    rw [beq_iff_eq.mp heq] at hform
    exact hbracket hform
  have hmark : ∀ mark : String, ' ' ∈ mark.toList → Label.afterMark? mark text = none := by
    intro mark hmem
    rw [Label.afterMark?, if_neg]
    intro hprefix
    obtain ⟨rest, hrest⟩ := isPrefixOf_iff_prefix.mp hprefix
    exact hblank (hrest ▸ mem_append_left rest hmem)
  rw [Label.ofText, hrule]
  simp only [hmark Label.nameMark (by decide), hmark Label.numberMark (by decide)]

/-- A spelling of a reserved word is the label of a word. -/
theorem Spelling.ofText {kind : Kind} (hkind : kind.isReserved = true)
    (keyword : Spelling kind.text) : Label.ofText keyword.text = .word keyword.text := by
  have hplain : ∀ c : Char, c.toLower = c → c ∉ kind.text.toList → c ∉ keyword.text.toList := by
    intro c hlower hnot hmem
    apply hnot
    rw [← keyword.lowerCase_text, lowerCase, String.toList_ofList]
    exact mem_map.mpr ⟨c, hmem, hlower⟩
  refine Label.ofText_eq_word (hplain _ (by decide) ?_) (hplain _ (by decide) ?_) <;>
    cases kind <;> first | (simp [Kind.isReserved] at hkind; done) | decide

theorem AddSign.ofText (sign : AddSign) : Label.ofText sign.text = .word sign.text := by
  cases sign <;> exact Label.ofText_eq_word (by decide) (by decide)

theorem LogicSign.ofText (sign : LogicSign) : Label.ofText sign.text = .word sign.text := by
  cases sign <;> decide +kernel

/-- A well-spelled token of addition is one of its signs. -/
theorem Token.exists_addSign {token : Token} (hspelled : token.isWellSpelled = true)
    (hkind : token.kind = .plus ∨ token.kind = .minus) :
    ∃ sign : AddSign, token.spelling = sign.text := by
  obtain ⟨kind, text⟩ := token
  rcases hkind with rfl | rfl
  · exact ⟨.plus, eq_of_beq hspelled⟩
  · exact ⟨.minus, eq_of_beq hspelled⟩

/-- A well-spelled token of comparison is one of its signs. -/
theorem Token.exists_logicSign {token : Token} (hspelled : token.isWellSpelled = true)
    (hkind : token.kind.isLogic = true) : ∃ sign : LogicSign, token.spelling = sign.text := by
  obtain ⟨kind, text⟩ := token
  cases kind with
  | less => exact ⟨.less, eq_of_beq hspelled⟩
  | greater => exact ⟨.greater, eq_of_beq hspelled⟩
  | lessEqual => exact ⟨.lessEqual, eq_of_beq hspelled⟩
  | greaterEqual => exact ⟨.greaterEqual, eq_of_beq hspelled⟩
  | notEqual => exact ⟨.notEqual, eq_of_beq hspelled⟩
  | equal => exact ⟨.equal, eq_of_beq hspelled⟩
  | both => exact ⟨.both, eq_of_beq hspelled⟩
  | either => exact ⟨.either, eq_of_beq hspelled⟩
  | _ => simp [Kind.isLogic, Token.isWellSpelled] at hkind hspelled

namespace Parse

/-! ### Well-spelled words -/

/-- The words that the parser has still to look at are well spelled. -/
structure State.Spelled (state : State) : Prop where
  word : ∀ token, state.word = some token → token.isWellSpelled = true
  pending : ∀ token, some token ∈ state.pending → token.isWellSpelled = true
  lines : ∀ line ∈ state.lines, line.isWellSpelled = true

/-- What is left after the line ends was there before. -/
theorem mem_of_mem_skipEnters {line : Nat} {lines : List TokenLine} {item : TokenLine}
    (h : item ∈ (skipEnters line lines).2) : item ∈ lines := by
  induction lines generalizing line with
  | nil => simp [skipEnters] at h
  | cons first lines ih =>
    cases first with
    | enter => exact mem_cons_of_mem _ (ih h)
    | token _ => exact h
    | bare _ => exact h
    | blank => exact h

variable {cause : GrammarCause} {kind : Kind} {trees : List SyntaxTree} {limit : Nat}
  {continues : Parse Bool} {rule : Rule} {s s' : State} {name text : String} {tree : SyntaxTree}
  {token : Token} {u : Unit}

/-- The scopes are there, unless none is open. -/
@[simp] theorem reads_openScopes {scopes : Scopes} :
    Reads openScopes s scopes s' ↔ s.scopes ≠ [] ∧ scopes = s.scopes ∧ s = s' := by
  simp only [openScopes, reads_bind, reads_get]
  constructor
  · rintro ⟨_, _, ⟨rfl, rfl⟩, h⟩
    split at h
    · simp at h
    · rename_i hscopes
      obtain ⟨rfl, rfl⟩ := reads_pure.1 h
      exact ⟨by simp [hscopes], hscopes.symm, rfl⟩
  · rintro ⟨hscopes, rfl, rfl⟩
    refine ⟨s, s, ⟨rfl, rfl⟩, ?_⟩
    split
    · contradiction
    · rename_i hcons
      exact reads_pure.2 ⟨hcons, rfl⟩

/-- The innermost scope is left, unless none is open. -/
@[simp] theorem reads_leaveScope :
    Reads leaveScope s u s' ↔ s.scopes ≠ [] ∧ s' = { s with scopes := s.scopes.tail } := by
  simp only [leaveScope, reads_bind, reads_openScopes, reads_modify]
  constructor
  · rintro ⟨_, _, ⟨hscopes, rfl, rfl⟩, rfl⟩
    exact ⟨hscopes, rfl⟩
  · rintro ⟨hscopes, rfl⟩
    exact ⟨_, _, ⟨hscopes, rfl, rfl⟩, rfl⟩

/-- A brace changes nothing but the scopes. -/
theorem reads_braceScope (h : Reads (braceScope kind) s u s') :
    s'.word = s.word ∧ s'.pending = s.pending ∧ s'.lines = s.lines := by
  simp only [braceScope] at h
  split at h
  · simp only [reads_modify] at h
    subst h
    exact ⟨rfl, rfl, rfl⟩
  split at h
  · simp only [reads_bind, reads_openScopes] at h
    obtain ⟨_, _, ⟨-, rfl, rfl⟩, h⟩ := h
    split at h
    · simp only [reads_modify] at h
      subst h
      exact ⟨rfl, rfl, rfl⟩
    · simp [fail] at h
  · simp only [reads_pure] at h
    obtain ⟨-, rfl⟩ := h
    exact ⟨rfl, rfl, rfl⟩

/-- The next line is well spelled. -/
theorem State.Spelled.readLine (hs : s.Spelled) (h : Reads Parse.readLine s u s') : s'.Spelled := by
  simp only [Parse.readLine, reads_bind, reads_get] at h
  obtain ⟨_, _, ⟨rfl, rfl⟩, h⟩ := h
  have hlines : ∀ item ∈ (skipEnters s.line s.lines).2, item.isWellSpelled = true :=
    fun item hitem => hs.lines item (mem_of_mem_skipEnters hitem)
  split at h
  · simp only [reads_set] at h
    subst h
    exact ⟨by simp, hs.pending, by simp⟩
  · rename_i token rest hskip
    rw [hskip] at hlines
    simp only [reads_bind, reads_set, reads_modify] at h
    obtain ⟨_, _, rfl, _, t, hbrace, rfl⟩ := h
    obtain ⟨-, hpending, hrest⟩ := reads_braceScope hbrace
    refine ⟨?_, ?_, ?_⟩
    · rintro _ ⟨rfl⟩
      exact hlines (.token token) mem_cons_self
    · rw [hpending]
      exact hs.pending
    · rw [hrest]
      exact fun item hitem => hlines item (mem_cons_of_mem _ hitem)
  · simp at h
  · simp at h

/-- Reading a word leaves well-spelled words. -/
theorem State.Spelled.readWord (hs : s.Spelled) (h : Reads Parse.readWord s u s') : s'.Spelled := by
  simp only [Parse.readWord, reads_bind, reads_get] at h
  obtain ⟨_, _, ⟨rfl, rfl⟩, h⟩ := h
  split at h
  · rename_i word rest hpending
    simp only [reads_set] at h
    subst h
    have hall := hs.pending
    rw [hpending] at hall
    refine ⟨?_, ?_, hs.lines⟩
    · rintro token rfl
      exact hall token mem_cons_self
    · exact fun token hmem => hall token (mem_cons_of_mem _ hmem)
  · exact hs.readLine h

/-- Words that are taken back stay well spelled. -/
theorem State.Spelled.takeBack {words : List Token} (hs : s.Spelled)
    (htoken : token.isWellSpelled = true) (hwords : ∀ t ∈ words, t.isWellSpelled = true)
    (h : Reads (Parse.takeBack token words) s u s') :
    s'.Spelled := by
  simp only [Parse.takeBack, reads_modify] at h
  subst h
  refine ⟨?_, ?_, hs.lines⟩
  · rintro _ ⟨rfl⟩
    exact htoken
  · intro t hmem
    simp only [mem_append, mem_map, mem_singleton] at hmem
    rcases hmem with (hmem | ⟨_, hmem, heq⟩) | hmem
    · exact hs.pending t hmem
    · rw [Option.some.injEq] at heq
      exact heq ▸ hwords _ hmem
    · exact hs.word t hmem.symm

theorem State.Spelled.openScope (hs : s.Spelled) : s.openScope.Spelled :=
  ⟨hs.word, hs.pending, hs.lines⟩

/-! ### The current word -/

theorem exists_token_of_any {word : Option Token} {test : Token → Bool}
    (h : word.any test = true) : ∃ token, word = some token ∧ test token = true := by
  cases word with
  | none => simp at h
  | some token => exact ⟨token, rfl, h⟩

@[simp] theorem reads_fail {α : Type} {place : String} {a : α} :
    Reads (fail place cause : Parse α) s a s' ↔ False := by
  simp [fail]

/-- What is read off the state. -/
theorem reads_look {α : Type} {look : State → α} {a : α} :
    Reads (do return look (← get) : Parse α) s a s' ↔ a = look s ∧ s = s' := by
  simp only [reads_bind, reads_get, reads_pure]
  constructor
  · rintro ⟨_, _, ⟨rfl, rfl⟩, rfl, rfl⟩
    exact ⟨rfl, rfl⟩
  · rintro ⟨rfl, rfl⟩
    exact ⟨_, _, ⟨rfl, rfl⟩, rfl, rfl⟩

@[simp] theorem reads_at? {found : Bool} :
    Reads (at? kind) s found s' ↔
      found = (s.word.any fun token => token.kind == kind) ∧ s = s' :=
  reads_look

@[simp] theorem reads_atAny? {kinds : List Kind} {found : Bool} :
    Reads (atAny? kinds) s found s' ↔
      found = (s.word.any fun token => kinds.contains token.kind) ∧ s = s' :=
  reads_look

/-- The current word is the expected one. -/
@[simp] theorem reads_expect :
    Reads (expect kind cause rule) s token s' ↔
      s.word = some token ∧ token.kind = kind ∧ s = s' := by
  simp only [expect, reads_bind, reads_get]
  constructor
  · rintro ⟨_, _, ⟨rfl, rfl⟩, h⟩
    split at h
    · rename_i hword
      split at h
      · simp only [reads_pure] at h
        obtain ⟨rfl, rfl⟩ := h
        exact ⟨hword, ‹_›, rfl⟩
      · simp at h
    · simp at h
  · rintro ⟨hword, hkind, rfl⟩
    refine ⟨_, _, ⟨rfl, rfl⟩, ?_⟩
    simp [hword, hkind]

@[simp] theorem reads_spelling :
    Reads spelling s text s' ↔ text = (s.word.map (·.spelling)).getD "" ∧ s = s' :=
  reads_look

/-! ### Leaves and branches -/

@[simp] theorem reads_leaf {label : Label} :
    Reads (leaf label) s tree s' ↔ tree = .leaf label s.line ∧ s = s' :=
  reads_look

theorem reads_kindLeaf (h : Reads (kindLeaf kind) s tree s') :
    tree.shape = word kind.text ∧ s = s' := by
  rw [kindLeaf, reads_leaf] at h
  obtain ⟨rfl, rfl⟩ := h
  exact ⟨by simp [word], rfl⟩

theorem reads_comma (h : Reads (kindLeaf .comma) s tree s') :
    (∃ _ : Unit, tree.shape = word ",") ∧ s = s' :=
  ⟨⟨(), (reads_kindLeaf h).1⟩, (reads_kindLeaf h).2⟩

theorem reads_expectLeaf (h : Reads (expectLeaf kind cause rule) s tree s') :
    tree.shape = word kind.text ∧ s = s' := by
  simp only [expectLeaf, reads_bind, reads_expect] at h
  obtain ⟨_, _, ⟨-, -, rfl⟩, h⟩ := h
  exact reads_kindLeaf h

/-- The next word becomes a leaf. -/
theorem reads_nextLeaf (hs : s.Spelled) (h : Reads (nextLeaf kind cause rule) s tree s') :
    tree.shape = word kind.text ∧ s'.Spelled := by
  simp only [nextLeaf, reads_bind] at h
  obtain ⟨_, _, hread, h⟩ := h
  obtain ⟨hshape, rfl⟩ := reads_expectLeaf h
  exact ⟨hshape, hs.readWord hread⟩

/-- The leaf of a word that is the label of a word. -/
theorem reads_spelledLeaf_word (hword : s.word = some token) (htext : token.spelling = text)
    (hlabel : Label.ofText text = .word text) (h : Reads spelledLeaf s tree s') :
    tree.shape = word text ∧ s = s' := by
  simp only [spelledLeaf, reads_bind, reads_spelling, reads_leaf] at h
  obtain ⟨_, _, ⟨rfl, rfl⟩, rfl, rfl⟩ := h
  rw [hword]
  simp [word, htext, hlabel]

/-- The leaf of a reserved word keeps its spelling. -/
theorem reads_spelledLeaf_reserved (hs : s.Spelled) (hword : s.word = some token)
    (hkind : token.kind = kind) (hreserved : kind.isReserved = true)
    (h : Reads spelledLeaf s tree s') :
    (∃ keyword : Spelling kind.text, tree.shape = word keyword.text) ∧ s = s' := by
  have hlower : lowerCase token.spelling = kind.text := by
    have hspelled := hs.word _ hword
    obtain ⟨kind', text⟩ := token
    subst hkind
    cases kind' <;> simp_all [Kind.isReserved, Token.isWellSpelled]
  let keyword : Spelling kind.text := ⟨token.spelling, hlower⟩
  obtain ⟨hshape, heq⟩ := reads_spelledLeaf_word hword rfl (Spelling.ofText hreserved keyword) h
  exact ⟨⟨keyword, hshape⟩, heq⟩

/-- A number is a run of digits. -/
theorem State.Spelled.numeral (hs : s.Spelled) (hword : s.word = some token)
    (hkind : token.kind = .number) :
    ∃ number : Numeral, number.digits = token.spelling := by
  obtain ⟨kind, text⟩ := token
  subst hkind
  have hspelled := hs.word _ hword
  simp only [Token.isWellSpelled, Bool.and_eq_true, Bool.not_eq_true', isEmpty_eq_false_iff,
    all_eq_true] at hspelled
  exact ⟨⟨text, hspelled.1, hspelled.2⟩, rfl⟩

/-- The next word is a number. -/
theorem reads_nextNumber (hs : s.Spelled) (h : Reads (nextNumber rule) s (text, tree) s') :
    (∃ number : Numeral, number.digits = text ∧ tree.shape = number.leaf) ∧ s'.Spelled := by
  simp only [nextNumber, reads_bind, reads_expect, reads_leaf, reads_pure, Prod.mk.injEq] at h
  obtain ⟨_, t, hread, token, _, ⟨hword, hkind, rfl⟩, _, _, ⟨rfl, rfl⟩, ⟨rfl, rfl⟩, rfl⟩ := h
  have ht := hs.readWord hread
  obtain ⟨number, hnumber⟩ := ht.numeral hword hkind
  exact ⟨⟨number, hnumber, by simp [Numeral.leaf, hnumber]⟩, ht⟩

/-- The next word is a name. -/
theorem reads_nextName (hs : s.Spelled) (h : Reads (nextName cause rule) s (name, tree) s') :
    tree.shape = nameLeaf name ∧ s'.Spelled := by
  simp only [nextName, reads_bind, reads_expect, reads_leaf, reads_pure, Prod.mk.injEq] at h
  obtain ⟨_, t, hread, token, _, ⟨hword, hkind, rfl⟩, _, _, ⟨rfl, rfl⟩, ⟨rfl, rfl⟩, rfl⟩ := h
  exact ⟨by simp [nameLeaf], hs.readWord hread⟩

/-- A rule makes a branch of what it reads. -/
@[simp] theorem reads_branch {sons : Parse (List SyntaxTree)} :
    Reads (branch rule sons) s tree s' ↔
      ∃ trees, Reads sons s trees s' ∧ tree = .branch rule s.line trees := by
  simp only [branch, reads_bind, reads_get, reads_pure]
  constructor
  · rintro ⟨_, _, ⟨rfl, rfl⟩, trees, _, hsons, rfl, rfl⟩
    exact ⟨trees, hsons, rfl⟩
  · rintro ⟨trees, hsons, rfl⟩
    exact ⟨_, _, ⟨rfl, rfl⟩, trees, _, hsons, rfl, rfl⟩

/-- The check leaves the words alone. -/
theorem State.Spelled.checkDeclared {place : String} (hs : s.Spelled)
    (h : Reads (Parse.checkDeclared name place) s u s') : s'.Spelled := by
  simp only [Parse.checkDeclared, reads_bind, reads_openScopes] at h
  obtain ⟨_, _, ⟨-, rfl, rfl⟩, h⟩ := h
  split at h
  · simp at h
  · simp only [reads_pure] at h
    exact h.2 ▸ hs

/-- So does a declaration. -/
theorem State.Spelled.declare {category : Category} (hs : s.Spelled)
    (h : Reads (Parse.declare name category rule) s u s') :
    s'.Spelled := by
  simp only [Parse.declare, reads_bind, reads_openScopes] at h
  obtain ⟨_, _, ⟨-, rfl, rfl⟩, h⟩ := h
  split at h
  · simp only [reads_modify] at h
    subst h
    exact ⟨hs.word, hs.pending, hs.lines⟩
  · simp at h

/-! ### Repetition -/

/-- What holds before the rounds of a repetition and is kept by each of them holds at its end, and
there is no reason to go on. -/
theorem reads_many {round : Parse (List SyntaxTree)} (P : List SyntaxTree → State → Prop)
    (Q : State → Prop) (hcontinue : ∀ done s t, P done s → Reads continues s true t → ∀ trees u,
      Reads round t trees u → P (done ++ trees) u)
    (hstop : ∀ done s t, P done s → Reads continues s false t → P done t ∧ Q t)
    (done : List SyntaxTree) (hs : P done s) (h : Reads (many continues round limit) s trees s') :
    P (done ++ trees) s' ∧ Q s' := by
  have hend : ∀ {done trees : List SyntaxTree} {s t : State}, P done s →
      Reads continues s false t → trees = [] ∧ t = s' → P (done ++ trees) s' ∧ Q s' := by
    rintro done _ s _ hs hfound ⟨rfl, rfl⟩
    rw [append_nil]
    exact hstop done s _ hs hfound
  induction limit generalizing done trees s with
  | zero =>
    simp only [many, reads_bind] at h
    obtain ⟨found, t, hfound, h⟩ := h
    cases found with
    | false => exact hend hs hfound (by simpa using h)
    | true => simp at h
  | succ limit ih =>
    simp only [many, reads_bind] at h
    obtain ⟨found, t, hfound, h⟩ := h
    cases found with
    | false => exact hend hs hfound (by simpa using h)
    | true =>
      simp only [if_true, reads_bind, reads_pure] at h
      obtain ⟨first, u, hfirst, rest, _, hrest, rfl, rfl⟩ := h
      rw [← append_assoc]
      exact ih _ (hcontinue done s t hs hfound first u hfirst) hrest

/-- A list of phrases: what holds of no tree, and is kept if the trees of a round are put in front,
holds of the trees of a repetition. -/
theorem reads_many_list {round : Parse (List SyntaxTree)} (R : List SyntaxTree → Prop) (hnil : R [])
    (hlook : ∀ {found : Bool} {s t : State}, Reads continues s found t → s = t)
    (hround : ∀ {s t : State} {trees : List SyntaxTree}, s.Spelled → Reads continues s true s →
      Reads round s trees t → t.Spelled ∧ ∀ rest, R rest → R (trees ++ rest)) (hs : s.Spelled)
    (h : Reads (many continues round limit) s trees s') : R trees ∧ s'.Spelled := by
  have hmany : (∀ rest, R rest → R ([] ++ trees ++ rest)) ∧ s'.Spelled := by
    refine (reads_many (fun trees s => (∀ rest, R rest → R (trees ++ rest)) ∧ s.Spelled)
      (fun _ => True) ?_ ?_ [] ⟨fun rest hrest => hrest, hs⟩ h).1
    · rintro done s t ⟨hdone, hs⟩ hfound trees u hu
      obtain rfl := hlook hfound
      obtain ⟨hspelled, htrees⟩ := hround hs hfound hu
      refine ⟨fun rest hrest => ?_, hspelled⟩
      rw [append_assoc]
      exact hdone _ (htrees rest hrest)
    · rintro done s t hs hfound
      exact ⟨hlook hfound ▸ hs, trivial⟩
  exact ⟨by simpa using hmany.1 [] hnil, hmany.2⟩

/-- A chain of operands with signs between them: if the operands and the signs are read as phrases,
then every round extends the phrase of the chain. -/
theorem reads_chain {C S O : Type} {sons : C → List (Tree Label)} {text : S → String}
    {tree : O → Tree Label}
    (hextend : ∀ c sign o, ∃ c', sons c' = sons c ++ [word (text sign), tree o])
    {sign operand : Parse SyntaxTree}
    (hlook : ∀ {found : Bool} {s t : State}, Reads continues s found t → s = t)
    (hsign : ∀ {s t : State} {leaf : SyntaxTree}, s.Spelled → Reads continues s true s →
      Reads sign s leaf t → (∃ x, leaf.shape = word (text x)) ∧ s = t)
    (hoperand : ∀ {s t : State} {result : SyntaxTree}, s.Spelled → Reads operand s result t →
      (∃ o, result.shape = tree o) ∧ t.Spelled) {done : List SyntaxTree}
    (hdone : ∃ c, done.map SyntaxTree.shape = sons c) (hs : s.Spelled)
    (h : Reads (many continues (do
      let leaf ← sign
      readWord
      return [leaf, ← operand]) limit) s trees s') :
    (∃ c, (done ++ trees).map SyntaxTree.shape = sons c) ∧ s'.Spelled := by
  refine (reads_many (fun trees s => (∃ c, trees.map SyntaxTree.shape = sons c) ∧ s.Spelled)
    (fun _ => True) ?_ ?_ done ⟨hdone, hs⟩ h).1
  · rintro done s t ⟨⟨c, hc⟩, hs⟩ hfound trees u hround
    obtain rfl := hlook hfound
    simp only [reads_bind, reads_pure] at hround
    obtain ⟨leaf, t, hleaf, _, v, hread, result, _, hresult, rfl, rfl⟩ := hround
    obtain ⟨⟨x, hx⟩, rfl⟩ := hsign hs hfound hleaf
    obtain ⟨⟨o, ho⟩, hu⟩ := hoperand (hs.readWord hread) hresult
    obtain ⟨c', hc'⟩ := hextend c x o
    exact ⟨⟨c', by simp [hc', hc, hx, ho]⟩, hu⟩
  · rintro done s t hs hfound
    exact ⟨hlook hfound ▸ hs, trivial⟩

/-- The elements of a list with commas between them. -/
theorem reads_separated {O : Type} {tree : O → Tree Label} {element : Parse SyntaxTree}
    (helement : ∀ {s t : State} {result : SyntaxTree}, s.Spelled → Reads element s result t →
      (∃ o, result.shape = tree o) ∧ t.Spelled) (hs : s.Spelled)
    (h : Reads (separated limit element) s trees s') :
    (∃ (first : O) (rest : List O),
      trees.map SyntaxTree.shape = separatedBy "," ((first :: rest).map tree)) ∧ s'.Spelled := by
  simp only [separated, reads_bind, reads_pure] at h
  obtain ⟨first, t, hfirst, rest, _, hrest, rfl, rfl⟩ := h
  obtain ⟨⟨o, ho⟩, ht⟩ := helement hs hfirst
  have hextend : ∀ (c : O × List O) (_ : Unit) (o : O), ∃ c' : O × List O,
      separatedBy "," ((c'.1 :: c'.2).map tree)
        = separatedBy "," ((c.1 :: c.2).map tree) ++ [word ",", tree o] := by
    intro c _ o
    exact ⟨(c.1, c.2 ++ [o]), by simp [separatedBy]⟩
  have hdone : ∃ c : O × List O,
      [first].map SyntaxTree.shape = separatedBy "," ((c.1 :: c.2).map tree) :=
    ⟨(o, []), by simp [separatedBy, ho]⟩
  obtain ⟨⟨c, hc⟩, hs'⟩ := reads_chain hextend (fun h => (reads_at?.mp h).2)
    (fun _ _ h => reads_comma h) helement hdone ht hrest
  exact ⟨⟨c.1, c.2, hc⟩, hs'⟩

end Parse

end ScoreLang
