import ScoreLang.Proofs.Parse.Desk
import ScoreLang.Proofs.Parse.Leaves
import ScoreLang.Proofs.Tree.Bench

/-!
# Two Parsers Side by Side

`Mirrors` relates an action of the parser, which returns trees, to work at a desk, which builds
them. Both are started in the same state, with some trees already built; they must agree on how
they end and on the state that they reach, the trees that the work has built are known, and the
journal has been continued with orderly entries. The number of words that may be read is part of
the relation.

The relation is used like a weakest precondition: `Mirrors.bind` takes two `do` blocks apart into
their steps, and the other lemmas do one step each.

`State.Calm` is the state of affairs between two rules: no word is pending, no word of the list was
lost, and there is a budget of two reads for every word that is left, and one more. A word is read
twice at most, because only the words of a variable are taken back and they are not taken back
again.
-/

namespace ScoreLang

open List

namespace Desk

/-! ### The journal -/

/-- What is expected of an entry: at most four words are pending, they and the tokens that have not
been read are the last ones of the list, in their order, no word is pending when an expression
begins, and a rule ends where it began. -/
def Event.Orderly (words : List Token) : Event → Prop
  | .read state => state.pending.length ≤ 4 ∧ state.remaining <:+ words
  | .takenBack state => state.pending.length ≤ 4 ∧ state.remaining <:+ words
  | .begun rule state => rule = .expression → state.pending = []
  | .ended _ before after => after = before

/-- The journal was continued with orderly entries. Of the words that might be read, `left` were
not. -/
def Continued (words : List Token) (budget left : Nat) (journal journal' : List Event) : Prop :=
  ∃ events, journal' = journal ++ events ∧ (∀ event ∈ events, event.Orderly words) ∧
    events.countP Event.isRead + left ≤ budget

variable {words : List Token} {budget left last : Nat} {journal journal' journal'' : List Event}

/-- Nothing has happened. -/
theorem Continued.refl : Continued words budget budget journal journal :=
  ⟨[], (append_nil _).symm, by simp, by simp⟩

/-- One part of the journal after another. -/
theorem Continued.trans (h : Continued words budget left journal journal')
    (h' : Continued words left last journal' journal'') :
    Continued words budget last journal journal'' := by
  obtain ⟨events, rfl, horderly, hcount⟩ := h
  obtain ⟨events', rfl, horderly', hcount'⟩ := h'
  refine ⟨events ++ events', by simp, ?_, ?_⟩
  · intro event hevent
    rcases mem_append.1 hevent with hevent | hevent
    · exact horderly event hevent
    · exact horderly' event hevent
  · rw [countP_append]
    omega

/-- Less may be left of the budget. -/
theorem Continued.mono (h : Continued words budget left journal journal') (hle : last ≤ left) :
    Continued words budget last journal journal' := by
  obtain ⟨events, hevents, horderly, hcount⟩ := h
  exact ⟨events, hevents, horderly, by omega⟩

/-- An entry that does not ask for a word is free. -/
theorem Continued.note {event : Event} (horderly : event.Orderly words)
    (hread : event.isRead = false) : Continued words budget budget journal (journal ++ [event]) :=
  ⟨[event], rfl, by simpa using horderly, by simp [hread]⟩

/-- A word is read, and paid for. -/
theorem Continued.read {state : Parse.State} (horderly : (Event.read state).Orderly words)
    (hbudget : 0 < budget) :
    Continued words budget (budget - 1) journal (journal ++ [.read state]) :=
  ⟨[.read state], rfl, by simpa using horderly, by simp [Event.isRead]; omega⟩

end Desk

/-! ### Work -/

namespace Work

variable {α β : Type} {desk : Desk}

/-- The desk reads what the parser reads. -/
theorem outcome_look_of_ok {action : Parse α} {x : α} {t : Parse.State}
    (h : action.run desk.state = .ok (x, t)) :
    outcome (look action) desk = (.ok x, { desk with state := t }) := by
  have hget : outcome (get : Work Desk) desk = (.ok desk, desk) := rfl
  rw [look, outcome_bind_of_ok hget, h]
  rfl

/-- The desk fails if the parser fails. -/
theorem outcome_look_of_error {action : Parse α} {fault : ParseFault}
    (h : action.run desk.state = .error fault) :
    outcome (look action) desk = (.error (.rejected fault), desk) := by
  have hget : outcome (get : Work Desk) desk = (.ok desk, desk) := rfl
  rw [look, outcome_bind_of_ok hget, h]
  rfl

/-- The desk moves on the workbench. -/
theorem outcome_move (desk : Desk) {action : Workbench → Except Workbench.Fault Workbench}
    {bench : Workbench} (h : action desk.bench = .ok bench) :
    outcome (move action) desk = (.ok (), { desk with bench := bench }) := by
  have hget : outcome (get : Work Desk) desk = (.ok desk, desk) := rfl
  rw [move, outcome_bind_of_ok hget, h]
  rfl

/-- A rule ends where it began. -/
theorem outcome_leave {bench : Workbench} (hopen : bench.Open) (rule : Rule) (line : Nat)
    (sons : List SyntaxTree) (state : Parse.State) (journal : List Desk.Event) :
    outcome (leave rule bench.building)
      ⟨state, (bench.addBranch (.rule rule) line).extend sons, journal⟩
      = (.ok (), ⟨state, bench.extend [.branch rule line sons],
          journal ++ [.ended rule bench.building bench.building]⟩) := by
  have hcurrent := hopen.current_addBranch rule line sons
  have hback := outcome_move ⟨state, (bench.addBranch (.rule rule) line).extend sons, journal⟩
    (hopen.back_addBranch rule line sons)
  have hleave : outcome (leave rule bench.building)
      ⟨state, (bench.addBranch (.rule rule) line).extend sons, journal⟩
      = outcome (if ((bench.addBranch (.rule rule) line).extend sons).current.any fun entry =>
          entry.2.node.label == .rule rule then do
            move Workbench.back
            note (.ended rule bench.building (← get).bench.building)
          else throw (.displaced rule))
        ⟨state, (bench.addBranch (.rule rule) line).extend sons, journal⟩ := rfl
  rw [hleave, if_pos hcurrent, outcome_bind_of_ok hback]
  rfl

end Work

/-- The kinds of the words of a list. -/
theorem TokenLine.map_kind_wordsOf (lines : List TokenLine) :
    (Parse.wordsOf lines).map Token.kind = TokenLine.kinds lines := by
  rw [Parse.wordsOf, TokenLine.kinds, map_map]
  exact map_congr_left fun token _ => token.kind_plain

/-- How a list of lines may be rejected: by an error, because it ends with an operand, because a
line is not whole, or because a right brace after a comma has closed a scope too many. No bound is
reached. -/
def ParseFault.Fits (source : List TokenLine) : ParseFault → Prop
  | .error _ => True
  | .endOfTokens => ∃ token, (Parse.wordsOf source).getLast? = some token ∧
      token.kind.endsOperand = true
  | .missingWord => source.all TokenLine.isWhole = false
  | .noScope => [.comma, .rightBrace] <:+: TokenLine.kinds source
  | .exhausted => False

namespace Parse

/-! ### Actions that look at the current word -/

section

variable {s : State} {fault : ParseFault → Prop}

@[simp] theorem meets_at? {kind : Kind} {post : Bool → State → Prop} :
    Meets (at? kind) s fault post ↔ post (s.word.any fun token => token.kind == kind) s :=
  Iff.rfl

@[simp] theorem meets_atAny? {kinds : List Kind} {post : Bool → State → Prop} :
    Meets (atAny? kinds) s fault post
      ↔ post (s.word.any fun token => kinds.contains token.kind) s :=
  Iff.rfl

@[simp] theorem meets_spelling {post : String → State → Prop} :
    Meets spelling s fault post ↔ post ((s.word.map (·.spelling)).getD "") s :=
  Iff.rfl

/-- A word that was taken back is read again. -/
theorem meets_readWord_pending {word : Option Token} {rest : List (Option Token)}
    {post : Unit → State → Prop} (hpending : s.pending = word :: rest) :
    Meets readWord s fault post ↔ post () { s with word := word, pending := rest } := by
  simp only [readWord, meets_bind, meets_get]
  rw [hpending]
  exact Iff.rfl

end

/-! ### The relation -/

/-- The state after words were taken back. -/
def State.takeBack (state : State) (token : Token) (taken : List Token) : State :=
  { state with
    word := some token
    pending := state.pending ++ taken.map some ++ [state.word] }

variable {α β γ δ : Type}

/-- The outcomes of an action and of work agree: both are rejected for the same reason, and in a
way that fits the lines, or both succeed in the same state. In the latter case, `post` holds of the
result of the action, the result of the work, the trees that have been added to the tree on the
bench, the state and the number of words that may still be read. -/
def Agrees (source : List TokenLine) (bench : Workbench) (journal : List Desk.Event) (budget : Nat)
    (result : Except ParseFault (α × State)) (work : Except Desk.Fault β × Desk)
    (post : α → β → List SyntaxTree → State → Nat → Prop) : Prop :=
  match result with
  | .ok (x, t) => ∃ y trees journal' left, work = (.ok y, ⟨t, bench.extend trees, journal'⟩) ∧
      Desk.Continued (wordsOf source) budget left journal journal' ∧ post x y trees t left
  | .error fault => fault.Fits source ∧ ∃ desk, work = (.error (.rejected fault), desk) ∧
      Desk.Continued (wordsOf source) budget 0 journal desk.journal

/-- The action and the work have outcomes that agree when they are started in the state `s`, the
work with the trees `done` built. -/
def Mirrors (source : List TokenLine) (done : List SyntaxTree) (action : Parse α) (work : Work β)
    (s : State) (budget : Nat) (post : α → β → List SyntaxTree → State → Nat → Prop) : Prop :=
  ∀ (bench : Workbench) (journal : List Desk.Event), bench.Open →
    Agrees source bench journal budget (action.run s)
      (outcome work ⟨s, bench.extend done, journal⟩) post

variable {source : List TokenLine} {done : List SyntaxTree} {s t : State} {b : Nat} {a : Parse α}
  {w : Work β} {post : α → β → List SyntaxTree → State → Nat → Prop}

namespace Mirrors

/-- Less may be said about the end. -/
theorem imp {post' : α → β → List SyntaxTree → State → Nat → Prop}
    (h : Mirrors source done a w s b post)
    (himp : ∀ x y trees t left, post x y trees t left → post' x y trees t left) :
    Mirrors source done a w s b post' := by
  intro bench journal hopen
  have h := h bench journal hopen
  rcases ha : a.run s with fault | ⟨x, t⟩ <;> rw [ha] at h
  · exact h
  · obtain ⟨y, trees, journal', left, hwork, hcontinued, hpost⟩ := h
    exact ⟨y, trees, journal', left, hwork, hcontinued, himp _ _ _ _ _ hpost⟩

/-- What holds of an action that has succeeded may be used. -/
theorem andReads (h : Mirrors source done a w s b post) :
    Mirrors source done a w s b fun x y trees t left => post x y trees t left ∧ Reads a s x t := by
  intro bench journal hopen
  have h := h bench journal hopen
  rcases ha : a.run s with fault | ⟨x, t⟩ <;> rw [ha] at h
  · exact h
  · obtain ⟨y, trees, journal', left, hwork, hcontinued, hpost⟩ := h
    exact ⟨y, trees, journal', left, hwork, hcontinued, hpost, ha⟩

/-- Two blocks are taken apart at their first steps. -/
theorem bind {k : α → Parse γ} {k' : β → Work δ}
    {post : γ → δ → List SyntaxTree → State → Nat → Prop}
    (h : Mirrors source done a w s b fun x y trees t left =>
      Mirrors source trees (k x) (k' y) t left post) :
    Mirrors source done (a >>= k) (w >>= k') s b post := by
  intro bench journal hopen
  have h := h bench journal hopen
  have hrun : (a >>= k).run s = (a.run s).bind fun r => (k r.1).run r.2 := rfl
  rw [hrun]
  rcases ha : a.run s with fault | ⟨x, t⟩ <;> rw [ha] at h
  · obtain ⟨hfault, desk, hwork, hcontinued⟩ := h
    exact ⟨hfault, desk, outcome_bind_of_error hwork, hcontinued⟩
  · obtain ⟨y, trees, journal', left, hwork, hcontinued, hnext⟩ := h
    have hnext := hnext bench journal' hopen
    rw [outcome_bind_of_ok hwork]
    change Agrees source bench journal b ((k x).run t) _ post
    rcases hk : (k x).run t with fault | ⟨z, u⟩ <;> rw [hk] at hnext
    · obtain ⟨hfault, desk, hwork', hcontinued'⟩ := hnext
      exact ⟨hfault, desk, hwork', hcontinued.trans hcontinued'⟩
    · obtain ⟨z', trees', journal'', left', hwork', hcontinued', hpost⟩ := hnext
      exact ⟨z', trees', journal'', left', hwork', hcontinued.trans hcontinued', hpost⟩

/-- The first steps have been dealt with. -/
theorem andThen {k : α → Parse γ} {k' : β → Work δ}
    {post' : γ → δ → List SyntaxTree → State → Nat → Prop} (h : Mirrors source done a w s b post)
    (hnext : ∀ x y trees t left, post x y trees t left →
      Mirrors source trees (k x) (k' y) t left post') :
    Mirrors source done (a >>= k) (w >>= k') s b post' :=
  bind (h.imp hnext)

protected theorem pure {x : α} {y : β} (h : post x y done s b) :
    Mirrors source done (pure x) (pure y) s b post :=
  fun _ journal _ => ⟨y, done, journal, b, rfl, .refl, h⟩

/-- The action arranges the trees that the work has built. -/
theorem map {f : α → γ} {post' : γ → β → List SyntaxTree → State → Nat → Prop}
    (h : Mirrors source done a w s b post)
    (himp : ∀ x y trees t left, post x y trees t left → post' (f x) y trees t left) :
    Mirrors source done (a >>= fun x => pure (f x)) w s b post' := by
  intro bench journal hopen
  have h := h bench journal hopen
  have hrun : (a >>= fun x => pure (f x)).run s = (a.run s).bind fun r => .ok (f r.1, r.2) := rfl
  rw [hrun]
  rcases ha : a.run s with fault | ⟨x, t⟩ <;> rw [ha] at h
  · exact h
  · obtain ⟨y, trees, journal', left, hwork, hcontinued, hpost⟩ := h
    exact ⟨y, trees, journal', left, hwork, hcontinued, himp _ _ _ _ _ hpost⟩

/-- A test that comes out the same on both sides. -/
theorem ite {c : Bool} {a' : Parse α} {w' : Work β}
    (htrue : c = true → Mirrors source done a w s b post)
    (hfalse : c = false → Mirrors source done a' w' s b post) :
    Mirrors source done (if c then a else a') (if c then w else w') s b post := by
  cases c with
  | false => exact hfalse rfl
  | true => exact htrue rfl

/-- An action that neither reads a word nor makes a node. -/
theorem look {post : α → α → List SyntaxTree → State → Nat → Prop}
    (h : Meets a s (ParseFault.Fits source) fun x t => post x x done t b) :
    Mirrors source done a (Work.look a) s b post := by
  intro bench journal hopen
  rcases ha : a.run s with fault | ⟨x, t⟩ <;> rw [Meets, ha] at h
  · exact ⟨h, _, Work.outcome_look_of_error ha, Desk.Continued.refl.mono (Nat.zero_le b)⟩
  · exact ⟨x, done, journal, b, Work.outcome_look_of_ok ha, .refl, h⟩

protected theorem throw {fault : ParseFault} (h : fault.Fits source) :
    Mirrors source done (throw fault) (throw (.rejected fault)) s b post :=
  fun _ _ _ => ⟨h, _, rfl, Desk.Continued.refl.mono (Nat.zero_le b)⟩

protected theorem fail {place : String} {cause : GrammarCause} :
    Mirrors source done (fail place cause : Parse α) (Work.look (fail place cause) : Work β) s b
    post :=
  fun _ _ _ => ⟨trivial, _, rfl, Desk.Continued.refl.mono (Nat.zero_le b)⟩

/-- The work below a branch is added as one tree. -/
theorem branch {rule : Rule} (hpending : rule = .expression → s.pending = [])
    (h : Mirrors source [] a w s b fun x y trees t left =>
      post x y (done ++ [.branch rule s.line trees]) t left) :
    Mirrors source done a (Work.branch rule w) s b post := by
  intro bench journal hopen
  have hdone := hopen.extend done
  have hbelow := hdone.addBranch rule s.line
  have h := h _ (journal ++ [.begun rule s]) hbelow
  have hcontinued : Desk.Continued (wordsOf source) b b journal (journal ++ [.begun rule s]) :=
    .note hpending rfl
  rw [hbelow.extend_nil] at h
  -- the moves before the sons of the branch
  have hstart : outcome (Work.branch rule w) ⟨s, bench.extend done, journal⟩
      = outcome (do
          let result ← w
          Work.leave rule (bench.extend done).building
          return result)
        ⟨s, (bench.extend done).addBranch (.rule rule) s.line, journal ++ [.begun rule s]⟩ := rfl
  rw [hstart]
  rcases ha : a.run s with fault | ⟨x, t⟩ <;> rw [ha] at h
  · obtain ⟨hfault, desk, hwork, hcontinued'⟩ := h
    exact ⟨hfault, desk, outcome_bind_of_error hwork, hcontinued.trans hcontinued'⟩
  · obtain ⟨y, trees, journal', left, hwork, hcontinued', hpost⟩ := h
    have hleave := Work.outcome_leave hdone rule s.line trees t journal'
    have hended : Desk.Continued (wordsOf source) left left journal'
        (journal' ++ [.ended rule (bench.extend done).building (bench.extend done).building]) :=
      .note (Eq.refl (bench.extend done).building) rfl
    refine ⟨y, _, _, left, ?_, (hcontinued.trans hcontinued').trans hended, hpost⟩
    rw [outcome_bind_of_ok hwork, outcome_bind_of_ok hleave, hopen.extend_extend]
    rfl

/-- The last tree that was built is cut off. -/
theorem cutOff {tree : SyntaxTree} {k' : Unit → Work β}
    (h : Mirrors source done a (k' ()) s b post) :
    Mirrors source (done ++ [tree]) a (Work.cutOff >>= k') s b post := by
  intro bench journal hopen
  have hmove := Work.outcome_move ⟨s, bench.extend (done ++ [tree]), journal⟩
    (hopen.dropLast_extend done tree)
  rw [Work.cutOff, outcome_bind_of_ok hmove]
  exact h bench journal hopen

/-- Words are taken back. -/
theorem takeBack {token : Token} {taken : List Token}
    {post : Unit → Unit → List SyntaxTree → State → Nat → Prop}
    (horderly : (Desk.Event.takenBack (s.takeBack token taken)).Orderly (wordsOf source))
    (h : post () () done (s.takeBack token taken) b) :
    Mirrors source done (Parse.takeBack token taken) (Work.takeBack token taken) s b post :=
  fun _ _ _ => ⟨(), done, _, b, rfl, .note horderly rfl, h⟩

/-- A word is asked for. -/
theorem readWord {post : Unit → Unit → List SyntaxTree → State → Nat → Prop}
    (horderly : (Desk.Event.read s).Orderly (wordsOf source)) (hb : 0 < b)
    (h : Meets Parse.readWord s (ParseFault.Fits source) fun _ t => post () () done t (b - 1)) :
    Mirrors source done Parse.readWord Work.readWord s b post := by
  intro bench journal hopen
  have hcontinued : Desk.Continued (wordsOf source) b (b - 1) journal (journal ++ [.read s]) :=
    .read horderly hb
  have hwork : outcome Work.readWord ⟨s, bench.extend done, journal⟩
      = outcome (Work.look Parse.readWord) ⟨s, bench.extend done, journal ++ [.read s]⟩ := rfl
  rw [hwork]
  rcases ha : Parse.readWord.run s with fault | ⟨x, t⟩ <;> rw [Meets, ha] at h
  · rw [Work.outcome_look_of_error ha]
    exact ⟨h, _, rfl, hcontinued.mono (Nat.zero_le _)⟩
  · exact ⟨(), done, _, b - 1, Work.outcome_look_of_ok ha, hcontinued, h⟩

/-! ### Steps that always succeed -/

section

variable {post : SyntaxTree → Unit → List SyntaxTree → State → Nat → Prop}

theorem leaf {label : Label}
    (h : post (.leaf label s.line) () (done ++ [.leaf label s.line]) s b) :
    Mirrors source done (Parse.leaf label) (Work.leaf label) s b post := by
  intro bench journal hopen
  have hwork : outcome (Work.leaf label) ⟨s, bench.extend done, journal⟩
      = (.ok (), ⟨s, (bench.extend done).addLeaf label s.line, journal⟩) := rfl
  rw [hwork, hopen.addLeaf_extend]
  exact ⟨(), _, journal, b, rfl, .refl, h⟩

theorem kindLeaf {kind : Kind}
    (h : post (.leaf (.word kind.text) s.line) () (done ++ [.leaf (.word kind.text) s.line]) s b) :
    Mirrors source done (Parse.kindLeaf kind) (Work.kindLeaf kind) s b post :=
  leaf h

/-- The label of a leaf for the current word as it is spelled. -/
theorem spelledLeaf {label : Label}
    (hlabel : label = .ofText ((s.word.map (·.spelling)).getD ""))
    (h : post (.leaf label s.line) () (done ++ [.leaf label s.line]) s b) :
    Mirrors source done Parse.spelledLeaf Work.spelledLeaf s b post := by
  subst hlabel
  exact bind (look (meets_spelling.2 (leaf h)))

end

theorem at? {kind : Kind} {post : Bool → Bool → List SyntaxTree → State → Nat → Prop}
    (h : post (s.word.any fun token => token.kind == kind)
      (s.word.any fun token => token.kind == kind) done s b) :
    Mirrors source done (Parse.at? kind) (Work.at? kind) s b post :=
  look (meets_at?.2 h)

theorem atAny? {kinds : List Kind} {post : Bool → Bool → List SyntaxTree → State → Nat → Prop}
    (h : post (s.word.any fun token => kinds.contains token.kind)
      (s.word.any fun token => kinds.contains token.kind) done s b) :
    Mirrors source done (Parse.atAny? kinds) (Work.atAny? kinds) s b post :=
  look (meets_atAny?.2 h)

theorem word {k : State → Parse γ} {k' : Option Token → Work δ}
    {post : γ → δ → List SyntaxTree → State → Nat → Prop}
    (h : Mirrors source done (k s) (k' s.word) s b post) :
    Mirrors source done (get >>= k) (Work.word >>= k') s b post :=
  h

theorem pure_left {x : α} {k : α → Parse γ} {post : γ → β → List SyntaxTree → State → Nat → Prop}
    (h : Mirrors source done (k x) w s b post) : Mirrors source done (pure x >>= k) w s b post :=
  h

theorem get_left {k : State → Parse γ} {post : γ → β → List SyntaxTree → State → Nat → Prop}
    (h : Mirrors source done (k s) w s b post) : Mirrors source done (get >>= k) w s b post :=
  h

end Mirrors

/-! ### Calm states -/

/-- No word is pending, the tokens from the current one on are the last ones of the list, and all of
them may be read twice. -/
structure State.Calm (source : List TokenLine) (budget : Nat) (state : State) : Prop where
  /-- No word was taken back. -/
  pending : state.pending = []
  /-- The end is reached only after the last word. -/
  last : state.word = none → state.remaining = []
  /-- No word of the list was lost. -/
  suffix : state.remaining <:+ wordsOf source
  /-- The lines that have not been read are the last ones. -/
  lines : state.lines <:+ source
  /-- What the words that are left may cost. -/
  credit : 2 * state.remaining.length < budget
  /-- Some scope is open, unless one too many was closed. -/
  scopeless : state.scopes = [] → ParseFault.noScope.Fits source

namespace State.Calm

/-- A calm state may read. -/
theorem orderly (h : s.Calm source b) : (Desk.Event.read s).Orderly (wordsOf source) :=
  ⟨by rw [h.pending]; exact Nat.zero_le 4, h.suffix⟩

/-- The scopes do not matter for the words, as long as there is one. -/
theorem withScopes (h : s.Calm source b) {scopes : Scopes} (hscopes : scopes ≠ []) (count : Nat) :
    State.Calm source b { s with scopes := scopes, scopeCount := count } :=
  ⟨h.pending, h.last, h.suffix, h.lines, h.credit, fun hnil => absurd hnil hscopes⟩

end State.Calm

/-- Line ends are skipped, and no word is lost. -/
theorem suffix_skipEnters (line : Nat) (lines : List TokenLine) :
    (skipEnters line lines).2 <:+ lines ∧ wordsOf (skipEnters line lines).2 = wordsOf lines ∧
      (skipEnters line lines).2.head? ≠ some .enter := by
  induction lines generalizing line with
  | nil => exact ⟨suffix_rfl, rfl, by simp [skipEnters]⟩
  | cons first lines ih =>
    cases first with
    | enter =>
      obtain ⟨hsuffix, hwords, hhead⟩ := ih (line + 1)
      exact ⟨hsuffix.trans (suffix_cons _ _), hwords, hhead⟩
    | token | bare | blank => exact ⟨suffix_rfl, rfl, by simp [skipEnters]⟩

variable {cause : GrammarCause} {kind kind' : Kind}

theorem meets_fail {place : String} {post : α → State → Prop} :
    Meets (fail place cause : Parse α) s (ParseFault.Fits source) post :=
  trivial

section

variable (hscopeless : s.scopes = [] → ParseFault.noScope.Fits source)

include hscopeless

/-- The scopes are asked for. -/
theorem meets_openScopes {post : Scopes → State → Prop} (h : s.scopes ≠ [] → post s.scopes s) :
    Meets openScopes s (ParseFault.Fits source) post := by
  simp only [openScopes, meets_bind, meets_get]
  split
  · exact hscopeless ‹_›
  · rename_i hcons
    rw [hcons] at h
    exact h (cons_ne_nil _ _)

/-- A brace changes the scopes only. -/
theorem meets_braceScope :
    Meets (braceScope kind) s (ParseFault.Fits source) fun _ t =>
      t.pending = s.pending ∧ t.lines = s.lines := by
  unfold braceScope
  split
  · exact ⟨rfl, rfl⟩
  split
  · refine meets_bind.2 (meets_openScopes hscopeless fun _ => ?_)
    split
    · exact ⟨rfl, rfl⟩
    · exact meets_fail
  · exact ⟨rfl, rfl⟩

/-- The check succeeds, or fails with an error. -/
theorem meets_checkDeclared {name place : String} {post : Unit → State → Prop}
    (h : post () s) : Meets (checkDeclared name place) s (ParseFault.Fits source) post := by
  refine meets_bind.2 (meets_openScopes hscopeless fun _ => ?_)
  split
  · exact meets_fail
  · exact h

end

/-- The expected word is there, or there is an error. -/
theorem meets_expect {rule : Rule} {post : Token → State → Prop}
    (h : ∀ token, s.word = some token → token.kind = kind → post token s) :
    Meets (expect kind cause rule) s (ParseFault.Fits source) post := by
  simp only [expect, meets_bind, meets_get]
  split
  · split
    · exact h _ ‹_› ‹_›
    · exact meets_fail
  · exact meets_fail

/-- The next word is read from the list. -/
theorem meets_readLine (hscopeless : s.scopes = [] → ParseFault.noScope.Fits source)
    (hpending : s.pending = []) (hsource : s.lines <:+ source) :
    Meets readLine s (ParseFault.Fits source) fun _ t =>
      t.pending = [] ∧ (t.word = none → t.remaining = []) ∧ t.remaining = wordsOf s.lines ∧
        t.lines <:+ source := by
  obtain ⟨hsuffix, hwords, hhead⟩ := suffix_skipEnters s.line s.lines
  replace hsuffix := hsuffix.trans hsource
  simp only [readLine, meets_bind, meets_get]
  generalize skipEnters s.line s.lines = skipped at hsuffix hwords hhead
  obtain ⟨line, lines⟩ := skipped
  -- a line that is not whole is one of the list
  have hbroken : ∀ {item : TokenLine}, item ∈ lines → item.isWhole = false →
      ParseFault.missingWord.Fits source :=
    fun hitem hwhole => all_eq_false.2 ⟨_, hsuffix.subset hitem, by rw [hwhole]; decide⟩
  cases lines with
  | nil =>
    have hnil : State.remaining { s with word := none, lines := [], line := line } = [] := by
      simp [State.remaining, hpending]
    exact ⟨hpending, fun _ => hnil, hnil.trans hwords, hsuffix⟩
  | cons first rest =>
    cases first with
    | token token =>
      simp only [meets_bind, meets_set, meets_modify]
      refine (meets_braceScope (s := { s with lines := rest, line := line }) hscopeless).imp ?_
      rintro _ t ⟨hkept, hrest⟩
      have hkept : t.pending = [] := hkept.trans hpending
      refine ⟨hkept, fun hnone => absurd hnone (Option.some_ne_none token), ?_,
        hrest ▸ (suffix_cons _ _).trans hsuffix⟩
      rw [State.remaining_eq (s := { t with word := some token }) hkept, hrest, ← hwords]
      rfl
    | bare kind =>
      simp only [meets_bind, meets_set, meets_throw]
      exact (meets_braceScope (s := { s with lines := rest, line := line }) hscopeless).imp
        fun _ _ _ => hbroken mem_cons_self rfl
    | blank => exact hbroken mem_cons_self rfl
    | enter => exact absurd rfl hhead

/-- The first word of a list is read. -/
theorem meets_readWord_first (hpending : s.pending = []) (hscopes : s.scopes ≠ []) :
    Meets readWord s (ParseFault.Fits s.lines) fun _ t =>
      t.Calm s.lines (2 * (wordsOf s.lines).length + 1) ∧ t.remaining = wordsOf s.lines := by
  have hread : Meets readWord s (ParseFault.Fits s.lines) fun _ t =>
      t.pending = [] ∧ (t.word = none → t.remaining = []) ∧ t.remaining = wordsOf s.lines ∧
        t.lines <:+ s.lines := by
    simp only [readWord, meets_bind, meets_get]
    rw [hpending]
    exact meets_readLine (fun hnil => absurd hnil hscopes) hpending suffix_rfl
  refine hread.andReads.imp ?_
  rintro _ t ⟨⟨-, hlast, hremaining, hlines⟩, hreads⟩
  have hsteady := State.Steady.of_readWord hpending hreads
  exact ⟨⟨hsteady.pending, hlast, hremaining ▸ suffix_rfl, hlines, by rw [hremaining]; omega,
    fun hnil => absurd hnil (hsteady.turns.ne_nil hscopes)⟩, hremaining⟩

/-- The current word is passed. At the end of the list, nothing is. -/
theorem State.Calm.meets_readWord (h : s.Calm source b) :
    Meets Parse.readWord s (ParseFault.Fits source) fun _ t =>
      t.Steady s.scopes ∧ (t.word = none → t.remaining = []) ∧
        s.remaining = (s.word.map Token.plain).toList ++ t.remaining ∧ t.lines <:+ source := by
  have hread : Meets Parse.readWord s (ParseFault.Fits source) fun _ t =>
      t.pending = [] ∧ (t.word = none → t.remaining = []) ∧ t.remaining = wordsOf s.lines ∧
        t.lines <:+ source := by
    simp only [Parse.readWord, meets_bind, meets_get]
    rw [h.pending]
    exact meets_readLine h.scopeless h.pending h.lines
  refine hread.andReads.imp ?_
  rintro _ t ⟨⟨-, hlast, hremaining, hlines⟩, hreads⟩
  exact ⟨.of_readWord h.pending hreads, hlast, hremaining ▸ State.remaining_eq h.pending, hlines⟩

/-- A word is passed, and the next one is read from the list. -/
theorem State.Calm.readWord (h : s.Calm source b) (hat : s.At kind) :
    Mirrors source done Parse.readWord Work.readWord s b fun _ _ trees t left =>
      trees = done ∧ t.Calm source left ∧ s.Step t ∧ left + 1 = b ∧ t.Steady s.scopes := by
  obtain ⟨token, hword, -⟩ := hat
  have hcredit := h.credit
  refine .readWord h.orderly (by omega) (h.meets_readWord.imp ?_)
  rintro _ t ⟨hsteady, hlast, hremaining, hlines⟩
  rw [hword] at hremaining
  have hstep : s.Step t := ⟨token, hword, hremaining⟩
  have hlength := hstep.length
  have hsuffix := (suffix_cons _ _).trans (hremaining ▸ h.suffix)
  refine ⟨rfl, ⟨hsteady.pending, hlast, hsuffix, hlines, by omega, fun hnil => ?_⟩, hstep, by omega,
    hsteady⟩
  exact h.scopeless (by_contra fun hscopes => hsteady.turns.ne_nil hscopes hnil)

/-- If the words are at their end, then their last one ends an operand. -/
def State.Closed (source : List TokenLine) (state : State) : Prop :=
  state.word = none → ParseFault.endOfTokens.Fits source

/-- An operand ends with the word that was passed last. -/
theorem State.Step.closed (hstep : s.Step t) (hat : s.At kind) (hkind : kind.endsOperand = true)
    (hs : s.remaining <:+ wordsOf source) (ht : t.Calm source b) :
    t.Closed source := by
  intro hnone
  obtain ⟨token, hword, hremaining⟩ := hstep
  obtain ⟨token', hword', rfl⟩ := hat
  obtain rfl : token = token' := Option.some.inj (hword.symm.trans hword')
  rw [hremaining, ht.last hnone] at hs
  obtain ⟨front, hfront⟩ := hs
  exact ⟨token.plain, by rw [← hfront, List.getLast?_concat], by rwa [Token.kind_plain]⟩

/-- A leaf is made for the current word, which must be of a kind. -/
theorem Mirrors.expectLeaf {rule : Rule}
    {post : SyntaxTree → Unit → List SyntaxTree → State → Nat → Prop} (h : s.At kind →
      post (.leaf (.word kind.text) s.line) () (done ++ [.leaf (.word kind.text) s.line]) s b) :
    Mirrors source done (Parse.expectLeaf kind cause rule) (Work.expectLeaf kind cause rule) s b
      post :=
  .bind (.look (meets_expect fun token hword hkind => .kindLeaf (h ⟨token, hword, hkind⟩)))

/-- A word of a kind is read, and a leaf made for it. -/
theorem State.Calm.nextLeaf (h : s.Calm source b) (hat : s.At kind') (cause : GrammarCause)
    (rule : Rule) :
    Mirrors source done (Parse.nextLeaf kind cause rule) (Work.nextLeaf kind cause rule) s b
      fun tree _ trees t left => tree = .leaf (.word kind.text) t.line ∧ trees = done ++ [tree] ∧
        t.Calm source left ∧ s.Step t ∧ t.At kind ∧ left + 1 = b ∧ t.Steady s.scopes := by
  refine (h.readWord hat).andThen ?_
  rintro _ _ _ t left ⟨rfl, ht, hstep, hleft⟩
  exact .expectLeaf fun hat => ⟨rfl, rfl, ht, hstep, hat, hleft⟩

/-- A number is read. -/
theorem State.Calm.nextNumber (h : s.Calm source b) (hat : s.At kind') (rule : Rule) :
    Mirrors source done (Parse.nextNumber rule) (Work.nextNumber rule) s b
      fun result number trees t left => result = (number, .leaf (.number number) t.line) ∧
        trees = done ++ [result.2] ∧ t.Calm source left ∧ s.Step t ∧
        t.word = some ⟨.number, number⟩ ∧ left + 1 = b ∧ t.Steady s.scopes := by
  refine (h.readWord hat).andThen ?_
  rintro _ _ _ t left ⟨rfl, ht, hstep, hleft⟩
  refine .bind (.look (meets_expect fun token hword hkind => ?_))
  obtain ⟨kind, number⟩ := token
  subst hkind
  exact .bind (.leaf (.pure ⟨rfl, rfl, ht, hstep, hword, hleft⟩))

/-- A name is read. -/
theorem State.Calm.nextName (h : s.Calm source b) (hat : s.At kind') (cause : GrammarCause)
    (rule : Rule) :
    Mirrors source done (Parse.nextName cause rule) (Work.nextName cause rule) s b
      fun result name trees t left => result = (name, .leaf (.name name) t.line) ∧
        trees = done ++ [result.2] ∧ t.Calm source left ∧ s.Step t ∧
        t.word = some ⟨.name, name⟩ ∧ left + 1 = b ∧ t.Steady s.scopes := by
  refine (h.readWord hat).andThen ?_
  rintro _ _ _ t left ⟨rfl, ht, hstep, hleft⟩
  refine .bind (.look (meets_expect fun token hword hkind => ?_))
  obtain ⟨kind, name⟩ := token
  subst hkind
  exact .bind (.leaf (.pure ⟨rfl, rfl, ht, hstep, hword, hleft⟩))

end Parse

end ScoreLang
