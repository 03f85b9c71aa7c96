import ScoreLang.Proofs.Code.Reference

/-!
# A Logic for the Code Generator

What the generator does next depends on the labels ahead and on its state, but not on the place in
the tree that it has come to. A *view* says just this: the labels ahead, the lines that have been
written since some state that it starts from, the warnings and the marks.

An action *secures* a postcondition from a view if the postcondition holds of the result and of a
view of the state at the end, should the action succeed, and its fault is among given ones, should
it fail. The rules of this module are those of a logic of such triples. There is a rule for each
action that the generator is made of, so that a proof follows the text of a `do` block. One walk
through the rules of the generator then tells both what is written and how the generator can fail.
-/

namespace ScoreLang

open List

/-- The program is at fault, and not the generator. -/
def CodeFault.IsError (fault : CodeFault) : Prop := ∃ error, fault = .error error

/-- The program is at fault, provided that something is granted. -/
def Blames (granted : Prop) (fault : CodeFault) : Prop := granted → fault.IsError

theorem bind_eq_some_of {α β : Type} {value : Option α} {f : α → Option β} {a : α} {b : β}
    (hvalue : value = some a) (hf : f a = some b) : (value >>= f) = some b := by
  rw [hvalue]
  exact hf

/-! ### Views -/

/-- The state without the place in the tree and without warnings. All nodes are ahead. -/
def Generator.core (g : Generator) : Generator :=
  { g with current := none, ahead := g.trail, passed := [], warnings := [] }

/-- What a walk knows about the state of the generator. -/
structure View where
  /-- The labels from the current node on. -/
  upcoming : List Label
  /-- The lines that have been written since the walk has begun. -/
  lines : List CodeLine
  /-- The warnings. -/
  noted : List (Nat × Warning)
  /-- The marks. -/
  marks : Marks
  /-- Everything else: the state at the beginning. -/
  base : Generator

/-- A state is as a view says. -/
structure View.Sees (v : View) (g : Generator) : Prop where
  upcoming : g.upcoming = v.upcoming
  noted : g.warnings = v.noted
  core : g.core = (v.base.mark v.marks).emitLines v.lines

namespace View.Sees

open Generator

variable {v : View} {g g' : Generator}

/-- Every state has a view. -/
theorem self (g : Generator) : View.Sees ⟨g.upcoming, [], g.warnings, g.marks, g.core⟩ g :=
  ⟨rfl, rfl, rfl⟩

/-- The scopes are those of the beginning. -/
theorem scopes (h : v.Sees g) : g.scopes = v.base.scopes :=
  (congrArg Generator.scopes h.core).trans (emitLines_scopes _ _)

/-- The marks are those of the view. -/
theorem marks (h : v.Sees g) : g.marks = v.marks := by
  have hmarks : g.core.marks = v.marks := by
    rw [h.core, Generator.marks, emitLines_labels, emitLines_breakLabel, emitLines_continueLabel]
    rfl
  exact hmarks

theorem resultCell (h : v.Sees g) : g.resultCell = v.base.resultCell :=
  (congrArg Generator.resultCell h.core).trans (emitLines_resultCell _ _)

/-- A change that the core shares. -/
theorem change (f : Generator → Generator) {w : View} (h : v.Sees g)
    (hup : (f g).upcoming = w.upcoming) (hnoted : (f g).warnings = w.noted)
    (hcore : (f g).core = f g.core)
    (hstate : f ((v.base.mark v.marks).emitLines v.lines) = (w.base.mark w.marks).emitLines
    w.lines) :
    w.Sees (f g) :=
  ⟨hup, hnoted, by rw [hcore, h.core, hstate]⟩

/-- Going on changes the place in the tree only. -/
theorem core_next {label : Label} {rest : List Label} (hup : g.upcoming = label :: rest) :
    g.next.core = g.core ∧ g.next.warnings = g.warnings := by
  obtain ⟨node, hcurrent⟩ := exists_current hup
  cases hahead : g.ahead <;> simp [Generator.core, Generator.next, trail, hcurrent, hahead]

variable {st : Generator} {noted : List (Nat × Warning)} {lines : List CodeLine} {m : Marks}

/-- Moving on within the tree. -/
theorem skip {first rest : List Label} (h : View.Sees ⟨first ++ rest, lines, noted, m, st⟩ g) :
    View.Sees ⟨rest, lines, noted, m, st⟩ (g.skip first.length) := by
  induction first generalizing g with
  | nil => exact h
  | cons label first ih =>
    obtain ⟨hcore, hwarnings⟩ := core_next h.upcoming
    rw [length_cons, Nat.add_comm, ← skip_skip]
    exact ih ⟨upcoming_next h.upcoming, hwarnings.trans h.noted, hcore.trans h.core⟩

/-- Writing a line. -/
theorem write {up : List Label} (h : View.Sees ⟨up, lines, noted, m, st⟩ g) (line : CodeLine) :
    View.Sees ⟨up, lines ++ [line], noted, m, st⟩ (g.write [line]) := by
  have hcore : (g.write [line]).core = g.core.write [line] := by
    unfold Generator.write Generator.core
    cases g.holding <;> rfl
  refine h.change (·.write [line]) ((emitLines_upcoming g [line]).trans h.upcoming) ?_ hcore
    (emitLines_emitLines (st.mark m) lines [line])
  rw [← h.noted]
  unfold Generator.write
  cases g.holding <;> rfl

/-- Lines are added to those of the view. -/
theorem emitLines {up : List Label} (h : View.Sees ⟨up, lines, noted, m, st⟩ g)
    (new : List CodeLine) :
    View.Sees ⟨up, lines ++ new, noted, m, st⟩ (g.emitLines new) := by
  induction new generalizing g lines with
  | nil => simpa using h
  | cons line new ih => simpa using ih (h.write line)

/-- Inside the tree there is only one state with a view. -/
theorem unique (h : v.Sees g) (h' : v.Sees g') (hup : v.upcoming ≠ []) : g = g' := by
  obtain ⟨label, rest, hlabel⟩ := exists_cons_of_ne_nil hup
  obtain ⟨node, hnode⟩ := exists_current (h.upcoming.trans hlabel)
  obtain ⟨node', hnode'⟩ := exists_current (h'.upcoming.trans hlabel)
  have hcore := h.core.trans h'.core.symm
  have hlength := congrArg List.length (h.upcoming.trans h'.upcoming.symm)
  have hnoted := h.noted.trans h'.noted.symm
  simp only [Generator.upcoming, hnode, hnode', length_cons, length_map] at hlength
  have htrail : g.passed.reverse ++ (node :: g.ahead) = g'.passed.reverse ++
    (node' :: g'.ahead) := by
    have h := congrArg Generator.ahead hcore
    simpa [Generator.core, trail, hnode, hnode'] using h
  obtain ⟨hpassed, hahead⟩ := append_inj' htrail (by simpa using hlength)
  obtain ⟨rfl, hrest⟩ := List.cons.inj hahead
  have hback : ∀ g : Generator, g = { g.core with
      current := g.current, ahead := g.ahead, passed := g.passed, warnings := g.warnings } :=
    fun _ => rfl
  rw [hback g, hback g', hcore, hnode, hnode', hrest, reverse_inj.1 hpassed, hnoted]

end View.Sees

/-! ### Triples -/

/-- From a state with the given view, the action leads to a result and a view for which `post`
holds, or it has one of the faults of `err`. -/
structure Secures {α : Type} (err : CodeFault → Prop) (action : Generate α) (v : View)
    (post : α → View → Prop) : Prop where
  run : ∀ g : Generator, v.Sees g →
    match outcome action g with
    | (.ok a, g') => ∃ w : View, post a w ∧ w.Sees g'
    | (.error fault, _) => err fault

namespace Secures

open Generate Generator

variable {α β : Type} {err : CodeFault → Prop} {action : Generate α} {f : α → Generate β}
  {v w : View} {post : α → View → Prop}

/-- An action that ends as it is told. -/
theorem of_ends {a : α} (hpost : post a w)
    (h : ∀ g : Generator, v.Sees g → ∃ g', Ends action g a g' ∧ w.Sees g') :
    Secures err action v post := by
  refine ⟨fun g hg => ?_⟩
  obtain ⟨g', hends, hsees⟩ := h g hg
  rw [Ends] at hends
  rw [hends]
  exact ⟨w, hpost, hsees⟩

/-- What a successful run is like. -/
theorem ends {g g' : Generator} {a : α} (h : Secures err action v post) (hg : v.Sees g)
    (hends : Ends action g a g') : ∃ w : View, post a w ∧ w.Sees g' := by
  have hrun := h.run g hg
  rw [Ends] at hends
  rwa [hends] at hrun

/-- Less may be asked of the end. -/
theorem imp {post' : α → View → Prop} (h : Secures err action v post)
    (himp : ∀ a w, post a w → post' a w) : Secures err action v post' := by
  refine ⟨fun g hg => ?_⟩
  have hrun := h.run g hg
  split at hrun
  · obtain ⟨w, hpost, hsees⟩ := hrun
    exact ⟨w, himp _ _ hpost, hsees⟩
  · exact hrun

/-- The same state may be seen in another way. -/
theorem of_sees (hsees : ∀ g : Generator, v.Sees g → w.Sees g) (h : Secures err action w post) :
    Secures err action v post :=
  ⟨fun g hg => h.run g (hsees g hg)⟩

/-- One action after another. -/
theorem bind {post : β → View → Prop} (h : Secures err action v fun a w => Secures err (f a) w
    post) : Secures err (action >>= f) v post := by
  refine ⟨fun g hg => ?_⟩
  have hfirst := h.run g hg
  rcases hrun : outcome action g with ⟨fault | a, g'⟩
  · rw [hrun] at hfirst
    rw [outcome_bind_of_error hrun]
    exact hfirst
  · rw [hrun] at hfirst
    obtain ⟨w, hrest, hsees⟩ := hfirst
    rw [outcome_bind_of_ok hrun]
    exact hrest.run g' hsees

theorem pure {a : α} (h : post a v) : Secures err (pure a) v post :=
  of_ends h fun g hg => ⟨g, ends_pure.2 ⟨rfl, rfl⟩, hg⟩

/-- A fault must be one that is allowed. -/
theorem throw {fault : CodeFault} (h : err fault) : Secures err (throw fault) v post :=
    ⟨fun _ _ => h⟩

/-- What follows may depend on the whole state. -/
theorem get {f : Generator → Generate β} {post : β → View → Prop}
    (h : ∀ g : Generator, v.Sees g → Secures err (f g) v post) : Secures err (get >>= f) v post :=
  ⟨fun g hg => (h g hg).run g hg⟩

/-- A change of the state that the view can follow. -/
theorem update {change : Generator → Generator} {post : Unit → View → Prop} (h : post () w)
    (hsees : ∀ g : Generator, v.Sees g → w.Sees (change g)) : Secures err (modify change) v post :=
  of_ends h fun g hg => ⟨change g, ends_modify.2 rfl, hsees g hg⟩

/-- An action that only looks for a value. -/
theorem option {value : Option α}
    (hends : ∀ {g g' : Generator} {a : α}, v.Sees g → (Ends action g a g' ↔ value = some a ∧
    g = g'))
    (hnone : value = none → ∀ fault, err fault) (h : ∀ a, value = some a → post a v) :
    Secures err action v post := by
  refine ⟨fun g hg => ?_⟩
  rcases hrun : outcome action g with ⟨fault | a, g'⟩
  · refine hnone (Option.eq_none_iff_forall_ne_some.2 fun a ha => ?_) fault
    have hboth := hrun.symm.trans ((hends hg).2 ⟨ha, rfl⟩)
    simp at hboth
  · obtain ⟨ha, rfl⟩ := (hends hg).1 hrun
    exact ⟨v, h a ha, hg⟩

/-- A repetition that is at its end. -/
theorem repeatWhile_stop {continues : Generate Bool} {round : α → Generate α} {limit : Nat}
    {done : α} (hstop : Secures err continues v fun b w => b = false ∧ w = v) (h : post done v) :
    Secures err (repeatWhile continues round limit done) v post := by
  cases limit with
  | zero =>
    refine bind (hstop.imp ?_)
    rintro _ _ ⟨rfl, rfl⟩
    exact pure h
  | succ limit =>
    refine bind (hstop.imp ?_)
    rintro _ _ ⟨rfl, rfl⟩
    exact pure h

/-- A repetition that is to go on. -/
theorem repeatWhile_go {continues : Generate Bool} {round : α → Generate α} {limit : Nat} {done : α}
    (hgo : Secures err continues v fun b w => b = true ∧ w = v)
    (h : Secures err (round done) v fun next w =>
      Secures err (repeatWhile continues round limit next) w post) :
    Secures err (repeatWhile continues round (limit + 1) done) v post := by
  refine bind (hgo.imp ?_)
  rintro _ _ ⟨rfl, rfl⟩
  exact bind h

/-- If the faults are exactly those of an action that has nothing to write, the logic says all
there is to know about a walk. -/
theorem ends_iff {g g' : Generator} {first rest : List Label} {next : Label} {a : α}
    (code : α → List CodeLine → Prop) (hup : g.upcoming = first ++ next :: rest)
    (hcode : ∀ {a b lines lines'}, code a lines → code b lines' → a = b ∧ lines = lines')
    (h : Secures (fun _ => ∀ a lines, ¬code a lines) action
      ⟨first ++ next :: rest, [], g.warnings, g.marks, g.core⟩ fun a w =>
        ∃ lines, code a lines ∧ w = ⟨next :: rest, lines, g.warnings, g.marks, g.core⟩) :
    Ends action g a g' ↔ ∃ lines, code a lines ∧ g' = (g.skip first.length).emitLines lines := by
  have hself : View.Sees ⟨first ++ next :: rest, [], g.warnings, g.marks, g.core⟩ g :=
    hup ▸ View.Sees.self g
  have hthere := fun lines => hself.skip.emitLines lines
  constructor
  · intro hends
    obtain ⟨_, ⟨lines, hlines, rfl⟩, hsees⟩ := h.ends hself hends
    exact ⟨lines, hlines, hsees.unique (hthere lines) (by simp)⟩
  · rintro ⟨lines, hlines, rfl⟩
    have hrun := h.run g hself
    rcases hout : outcome action g with ⟨fault | b, t⟩
    · rw [hout] at hrun
      exact absurd hlines (hrun a lines)
    · rw [hout] at hrun
      obtain ⟨_, ⟨written, hwritten, rfl⟩, hsees⟩ := hrun
      obtain ⟨rfl, rfl⟩ := hcode hlines hwritten
      rw [Ends, hout, hsees.unique (hthere lines) (by simp)]

/-! ### Choices -/

theorem ifPos {p : Prop} [Decidable p] {first second : Generate α} (hp : p)
    (h : Secures err first v post) : Secures err (if p then first else second) v post := by
  rwa [if_pos hp]

theorem ifNeg {p : Prop} [Decidable p] {first second : Generate α} (hp : ¬ p)
    (h : Secures err second v post) : Secures err (if p then first else second) v post := by
  rwa [if_neg hp]

/-- A test that may come out either way. -/
theorem ite {p : Prop} [Decidable p] {first second : Generate α}
    (hpos : p → Secures err first v post) (hneg : ¬ p → Secures err second v post) :
    Secures err (if p then first else second) v post := by
  split
  · exact hpos ‹_›
  · exact hneg ‹_›

/-! ### Parts and numbers -/

/-- A number is read, or the fault is allowed. -/
theorem ofInteger {value : Except Text.IntegerFault α}
    (herror : (∃ fault, value = .error fault) → ∀ fault, err fault)
    (h : ∀ a, value = .ok a → post a v) : Secures err (ofInteger value) v post := by
  cases value with
  | error fault => exact throw (herror ⟨fault, rfl⟩ _)
  | ok a => exact pure (h a rfl)

/-- A part is there, or the fault is allowed. -/
theorem part {value : Option α} (hnone : value = none → ∀ fault, err fault)
    (h : ∀ a, value = some a → post a v) : Secures err (part value) v post :=
  option (fun _ => ends_part) hnone h

/-- The address can be written, or the fault is allowed. -/
theorem addressText {address : Address} {post : String → View → Prop}
    (hnone : address.text? = none → ∀ fault, err fault)
    (h : ∀ text, address.text? = some text → post text v) :
    Secures err (addressText address) v post :=
  option (fun _ => ends_addressText) hnone h

/-- The cell can be counted, or the fault is allowed. -/
theorem cellAfter {address : Address} {count : Int} {post : Address → View → Prop}
    (hnone : address.moved? count = none → ∀ fault, err fault)
    (h : ∀ moved, address.moved? count = some moved → post moved v) :
    Secures err (cellAfter address count) v post :=
  option (fun _ => ends_cellAfter) hnone h

/-- The name is found, or the fault is allowed. -/
theorem entry {name : String} {post : Entry → View → Prop}
    (hnone : v.base.scopes.find? name = none → ∀ fault, err fault)
    (h : ∀ found, v.base.scopes.find? name = some found → post found v) :
    Secures err (entry name) v post :=
  option (fun hg => by rw [ends_entry, hg.scopes]) hnone h

/-! ### Writing -/

section Actions

variable {up rest : List Label} {head : Label} {lines : List CodeLine}
  {noted : List (Nat × Warning)} {m : Marks} {st : Generator} {post : Unit → View → Prop}

/-- A line is written. -/
theorem emit {line : CodeLine} (h : post () ⟨up, lines ++ [line], noted, m, st⟩) :
    Secures err (emit [line]) ⟨up, lines, noted, m, st⟩ post :=
  update h fun _ hg => hg.write line

theorem place {name : String} (h : post () ⟨up, lines ++ [.label name], noted, m, st⟩) :
    Secures err (place name) ⟨up, lines, noted, m, st⟩ post := emit h

theorem perform {operation : Operation} {operand : String}
    (h : post () ⟨up, lines ++ [operation.line operand], noted, m, st⟩) :
    Secures err (perform operation operand) ⟨up, lines, noted, m, st⟩ post := emit h

theorem act {operation : Operation} (h : post () ⟨up, lines ++ [operation.line ""], noted, m, st⟩) :
    Secures err (act operation) ⟨up, lines, noted, m, st⟩ post := emit h

/-- The next number makes a new label. -/
theorem newLabel {post : String → View → Prop}
    (h : post (m.label 1) ⟨up, lines, noted, m.use 1, st⟩) :
    Secures err newLabel ⟨up, lines, noted, m, st⟩ post := by
  refine of_ends h fun g hg => ?_
  have hlabels : g.labels = m.labels := congrArg Marks.labels hg.marks
  refine ⟨g.relabel (g.labels + 1), ends_newLabel.2 ⟨by rw [hlabels]; rfl, rfl⟩, ?_⟩
  refine hg.change (fun g => g.relabel (g.labels + 1)) hg.upcoming hg.noted rfl ?_
  rw [relabel_emitLines, emitLines_labels]
  rfl

/-- A loop sets both labels. -/
theorem setJumps {breakLabel continueLabel : String}
    (h : post () ⟨up, lines, noted, ⟨m.labels, some breakLabel, some continueLabel⟩, st⟩) :
    Secures err (setJumps breakLabel continueLabel) ⟨up, lines, noted, m, st⟩ post := by
  refine update h fun g hg => ?_
  exact hg.change (·.aim (some breakLabel) (some continueLabel)) hg.upcoming hg.noted rfl
    (aim_emitLines (st.mark m) _ _ lines)

/-- A switch sets the label of `break` only. -/
theorem setBreak {breakLabel : String}
    (h : post () ⟨up, lines, noted, ⟨m.labels, some breakLabel, m.continueLabel⟩, st⟩) :
    Secures err (setBreak breakLabel) ⟨up, lines, noted, m, st⟩ post := by
  refine update h fun g hg => ?_
  refine hg.change (fun g => g.aim (some breakLabel) g.continueLabel) hg.upcoming hg.noted rfl ?_
  rw [emitLines_continueLabel, aim_emitLines]
  rfl

/-! ### The walk -/

/-- The node at hand has the label of the view. -/
theorem node {post : Node → View → Prop}
    (h : ∀ node : Node, node.label = head → post node ⟨head :: rest, lines, noted, m, st⟩) :
    Secures err node ⟨head :: rest, lines, noted, m, st⟩ post := by
  refine get fun g hg => ?_
  obtain ⟨found, hcurrent⟩ := exists_current hg.upcoming
  have hlabel : found.label = head := by
    have hup := hg.upcoming
    rw [upcoming, hcurrent] at hup
    exact (List.cons.inj hup).1
  rw [hcurrent]
  exact pure (h found hlabel)

theorem label {post : Label → View → Prop} (h : post head ⟨head :: rest, lines, noted, m, st⟩) :
    Secures err Generate.label ⟨head :: rest, lines, noted, m, st⟩ post :=
  bind <| node fun _ hlabel => pure (hlabel ▸ h)

theorem atRule {rule : Rule} {post : Bool → View → Prop}
    (h : post (head == .rule rule) ⟨head :: rest, lines, noted, m, st⟩) :
    Secures err (atRule? rule) ⟨head :: rest, lines, noted, m, st⟩ post :=
  bind <| .label <| pure h

theorem atWord {word : String} {post : Bool → View → Prop}
    (h : post (head == .word word) ⟨head :: rest, lines, noted, m, st⟩) :
    Secures err (atWord? word) ⟨head :: rest, lines, noted, m, st⟩ post :=
  bind <| .label <| pure h

/-- The word of the label at hand. -/
theorem argument {text : String} {post : String → View → Prop} (htext : head.argument? = some text)
    (h : post text ⟨head :: rest, lines, noted, m, st⟩) :
    Secures err argument ⟨head :: rest, lines, noted, m, st⟩ post :=
  bind <| .label <| part (fun hnone => absurd (hnone.symm.trans htext) (by simp))
    fun a ha => Option.some.inj (htext.symm.trans ha) ▸ h

/-- A rejection needs a line, and so a node. -/
theorem fail {place : Rule} {cause : SemanticCause} {post : α → View → Prop}
    (herr : ∀ error, err (.error error)) :
    Secures err (fail place cause) ⟨head :: rest, lines, noted, m, st⟩ post :=
  bind <| node fun _ _ => throw (herr _)

/-- A warning is noted. -/
theorem warn {warning : Warning} (h : ∀ noted, post () ⟨head :: rest, lines, noted, m, st⟩) :
    Secures err (warn warning) ⟨head :: rest, lines, noted, m, st⟩ post :=
  bind <| node fun node _ => update (h (noted ++ [(node.line, warning)])) fun _ hg =>
    ⟨hg.upcoming, congrArg (· ++ [(node.line, warning)]) hg.noted, hg.core⟩

section Steps

variable (first : List Label) (h : post () ⟨rest, lines, noted, m, st⟩)
include h

/-- The labels that are passed are given. -/
theorem shift : Secures err (shift first.length) ⟨first ++ rest, lines, noted, m, st⟩ post :=
  update h fun _ hg => hg.skip

/-- The rule is entered, and the walk goes on to its sons. -/
theorem enter {rule : Rule} : Secures err (enter rule (first.length + 1))
    ⟨.rule rule :: (first ++ rest), lines, noted, m, st⟩ post :=
  bind <| atRule <| ifPos (beq_self_eq_true _) <| shift (.rule rule :: first) h

/-- Some words are passed. -/
theorem pass {start : String} (hstart : head.beginsWith start = true) :
    Secures err (pass start (first.length + 1)) ⟨head :: (first ++ rest), lines, noted, m, st⟩
    post :=
  bind <| .label <| ifPos hstart <| shift (head :: first) h

end Steps

end Actions

end Secures

end ScoreLang
