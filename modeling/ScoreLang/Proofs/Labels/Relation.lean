import ScoreLang.Proofs.Labels.Numbered
import ScoreLang.Proofs.Labels.Renumber

/-!
# Two Runs of the Generator

The generator is run twice on the same tree, and the second run begins with other numbers for the
labels. `Renames n pre action action' same post` relates an action of the first run to one of the
second run: from states that differ in the numbers only, both fail, or both succeed with results
that are the `same`, and they end in states that differ in the numbers only. The condition `pre` on
the first state, and `post` on the last one, say what else is known.

What is known of every state is `Generator.Regular`: the lines that have been written are regular,
and so on. It has two parameters, the scopes and a condition on the current label. Most rules of
the generator leave the scopes alone and move on; such rules `Agree`.
-/

namespace ScoreLang

open Text Generate

/-! ### What is known of a state -/

/-- A text is the name of a label. -/
def IsLabelName (text : String) : Prop := ∃ number, text = labelName number

/-- The name of a label has no blanks. -/
theorem IsLabelName.solid {text : String} (h : IsLabelName text) : Solid text := by
  obtain ⟨number, rfl⟩ := h
  exact solid_labelName number

/-- A function is found under the name of a label. -/
def Entry.Labelled (entry : Entry) : Prop :=
  ∀ name, entry.address = .label name → IsLabelName name

/-- All functions are found under names of labels. -/
def Scopes.Labelled (scopes : Scopes) : Prop :=
  ∀ scope ∈ scopes, ∀ named ∈ scope.table, named.2.Labelled

/-- A name stands for the entry of one of the scopes. -/
theorem Scopes.exists_mem_of_find? {scopes : Scopes} {name : String} {entry : Entry}
    (h : scopes.find? name = some entry) : ∃ scope ∈ scopes, (name, entry) ∈ scope.table := by
  induction scopes with
  | nil => simp [Scopes.find?] at h
  | cons scope outer ih =>
    rw [Scopes.find?] at h
    cases hscope : scope.find? name with
    | none =>
      simp only [hscope] at h
      obtain ⟨found, hfound, hmem⟩ := ih h
      exact ⟨found, by simp [hfound], hmem⟩
    | some found =>
      simp only [hscope, Option.some.injEq] at h
      subst h
      exact ⟨scope, by simp, Scope.mem_of_find? hscope⟩

namespace Generator

/-- The labels of the nodes from the current one on. -/
def remaining (g : Generator) : List Label := (g.current.toList ++ g.ahead).map Node.label

/-- What is known of a state: its scopes, the current label, and that everything in it that looks
like the name of a label is one. -/
structure Regular (scopes : Scopes) (here : Option Label → Prop) (g : Generator) : Prop where
  /-- The scopes are given. -/
  scopes_eq : g.scopes = scopes
  /-- All functions are found under names of labels. -/
  functions : scopes.Labelled
  /-- The condition on the current label. -/
  here : here (g.current.map Node.label)
  /-- The labels ahead. -/
  remaining : Numbered g.remaining
  /-- The label at which the walk begins again. -/
  root : Numbered [g.root.label]
  /-- Where `break` goes on. -/
  breakLabel : ∀ label, g.breakLabel = some label → IsLabelName label
  /-- Where `continue` goes on. -/
  continueLabel : ∀ label, g.continueLabel = some label → IsLabelName label
  /-- The cell for the result. -/
  resultCell : Inert g.resultCell
  /-- The lines written last. -/
  last : ∀ line ∈ g.last, line.Regular
  /-- The lines that are held back. -/
  held : ∀ line ∈ g.held, line.Regular
  /-- The lines that are written. -/
  written : ∀ line ∈ g.written, line.Regular

/-- No condition on the current label. -/
def anywhere : Option Label → Prop := fun _ => True

namespace Regular

variable {scopes : Scopes} {here : Option Label → Prop} {g : Generator}

variable (h : g.Regular scopes here)

include h

/-- Nothing is said about the current label any more. -/
theorem weaken : g.Regular scopes anywhere := { h with here := trivial }

/-- The walk goes on to the next node. -/
theorem next : g.next.Regular scopes anywhere := by
  have hremaining := h.remaining
  unfold Generator.next
  unfold Generator.remaining at hremaining
  cases hahead : g.ahead with
  | nil =>
    cases hcurrent : g.current with
    | none => exact { h with here := trivial, remaining := h.root }
    | some node => exact { h with here := trivial, remaining := .nil }
  | cons node rest =>
    have hrest : Numbered ((node :: rest).map Node.label) := by
      cases hcurrent : g.current with
      | none => simpa [hcurrent, hahead] using hremaining
      | some current =>
        rw [hcurrent, hahead] at hremaining
        exact hremaining.tail
    exact { h with here := trivial, remaining := hrest }

/-- The walk goes on by some nodes. -/
theorem skip (count : Nat) :
    (g.skip count).Regular scopes anywhere := by
  induction count with
  | zero => exact h.weaken
  | succ count ih =>
    rw [skip_succ]
    exact ih.next

/-- Regular lines may be written. -/
theorem write {lines : List CodeLine} (hlines : ∀ line ∈ lines, line.Regular) :
    (g.write lines).Regular scopes here := by
  have happend : ∀ before : Array CodeLine, (∀ line ∈ before, line.Regular) →
      ∀ line ∈ before ++ lines, line.Regular := by
    intro before hbefore line hline
    rw [← Array.mem_toList_iff, Array.toList_appendList, List.mem_append,
      Array.mem_toList_iff] at hline
    exact hline.elim (hbefore line) (hlines line)
  unfold Generator.write
  split
  · exact { h with last := hlines, held := happend g.held h.held }
  · have hwritten : ∀ line ∈ g.written ++ lines ++ g.held, line.Regular := by
      intro line hline
      exact (Array.mem_append.1 hline).elim (happend g.written h.written line) (h.held line)
    exact { h with last := hlines, held := by simp, written := hwritten }

/-- A name stands for a cell, or for a function that is found under the name of a label. -/
theorem labelled {name : String} {entry : Entry} (hentry : scopes.find? name = some entry) :
    entry.Labelled := by
  obtain ⟨scope, hscope, hmem⟩ := Scopes.exists_mem_of_find? hentry
  exact h.functions scope hscope _ hmem

end Regular

end Generator

open Generator

/-! ### Pairs of runs -/

/-- Two faults are the same, up to the number of a label that they name. -/
inductive CodeFault.Renamed (n : Nat) : CodeFault → CodeFault → Prop where
  | same (fault : CodeFault) : Renamed n fault fault
  | label (number : Nat) : Renamed n (.integer (.malformed (labelName number)))
      (.integer (.malformed (labelName (number + n))))

variable {α β : Type} {n : Nat} {pre pre' : Generator → Prop} {same : α → α → Prop}
  {same' : β → β → Prop} {post : α → Generator → Prop} {post' : β → Generator → Prop}

/-- Two outcomes differ in the numbers of labels only. -/
inductive Matches (n : Nat) (same : α → α → Prop) (post : α → Generator → Prop) :
    Except CodeFault α × Generator → Except CodeFault α × Generator → Prop where
  | ok {a a' : α} {g : Generator} : same a a' → post a g →
      Matches n same post (.ok a, g) (.ok a', g.renumber n)
  | error {fault fault' : CodeFault} {g : Generator} : fault.Renamed n fault' →
      Matches n same post (.error fault, g) (.error fault', g.renumber n)

/-- Two actions do the same in states that differ in the numbers of labels only. -/
structure Renames (n : Nat) (pre : Generator → Prop) (action action' : Generate α)
    (same : α → α → Prop) (post : α → Generator → Prop) : Prop where
  run : ∀ g, pre g → Matches n same post (outcome action g) (outcome action' (g.renumber n))

namespace Renames

/-- Results that correspond. -/
protected theorem pure {a a' : α} (hsame : same a a') (hpost : ∀ g, pre g → post a g) :
    Renames n pre (pure a) (pure a') same post where
  run g hg := .ok hsame (hpost g hg)

/-- Faults that correspond. -/
protected theorem throw {fault fault' : CodeFault} (h : fault.Renamed n fault') :
    Renames n pre (throw fault : Generate α) (throw fault') same post where
  run _ _ := .error h

/-- One action after another one. -/
protected theorem bind {action action' : Generate α} {next next' : α → Generate β}
    (h : Renames n pre action action' same post)
    (hnext : ∀ a a', same a a' → Renames n (post a) (next a) (next' a') same' post') :
    Renames n pre (action >>= next) (action' >>= next') same' post' where
  run g hg := by
    have hmatches := h.run g hg
    rcases hfirst : outcome action g with ⟨_ | a, t⟩
    · rcases hfirst' : outcome action' (g.renumber n) with ⟨_ | a', t'⟩
      · rw [hfirst, hfirst'] at hmatches
        rw [outcome_bind_of_error hfirst, outcome_bind_of_error hfirst']
        cases hmatches with
        | error hfault => exact .error hfault
      · rw [hfirst, hfirst'] at hmatches
        cases hmatches
    · rcases hfirst' : outcome action' (g.renumber n) with ⟨_ | a', t'⟩
      · rw [hfirst, hfirst'] at hmatches
        cases hmatches
      · rw [hfirst, hfirst'] at hmatches
        rw [outcome_bind_of_ok hfirst, outcome_bind_of_ok hfirst']
        cases hmatches with
        | ok hsame hpost => exact (hnext a a' hsame).run t hpost

/-- What is known can be said in another way. -/
protected theorem mono {action action' : Generate α} {sameMore : α → α → Prop}
    {postMore : α → Generator → Prop} (h : Renames n pre action action' same post)
    (hpre : ∀ g, pre' g → pre g) (hsame : ∀ a a', same a a' → sameMore a a')
    (hpost : ∀ a g, post a g → postMore a g) :
    Renames n pre' action action' sameMore postMore where
  run g hg := by
    have hmatches := h.run g (hpre g hg)
    generalize outcome action g = first at hmatches
    generalize outcome action' (g.renumber n) = second at hmatches
    cases hmatches with
    | ok hresult hstate => exact .ok (hsame _ _ hresult) (hpost _ _ hstate)
    | error hfault => exact .error hfault

/-- A test that comes out the same. -/
protected theorem ite {p : Prop} [Decidable p] {action action' other other' : Generate α}
    (h : p → Renames n pre action action' same post)
    (hother : ¬p → Renames n pre other other' same post) :
    Renames n pre (if p then action else other) (if p then action' else other') same post := by
  split
  · exact h ‹_›
  · exact hother ‹_›

/-- The state may be looked at. -/
protected theorem get {next next' : Generator → Generate β}
    (h : ∀ g, pre g → Renames n (fun found => found = g) (next g) (next' (g.renumber n)) same'
    post') :
    Renames n pre (get >>= next) (get >>= next') same' post' where
  run g hg := (h g hg).run g rfl

/-- Changes that correspond. -/
protected theorem modify {change change' : Generator → Generator} {post : Unit → Generator → Prop}
    (h : ∀ g, pre g → change' (g.renumber n) = (change g).renumber n ∧ post () (change g)) :
    Renames n pre (modify change) (modify change') (fun _ _ => True) post where
  run g hg := by
    change Matches n _ post (.ok (), change g) (.ok (), change' (g.renumber n))
    rw [(h g hg).1]
    exact .ok trivial (h g hg).2

/-- A loop. -/
protected theorem repeatWhile {continues : Generate Bool} {round round' : α → Generate α}
    (hcontinues : Renames n pre continues continues Eq fun _ => pre)
    (hround : ∀ a a', same a a' → Renames n pre (round a) (round' a') same fun _ => pre)
    (limit : Nat) {a a' : α} (h : same a a') :
    Renames n pre (repeatWhile continues round limit a) (repeatWhile continues round' limit a') same
      fun _ => pre := by
  induction limit generalizing a a' with
  | zero =>
    refine hcontinues.bind fun goes goes' hgoes => ?_
    subst hgoes
    split
    · exact .throw (.same _)
    · exact .pure h fun _ hg => hg
  | succ limit ih =>
    refine hcontinues.bind fun goes goes' hgoes => ?_
    subst hgoes
    split
    · exact (hround a a' h).bind fun b b' hb => ih hb
    · exact .pure h fun _ hg => hg

end Renames

/-! ### Rules that leave the scopes alone -/

/-- Two actions do the same in states that differ in the numbers of labels only, and leave the
scopes alone. -/
structure Agree (n : Nat) (action action' : Generate α) (same : α → α → Prop) : Prop where
  renames : ∀ (scopes : Scopes) (here : Option Label → Prop),
    Renames n (Regular scopes here) action action' same fun _ => Regular scopes anywhere

/-- Two actions agree and do not move on. -/
structure Stays (n : Nat) (action action' : Generate α) (same : α → α → Prop) : Prop where
  renames : ∀ (scopes : Scopes) (here : Option Label → Prop),
    Renames n (Regular scopes here) action action' same fun _ => Regular scopes here

/-- Two texts that name labels differ in the number only. -/
def SameLabel (n : Nat) (text text' : String) : Prop :=
  ∃ number, text = labelName number ∧ text' = labelName (number + n)

/-- Two texts are the same, and do not name a label. -/
def SameText (text text' : String) : Prop := text' = text ∧ Inert text

/-- Two actions need not have a result. -/
def Done (_ _ : α) : Prop := True

/-- The current node is looked at. -/
protected theorem Renames.node {scopes : Scopes} {here : Option Label → Prop} :
    Renames n (Regular scopes here) node node Eq fun node =>
      Regular scopes fun found => here found ∧ found = some node.label := by
  refine .get fun g hg => ?_
  have hsame : (g.renumber n).current = g.current := rfl
  rw [hsame]
  cases hcurrent : g.current with
  | some node =>
    refine .pure rfl fun found hfound => ?_
    subst hfound
    exact { hg with here := ⟨hg.here, by rw [hcurrent]; rfl⟩ }
  | none => exact .throw (.same _)

/-- Both look at the same label. -/
protected theorem Renames.label {scopes : Scopes} {here : Option Label → Prop} :
    Renames n (Regular scopes here) label label Eq fun label =>
      Regular scopes fun found => here found ∧ found = some label :=
  Renames.node.bind fun _ _ hnode => hnode ▸ .pure rfl fun _ hg => hg

namespace Stays

variable {action action' : Generate α}

/-- What leaves the walk alone agrees. -/
protected theorem agree (h : Stays n action action' same) : Agree n action action' same where
  renames scopes here :=
    (h.renames scopes here).mono (fun _ hg => hg) (fun _ _ ha => ha) fun _ _ hg => hg.weaken

protected theorem pure {a a' : α} (h : same a a') : Stays n (pure a) (pure a') same where
  renames _ _ := .pure h fun _ hg => hg

protected theorem bind {next next' : α → Generate β} (h : Stays n action action' same)
    (hnext : ∀ a a', same a a' → Stays n (next a) (next' a') same') :
    Stays n (action >>= next) (action' >>= next') same' where
  renames scopes here :=
    (h.renames scopes here).bind fun a a' ha => (hnext a a' ha).renames scopes here

/-- Lines that are written with other numbers. -/
protected theorem emit (lines : List CodeLine) (h : ∀ line ∈ lines, line.Regular) :
    Stays n (emit lines) (emit (lines.map (CodeLine.renumber n))) Done where
  renames _ _ := .modify fun g hg => ⟨write_renumber g lines, hg.write h⟩

/-- One line. -/
protected theorem emit_one {line line' : CodeLine} (h : line.Regular)
    (hline : line.renumber n = line') : Stays n (emit [line]) (emit [line']) Done := by
  rw [← hline]
  exact .emit [line] (by simpa using h)

/-- Labels that correspond are placed. -/
protected theorem place {name name' : String} (h : SameLabel n name name') :
    Stays n (place name) (place name') Done := by
  obtain ⟨number, rfl, rfl⟩ := h
  exact .emit_one (.label number) (by rw [CodeLine.renumber, renumber_labelName])

/-- A label that has not been used. -/
protected theorem newLabel : Stays n newLabel newLabel (SameLabel n) where
  renames scopes here := by
    let count : Generate Unit := modify fun g => { g with labels := g.labels + 1 }
    have hcount : Renames n (Regular scopes here) count count Done fun _ => Regular scopes
      here := by
      refine .modify fun g hg => ⟨?_, { hg with }⟩
      simp only [Generator.renumber, Generator.mk.injEq, true_and, and_true]
      omega
    exact hcount.bind fun _ _ _ => .get fun g hg => .pure ⟨g.labels, rfl, rfl⟩ fun _ hfound =>
      hfound ▸ hg

end Stays

namespace Agree

variable {action action' : Generate α} {next next' : α → Generate β}

protected theorem pure {a a' : α} (h : same a a') : Agree n (pure a) (pure a') same where
  renames _ _ := .pure h fun _ hg => hg.weaken

protected theorem throw {fault fault' : CodeFault} (h : fault.Renamed n fault') :
    Agree n (throw fault : Generate α) (throw fault') same where
  renames _ _ := .throw h

/-- Actions that agree, one after the other. -/
protected theorem bind (h : Agree n action action' same)
    (hnext : ∀ a a', same a a' → Agree n (next a) (next' a') same') :
    Agree n (action >>= next) (action' >>= next') same' where
  renames scopes here :=
    (h.renames scopes here).bind fun a a' ha => (hnext a a' ha).renames scopes anywhere

/-- The result is looked at. -/
protected theorem test (h : Agree n action action' Eq) (hnext : ∀ a, Agree n (next a) (next' a)
    same') : Agree n (action >>= next) (action' >>= next') same' :=
  h.bind fun a _ ha => ha ▸ hnext a

protected theorem ite {p : Prop} [Decidable p] {other other' : Generate α}
    (h : p → Agree n action action' same) (hother : ¬p → Agree n other other' same) :
    Agree n (if p then action else other) (if p then action' else other') same := by
  split
  · exact h ‹_›
  · exact hother ‹_›

/-- Results may be compared less closely. -/
protected theorem mono {sameMore : α → α → Prop} (h : Agree n action action' same)
    (hsame : ∀ a a', same a a' → sameMore a a') : Agree n action action' sameMore where
  renames scopes here := (h.renames scopes here).mono (fun _ hg => hg) hsame fun _ _ hg => hg

/-- An action that looks at the whole state. -/
protected theorem get {next next' : Generator → Generate β}
    (h : ∀ g scopes here, g.Regular scopes here → Agree n (next g) (next' (g.renumber n)) same') :
    Agree n (get >>= next) (get >>= next') same' where
  renames scopes here := .get fun g hg => ((h g scopes here hg).renames scopes here).mono
    (fun _ hfound => hfound ▸ hg) (fun _ _ ha => ha) fun _ _ hlast => hlast

/-- Changes that agree. -/
protected theorem modify {change change' : Generator → Generator}
    (hchange : ∀ g, change' (g.renumber n) = (change g).renumber n)
    (h : ∀ {g scopes here}, g.Regular scopes here → (change g).Regular scopes anywhere) :
    Agree n (modify change) (modify change') Done where
  renames _ _ := .modify fun g hg => ⟨hchange g, h hg⟩

/-- Loops agree if their rounds do. -/
protected theorem repeatWhile {continues : Generate Bool} {round round' : α → Generate α}
    (hcontinues : Agree n continues continues Eq)
    (hround : ∀ a a', same a a' → Agree n (round a) (round' a') same) (limit : Nat) {a a' : α}
    (h : same a a') :
    Agree n (repeatWhile continues round limit a) (repeatWhile continues round' limit a') same where
  renames scopes _ :=
    (Renames.repeatWhile (hcontinues.renames scopes anywhere)
      (fun b b' hb => (hround b b' hb).renames scopes anywhere) limit h).mono
      (fun _ hg => hg.weaken) (fun _ _ hb => hb) fun _ _ hg => hg

/-! ### The walk -/

protected theorem ofInteger {value : Except IntegerFault α} :
    Agree n (ofInteger value) (ofInteger value) Eq := by
  cases value with
  | ok a => exact .pure rfl
  | error fault => exact .throw (.same _)

/-- A number is no label, and is written the same. -/
protected theorem writeInteger (value : Int) :
    Agree n (ofInteger (writeInteger value)) (ofInteger (writeInteger value))
      SameText := by
  cases hvalue : Text.writeInteger value with
  | ok text => exact .pure ⟨rfl, .writeInteger hvalue⟩
  | error fault => exact .throw (.same _)

protected theorem part {value : Option α} : Agree n (part value) (part value) Eq := by
  cases value with
  | some a => exact .pure rfl
  | none => exact .throw (.same _)

protected theorem shift (count : Nat) : Agree n (shift count) (shift count) Done :=
  .modify (fun g => skip_renumber g count) fun hg => hg.skip count

/-- Both are at the same node. -/
protected theorem node : Agree n node node Eq where
  renames _ _ := Renames.node.mono (fun _ hg => hg) (fun _ _ hnode => hnode) fun _ _ hg => hg.weaken

protected theorem label : Agree n label label Eq := .test .node fun _ => .pure rfl

protected theorem atRule? (rule : Rule) : Agree n (atRule? rule) (atRule? rule) Eq :=
  .test .label fun _ => .pure rfl

protected theorem atWord? (word : String) : Agree n (atWord? word) (atWord? word) Eq :=
  .test .label fun _ => .pure rfl

protected theorem argument : Agree n argument argument Eq := .test .label fun _ => .part

protected theorem enter (rule : Rule) (count : Nat) : Agree n (enter rule count) (enter rule count)
    Done :=
  .test (.atRule? rule) fun _ => .ite (fun _ => .shift count) fun _ => .throw (.same _)

protected theorem pass (start : String) (count : Nat) :
    Agree n (pass start count) (pass start count) Done :=
  .test .label fun _ => .ite (fun _ => .shift count) fun _ => .throw (.same _)

protected theorem fail {place : Rule} {cause : SemanticCause} :
    Agree n (fail place cause : Generate α) (fail place cause) same :=
  .test .node fun _ => .throw (.same _)

protected theorem warn (warning : Warning) : Agree n (warn warning) (warn warning) Done :=
  .test .node fun _ => .modify (fun _ => rfl) fun hg => { hg with here := trivial }

/-! ### Writing -/

/-- Lines with other numbers are written by both. -/
protected theorem emit (lines : List CodeLine) (h : ∀ line ∈ lines, line.Regular) :
    Agree n (emit lines) (emit (lines.map (CodeLine.renumber n))) Done := (Stays.emit lines h).agree

protected theorem place {name name' : String} (h : SameLabel n name name') :
    Agree n (place name) (place name') Done := (Stays.place h).agree

/-- A command that may name a label. -/
protected theorem perform_renumber {operation : Operation} {operand : String}
    (hoperation : operation.namesLabel = true) (hoperand : Solid operand) :
    Agree n (perform operation operand) (perform operation (renumber n operand)) Done :=
  (Stays.emit_one (.jump hoperation hoperand) rfl).agree

/-- A command that names a label. -/
protected theorem perform_label {operation : Operation} {name name' : String}
    (hoperation : operation.namesLabel = true) (h : SameLabel n name name') :
    Agree n (perform operation name) (perform operation name') Done := by
  obtain ⟨number, rfl, rfl⟩ := h
  rw [← renumber_labelName]
  exact .perform_renumber hoperation (solid_labelName number)

/-- A command that does not name a label. -/
protected theorem perform {operation : Operation} {operand operand' : String}
    (h : SameText operand operand') :
    Agree n (perform operation operand) (perform operation operand') Done := by
  obtain ⟨rfl, hinert⟩ := h
  exact (Stays.emit_one (.plain hinert)
    (by rw [CodeLine.renumber_line, hinert.renumber_eq]; rfl)).agree

protected theorem act (operation : Operation) : Agree n (act operation) (act operation) Done :=
  .perform ⟨rfl, .empty⟩

protected theorem hold (holding : Bool) : Agree n (hold holding) (hold holding) Done :=
  .modify (fun _ => rfl) fun hg => { hg with here := trivial }

/-- Both take the next number for a new label. -/
protected theorem newLabel : Agree n newLabel newLabel (SameLabel n) := Stays.newLabel.agree

/-- Nothing comes after a fault. -/
protected theorem throw_bind (fault : CodeFault) :
    Agree n ((throw fault : Generate α) >>= next) (throw fault >>= next')
      same' := by
  have hthrow : Agree n (throw fault : Generate α) (throw fault)
      fun _ _ => False := .throw (.same fault)
  exact hthrow.bind fun _ _ hnever => hnever.elim

/-- Nothing comes after the rejection of a program. -/
protected theorem fail_bind {place : Rule} {cause : SemanticCause} :
    Agree n (fail place cause >>= next) (fail place cause >>= next') same' := by
  have hfail : Agree n (fail place cause : Generate α) (fail place cause)
      fun _ _ => False := .fail
  exact hfail.bind fun _ _ hnever => hnever.elim

/-- A program is rejected under a condition. -/
protected theorem insist {p : Prop} [Decidable p] {place : Rule} {cause : SemanticCause}
    {next next' : Unit → Generate β} (h : Agree n (next ()) (next' ()) same') :
    Agree n (if p then fail place cause >>= next else next ())
      (if p then fail place cause >>= next' else next' ()) same' :=
  .ite (fun _ => .fail_bind) fun _ => h

end Agree

end ScoreLang
