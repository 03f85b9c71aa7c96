import ScoreLang.Proofs.Labels.Rules

/-!
# Programs with Other Numbers

The rules for declarations and functions change the scopes. `Generator.Within known` is what is
known of a state between two of them: it is regular, and something is known of its scopes. While
names are declared, no function has been entered into the innermost scope, so that a name that has
just been declared stands for a cell, and the command that stores its value does not name a label.
-/

namespace ScoreLang

open List Text Generate Generator

variable {α β : Type} {n : Nat} {known : Scopes → Prop} {same : α → α → Prop}

/-! ### Scopes -/

/-- No function has been entered into a scope. -/
def Scope.Celled (scope : Scope) : Prop := ∀ named ∈ scope.table, named.2.address.IsCell

namespace Scopes

variable {scopes : Scopes} {name label : String} {category : Category} {size : Int}

/-- No function has been entered into the innermost scope. -/
def Celled (scopes : Scopes) : Prop := ∃ scope outer, scopes = scope :: outer ∧ scope.Celled

/-- A name does not stand for a function. -/
def Cell (name : String) (scopes : Scopes) : Prop :=
  ∀ entry, scopes.find? name = some entry → entry.address.IsCell

theorem isCell_nextAddress (scope : Scope) : scope.nextAddress.IsCell := by
  unfold Scope.nextAddress
  split <;> simp [Address.IsCell]

/-- The table of a scope after a name has been entered. -/
theorem exists_table_insert (scope : Scope) (name : String) (category : Category) (size : Int)
    (label : String) : ∃ entry, (scope.insert name category size label).table
      = (name, entry) :: scope.table ∧ (category = .function → entry.address = .label label) ∧
        (category ≠ .function → entry.address.IsCell) := by
  unfold Scope.insert
  split
  · exact ⟨_, rfl, fun _ => rfl, fun h => absurd ‹_› h⟩
  · split
    · exact ⟨_, rfl, fun h => absurd h ‹_›, fun _ => isCell_nextAddress scope⟩
    · exact ⟨_, rfl, fun h => absurd h ‹_›, fun _ => isCell_nextAddress scope⟩

theorem Labelled.put (h : scopes.Labelled) (hlabel : category = .function → IsLabelName label) :
    ((scopes.put? name category size label).getD scopes).Labelled := by
  cases scopes with
  | nil => exact h
  | cons scope outer =>
    rw [Scopes.put?, Scope.put?]
    split
    · exact h
    · obtain ⟨entry, htable, hfunction, hcell⟩ :=
        exists_table_insert scope name category size label
      intro found hfound named hnamed other haddress
      rcases mem_cons.1 hfound with rfl | hfound
      · rw [htable, mem_cons] at hnamed
        rcases hnamed with rfl | hnamed
        · by_cases hcategory : category = .function
          · rw [hfunction hcategory] at haddress
            exact Address.label.inj haddress ▸ hlabel hcategory
          · exact absurd haddress (hcell hcategory other)
        · exact h scope (by simp) named hnamed other haddress
      · exact h found (by simp [hfound]) named hnamed other haddress

/-- A name that is declared stands for a cell. -/
theorem Celled.put (h : scopes.Celled) (hcategory : category ≠ .function) :
    ((scopes.put? name category size label).getD scopes).Celled ∧
      Cell name ((scopes.put? name category size label).getD scopes) := by
  obtain ⟨scope, outer, rfl, hcells⟩ := h
  -- the innermost scope holds the name in any case, and it holds cells only
  obtain ⟨inner, hinner, hheld, hcelled⟩ : ∃ inner : Scope,
      (Scopes.put? (scope :: outer) name category size label).getD (scope :: outer) = inner ::
      outer ∧
      (inner.find? name).isSome ∧ inner.Celled := by
    rw [Scopes.put?, Scope.put?]
    split
    · exact ⟨scope, rfl, ‹_›, hcells⟩
    · obtain ⟨entry, htable, -, hcell⟩ := exists_table_insert scope name category size label
      refine ⟨_, rfl, (Scope.isSome_find?_insert ..).2 (.inl rfl), ?_⟩
      intro named hnamed
      rw [htable, mem_cons] at hnamed
      rcases hnamed with rfl | hnamed
      · exact hcell hcategory
      · exact hcells named hnamed
  rw [hinner]
  refine ⟨⟨inner, outer, rfl, hcelled⟩, fun entry hentry => ?_⟩
  obtain ⟨found, hfound⟩ := Option.isSome_iff_exists.1 hheld
  rw [Scopes.find?, hfound] at hentry
  obtain rfl := Option.some.inj hentry
  exact hcelled _ (Scope.mem_of_find? hfound)

end Scopes

/-! ### What is known between two rules -/

/-- A state is regular, and something is known of its scopes. -/
structure Generator.Within (known : Scopes → Prop) (g : Generator) : Prop where
  known : known g.scopes
  regular : g.Regular g.scopes anywhere

/-- No function has been entered into the innermost scope. -/
abbrev Generator.Declaring : Generator → Prop := Within Scopes.Celled

/-- Nothing is known of the scopes. -/
abbrev Generator.Between : Generator → Prop := Within fun _ => True

theorem Generator.Regular.within {scopes : Scopes} {here : Option Label → Prop} {g : Generator}
    (h : g.Regular scopes here) (hscopes : known scopes) : g.Within known := by
  have heq := h.scopes_eq
  subst heq
  exact ⟨hscopes, h.weaken⟩

/-- The scopes are replaced. -/
theorem Generator.Regular.withScopes {here : Option Label → Prop} {scopes scopes' : Scopes}
    {g : Generator} (h : g.Regular scopes here) (hlabelled : scopes'.Labelled) :
    { g with scopes := scopes' }.Regular scopes' here :=
  { h with scopes_eq := rfl, functions := hlabelled }

/-- A rule that leaves the scopes alone. -/
protected theorem Agree.within {action action' : Generate α} (h : Agree n action action' same) :
    Renames n (Within known) action action' same fun _ => Within known where
  run g hg := ((h.renames g.scopes anywhere).mono (fun _ hfirst => hfirst) (fun _ _ ha => ha)
    fun _ _ hlast => hlast.within hg.known).run g hg.regular

/-- Two lists of lines differ in the numbers of labels only. -/
def SameLines (n : Nat) (lines lines' : List CodeLine) : Prop :=
  lines' = lines.map (CodeLine.renumber n) ∧ ∀ line ∈ lines, line.Regular

namespace Renames

/-- The result is looked at. -/
protected theorem test {pre : Generator → Prop} {same' : β → β → Prop}
    {post : α → Generator → Prop} {post' : β → Generator → Prop} {action action' : Generate α}
    {next next' : α → Generate β} (h : Renames n pre action action' Eq post)
    (hnext : ∀ a, Renames n (post a) (next a) (next' a) same' post') :
    Renames n pre (action >>= next) (action' >>= next') same' post' :=
  h.bind fun a _ ha => ha ▸ hnext a

protected theorem put (pre : Generator → Prop) (scopes : Scopes) (name : String)
    (category : Category) (size : Int) (label : String) :
    Renames n pre (put scopes name category size label)
      (put (scopes.renumber n) name category size (renumber n label))
      (fun found found' => found = (scopes.put? name category size label).getD scopes ∧
        found' = found.renumber n) fun _ => pre := by
  have hnext : ((scopes.renumber n).head?.map (·.next)).getD 0
      = (scopes.head?.map (·.next)).getD 0 := by
    cases scopes <;> rfl
  have hput : ((scopes.renumber n).put? name category size (renumber n label)).getD
      (scopes.renumber n) = ((scopes.put? name category size label).getD scopes).renumber n := by
    rw [Scopes.put?_renumber]
    cases scopes.put? name category size label <;> rfl
  unfold put
  rw [hnext, hput]
  cases writeInteger ((scopes.head?.map (·.next)).getD 0) with
  | ok text => exact .pure ⟨rfl, rfl⟩ fun _ hg => hg
  | error fault => exact .throw (.same _)

/-- A name is declared. -/
protected theorem declare (name : String) {category : Category} (hcategory : category ≠ .function)
    (size : Int) :
    Renames n Declaring (declare name category size) (declare name category size) Done fun _ =>
      Within fun scopes => scopes.Celled ∧ Scopes.Cell name scopes := by
  refine .get fun g hg => ?_
  have hput := Renames.put (n := n) (fun found => found = g) g.scopes name category size ""
  rw [renumber_empty] at hput
  refine hput.bind fun scopes scopes' hscopes => .modify fun found hfound => ?_
  obtain ⟨rfl, rfl⟩ := hscopes
  subst hfound
  exact ⟨rfl, hg.known.put hcategory,
    hg.regular.withScopes (hg.regular.functions.put fun h => absurd h hcategory)⟩

/-- A name that has been declared stands for a cell. -/
protected theorem entry_cell {name : String}
    (hname : ∀ scopes, known scopes → Scopes.Cell name scopes) :
    Renames n (Within known) (entry name) (entry name)
      (fun found found' => found' = found ∧ found.address.IsCell) fun _ => Within known := by
  refine .get fun g hg => ?_
  have hfind : (g.renumber n).scopes.find? name
      = (g.scopes.find? name).map (Entry.renumber n) := Scopes.find?_renumber g.scopes name
  rw [hfind]
  cases hfound : g.scopes.find? name with
  | none => exact .throw (.same _)
  | some found =>
    have hcell := hname _ hg.known found hfound
    refine .pure ⟨?_, hcell⟩ fun other hother => hother ▸ hg
    rw [Entry.renumber, hcell.renumber_eq]

protected theorem openScope (relative : Bool) (start : Int) :
    Renames n (Within known) (openScope relative start) (openScope relative start) Done fun _ =>
      Declaring := by
  refine .modify fun g hg => ⟨rfl, ⟨_, _, rfl, by simp [Scope.Celled, Scope.empty]⟩, ?_⟩
  refine { hg.regular with scopes_eq := rfl, functions := ?_ }
  intro scope hscope
  rcases mem_cons.1 hscope with rfl | hscope
  · simp [Scope.empty]
  · exact hg.regular.functions scope hscope

protected theorem closeScope :
    Renames n (Within known) closeScope closeScope Done fun _ => Between := by
  refine .get fun g hg => ?_
  have hsame : (g.renumber n).scopes = g.scopes.renumber n := rfl
  rw [hsame]
  rcases hscopes : g.scopes with _ | ⟨inner, _ | ⟨scope, outer⟩⟩
  · exact .throw (.same _)
  · exact .throw (.same _)
  · refine .modify fun found hfound => ?_
    subst hfound
    refine ⟨rfl, trivial, hg.regular.withScopes fun other hother => ?_⟩
    exact hg.regular.functions other (by rw [hscopes]; exact mem_cons_of_mem _ hother)

end Renames

/-! ### Declarations -/

/-- An operand that is moved does not name a label either. -/
theorem inert_movedOperand {inFrame : Bool} {command operand text : String} {offset : Int}
    (hoperand : Inert operand) (h : movedOperand inFrame command operand offset = .ok text) :
    Inert text := by
  unfold movedOperand at h
  split at h
  · exact Except.ok.inj h ▸ hoperand
  · obtain ⟨number, hnumber⟩ : ∃ number, writeInteger number = .ok text := by
      split at h <;> simp only [bind_eq_ok, mapError_eq_ok] at h <;>
        exact ⟨_, h.choose_spec.2.choose_spec.2⟩
    exact .writeInteger hnumber

namespace Agree

/-- A store whose operand is moved. -/
protected theorem performMoved {address : String} (h : Inert address) (offset : Int) :
    Agree n (performMoved Operation.store.mnemonic address offset)
      (performMoved Operation.store.mnemonic address offset) Done := by
  have hmoved : Agree n (moved Operation.store.mnemonic address offset)
      (moved Operation.store.mnemonic address offset) SameText := by
    refine .get fun g _ _ _ => ?_
    have hrelative : ((g.renumber n).scopes.head?.map (·.relative)).getD false
        = (g.scopes.head?.map (·.relative)).getD false := by
      change ((g.scopes.map (Scope.renumber n)).head?.map _).getD false = _
      cases g.scopes <;> rfl
    rw [hrelative]
    dsimp only
    cases hresult : movedOperand ((g.scopes.head?.map (·.relative)).getD false)
        Operation.store.mnemonic address offset with
    | ok text => exact .pure ⟨rfl, inert_movedOperand h hresult⟩
    | error fault => exact .throw (.same _)
  exact .bind hmoved fun text text' htext => .perform htext

protected theorem fillZeros {address : String} (h : Inert address) (offset : Int) (count : Nat) :
    Agree n (fillZeros address offset count) (fillZeros address offset count) Done := by
  induction count generalizing offset with
  | zero => exact .pure trivial
  | succ count ih =>
    have hzero : Inert "0" := .of_head? (by decide) (by decide)
    refine .bind (.perform ⟨rfl, hzero⟩) fun _ _ _ => .bind (.performMoved h offset) fun _ _ _ => ?_
    exact .bind (.act .pop) fun _ _ _ => ih (offset + 1)

protected theorem initialValue (limit : Nat) {address : String} (h : Inert address) (size : Int)
    (index : Nat) :
    Agree n (initialValue limit address size index) (initialValue limit address size index) Eq := by
  refine .bind (.shift 1) fun _ _ _ => .bind (.logical (.expression limit) limit) fun _ _ _ => ?_
  refine .ite (fun _ => ?_) fun _ => ?_
  · exact .bind (.performMoved h _) fun _ _ _ => .bind (.act .pop) fun _ _ _ => .pure rfl
  · exact .bind (.act .pop) fun _ _ _ => .bind (.warn .surplusValue) fun _ _ _ => .pure rfl

end Agree

namespace Renames

/-- The values of an array that has been declared. -/
protected theorem initializer (limit : Nat) {array : String}
    (harray : ∀ scopes, known scopes → Scopes.Cell array scopes) :
    Renames n (Within known) (initializer limit array) (initializer limit array) Done fun _ =>
      Within known := by
  refine (Agree.enter .initializer 1).within.bind fun _ _ _ => ?_
  refine (Renames.entry_cell harray).bind fun found found' hfound => Agree.within ?_
  obtain ⟨rfl, hcell⟩ := hfound
  refine .test .part fun size => .bind (.addressText_cell ⟨rfl, hcell⟩) fun address address'
    htext => ?_
  obtain ⟨rfl, hinert⟩ := htext
  refine .test (.repeatWhile (.test (.atWord? "\x7d") fun _ => .pure rfl) (fun index _ hindex => ?_)
    limit rfl) fun count => .bind (.shift 1) fun _ _ _ => .fillZeros hinert _ _
  subst hindex
  exact .initialValue limit hinert size index

/-- The declaration of one name. -/
protected theorem declarator (limit : Nat) :
    Renames n Declaring (declarator limit) (declarator limit) Eq fun _ => Declaring := by
  have hcells : ∀ {name : String} {g : Generator},
      g.Within (fun scopes => scopes.Celled ∧ Scopes.Cell name scopes) → g.Declaring :=
    fun hg => ⟨hg.known.1, hg.regular⟩
  refine (Agree.enter .declarator 1).within.bind fun _ _ _ => ?_
  refine Agree.argument.within.test fun name => (Agree.shift 1).within.bind fun _ _ _ => ?_
  refine (Agree.atWord? "=").within.test fun _ => .ite (fun _ => ?_) fun _ => ?_
  · refine (Renames.declare name (by decide) 0).bind fun _ _ _ => ?_
    refine (Agree.shift 1).within.bind fun _ _ _ => ?_
    refine (Agree.logical (.expression limit) limit).within.bind fun _ _ _ => ?_
    refine (Renames.entry_cell fun _ h => h.2).bind fun found found' hfound => ?_
    obtain ⟨rfl, hcell⟩ := hfound
    refine (Agree.addressText_cell ⟨rfl, hcell⟩).within.bind fun address address' htext => ?_
    refine (Agree.perform htext).within.bind fun _ _ _ => ?_
    exact (Agree.act .pop).within.bind fun _ _ _ => .pure rfl fun _ hg => hcells hg
  · refine (Agree.atWord? "[").within.test fun _ => .ite (fun _ => ?_) fun _ => ?_
    · refine (Agree.shift 1).within.bind fun _ _ _ => Agree.argument.within.test fun _ => ?_
      refine Agree.ofInteger.within.test fun size => ?_
      refine (Renames.declare name (by decide) size).bind fun _ _ _ => ?_
      refine (Agree.shift 2).within.bind fun _ _ _ => (Agree.atWord? "=").within.test fun _ => ?_
      refine .ite (fun _ => ?_) fun _ => .pure rfl fun _ hg => hcells hg
      refine (Agree.shift 1).within.bind fun _ _ _ => ?_
      exact (Renames.initializer limit fun _ h => h.2).bind fun _ _ _ => .pure rfl fun _ hg =>
        hcells hg
    · exact (Renames.declare name (by decide) 0).bind fun _ _ _ => .pure rfl fun _ hg => hcells hg

protected theorem declaration (limit : Nat) :
    Renames n Declaring (declaration limit) (declaration limit) Eq fun _ => Declaring := by
  refine (Agree.enter .declaration 2).within.bind fun _ _ _ => ?_
  refine (Renames.declarator limit).test fun first => ?_
  refine (Renames.repeatWhile (Agree.test (.atWord? ";") fun _ => .pure rfl).within
    (fun size _ hsize => ?_) limit rfl).test fun size => ?_
  · subst hsize
    refine (Agree.shift 1).within.bind fun _ _ _ => ?_
    exact (Renames.declarator limit).test fun _ => .pure rfl fun _ hg => hg
  · exact (Agree.shift 1).within.bind fun _ _ _ => .pure rfl fun _ hg => hg

/-- **The code of declarations** is the same under other numbers for the labels. -/
protected theorem declarations (limit : Nat) :
    Renames n Declaring (declarations limit) (declarations limit) Eq fun _ => Declaring := by
  have hloop : Renames n Declaring
      (repeatWhile (atRule? .declaration) (fun size => return size + (← declaration limit)) limit 0)
      (repeatWhile (atRule? .declaration) (fun size => return size + (← declaration limit)) limit 0)
      Eq fun _ => Declaring := by
    refine .repeatWhile (Agree.atRule? .declaration).within (fun size _ hsize => ?_) limit rfl
    subst hsize
    exact (Renames.declaration limit).test fun _ => .pure rfl fun _ hg => hg
  refine (Agree.enter .declarations 1).within.bind fun _ _ _ => ?_
  refine (Agree.atRule? .declaration).within.test fun _ => .ite (fun _ => ?_) fun _ => hloop
  exact (Agree.warn .noDeclarations).within.bind fun _ _ _ => hloop

/-! ### Functions -/

protected theorem bodyParts (limit : Nat) :
    Renames n Declaring (bodyParts limit) (bodyParts limit) Eq fun _ => Declaring := by
  refine (Renames.declarations limit).test fun size => ?_
  refine (Agree.statements (.statement limit) limit).within.bind fun _ _ _ => ?_
  exact (Agree.shift 1).within.bind fun _ _ _ => .pure rfl fun _ hg => hg

protected theorem functionBody (limit : Nat) :
    Renames n Declaring (functionBody limit) (functionBody limit) Eq fun _ => Declaring :=
  (Agree.enter .body 2).within.bind fun _ _ _ => .bodyParts limit

protected theorem mainBody (limit : Nat) (start : Int) :
    Renames n Between (mainBody limit start) (mainBody limit start) Eq fun _ => Between := by
  refine (Agree.enter .body 2).within.bind fun _ _ _ => ?_
  refine (Renames.openScope false start).bind fun _ _ _ =>
    (Renames.bodyParts limit).test fun size => ?_
  exact Renames.closeScope.bind fun _ _ _ => .pure rfl fun _ hg => hg

/-- A parameter is declared. -/
protected theorem parameter :
    Renames n Declaring parameter parameter (SameLines n) fun _ => Declaring := by
  refine (Agree.enter .parameter 2).within.bind fun _ _ _ =>
    Agree.argument.within.test fun name => ?_
  refine (Renames.declare name (by decide) 0).bind fun _ _ _ => ?_
  refine (Renames.entry_cell fun _ h => h.2).bind fun found found' hfound => ?_
  obtain ⟨rfl, hcell⟩ := hfound
  refine (Agree.addressText_cell ⟨rfl, hcell⟩).within.bind fun cell cell' htext => ?_
  obtain ⟨rfl, hinert⟩ := htext
  refine (Agree.shift 1).within.bind fun _ _ _ => .pure ⟨?_, ?_⟩ fun _ hg =>
    ⟨hg.known.1, hg.regular⟩
  · simp [CodeLine.renumber, hinert.renumber_eq]
  · have hstore : (Operation.store.line cell').Regular := .plain hinert
    intro line hline
    rcases mem_cons.1 hline with rfl | hline
    · exact hstore
    · obtain rfl := mem_singleton.1 hline
      exact .bare .pop

/-- The lines of several parameters are written one after the other. -/
protected theorem forM_emit {taken taken' : List (List CodeLine)}
    (h : List.Forall₂ (SameLines n) taken taken') :
    Agree n (taken.forM emit) (taken'.forM emit) Done := by
  induction h with
  | nil => exact .pure trivial
  | cons hlines _ ih =>
    obtain ⟨rfl, hregular⟩ := hlines
    exact .bind (.emit _ hregular) fun _ _ _ => ih

protected theorem parameters (limit : Nat) :
    Renames n Declaring (parameters limit) (parameters limit) Eq fun _ => Declaring := by
  refine (Agree.enter .parameters 1).within.bind fun _ _ _ => ?_
  -- the first parameter is apart; with its lines, or none, the loop begins
  have hfurther : ∀ first first' : List (List CodeLine), List.Forall₂ (SameLines n) first first' →
      Renames n Declaring
        (do
          let taken ← repeatWhile (atWord? ",") (fun taken => do
            shift 1
            return (← parameter) :: taken) limit first
          taken.forM emit
          return taken.length)
        (do
          let taken ← repeatWhile (atWord? ",") (fun taken => do
            shift 1
            return (← parameter) :: taken) limit first'
          taken.forM emit
          return taken.length) Eq fun _ => Declaring := by
    intro first first' hfirst
    refine (Renames.repeatWhile (Agree.atWord? ",").within (fun taken taken' htaken => ?_) limit
      hfirst).bind fun taken taken' htaken => ?_
    · refine (Agree.shift 1).within.bind fun _ _ _ => ?_
      exact Renames.parameter.bind fun _ _ hlines => .pure (.cons hlines htaken) fun _ hg => hg
    · exact (Renames.forM_emit htaken).within.bind fun _ _ _ => .pure htaken.length_eq fun _
        hg => hg
  have hpure : ∀ {first first' : List (List CodeLine)}, List.Forall₂ (SameLines n) first first' →
      Renames n Declaring (pure first) (pure first') (List.Forall₂ (SameLines n)) fun _ =>
      Declaring :=
    fun hfirst => .pure hfirst fun _ hg => hg
  refine (Agree.atRule? .parameter).within.test fun _ => .ite (fun _ => ?_) fun _ => ?_
  · exact Renames.parameter.bind fun _ _ hlines => (hpure (.cons hlines .nil)).bind hfurther
  · exact (hpure .nil).bind hfurther

/-- A function is entered into the scope around its own one. -/
protected theorem register (name : String) (count : Int) {start start' : String}
    (hstart : SameLabel n start start') {next next' : Unit → Generate α}
    {post : α → Generator → Prop} (hnext : Renames n Declaring (next ()) (next' ()) same post) :
    Renames n Declaring
      (get >>= fun g => put g.scopes.tail name .function count start >>= fun outer =>
        (modify fun g => { g with scopes := g.scopes.take 1 ++ outer }) >>= next)
      (get >>= fun g => put g.scopes.tail name .function count start' >>= fun outer =>
        (modify fun g => { g with scopes := g.scopes.take 1 ++ outer }) >>= next') same post := by
  obtain ⟨number, rfl, rfl⟩ := hstart
  refine .get fun g hg => ?_
  have htail : (g.renumber n).scopes.tail = Scopes.renumber n g.scopes.tail := map_tail.symm
  have hput := Renames.put (n := n) (fun found => found = g) g.scopes.tail name .function count
    (labelName number)
  rw [renumber_labelName] at hput
  rw [htail]
  refine hput.bind fun entered entered' hentered => ?_
  obtain ⟨rfl, rfl⟩ := hentered
  refine (Renames.modify fun found hfound => ?_).bind fun _ _ _ => hnext
  subst hfound
  obtain ⟨scope, outer, hscopes, hcelled⟩ := hg.known
  refine ⟨?_, ?_, hg.regular.withScopes ?_⟩
  · simp [Generator.renumber, Scopes.renumber, map_take]
  · exact ⟨scope, _, by rw [hscopes]; rfl, hcelled⟩
  · intro other hother
    rcases mem_append.1 hother with hinner | houter
    · exact hg.regular.functions other (mem_of_mem_take hinner)
    · have hlabelled : Scopes.Labelled found.scopes.tail := fun other hother =>
        hg.regular.functions other (mem_of_mem_tail hother)
      exact hlabelled.put (fun _ => ⟨number, rfl⟩) other houter

protected theorem function (limit : Nat) :
    Renames n Between (function limit) (function limit) Done fun _ => Between := by
  refine (Agree.enter .function 2).within.bind fun _ _ _ =>
    Agree.argument.within.test fun name => ?_
  refine Agree.newLabel.within.bind fun start start' hstart => ?_
  refine (Agree.place hstart).within.bind fun _ _ _ => (Agree.hold true).within.bind fun _ _ _ => ?_
  refine (Agree.shift 2).within.bind fun _ _ _ => (Renames.openScope true 0).bind fun _ _ _ => ?_
  refine (Renames.declare "return" (by decide) 0).bind fun _ _ _ => ?_
  refine (Renames.entry_cell fun _ h => h.2).bind fun found found' hfound => ?_
  obtain ⟨rfl, hcell⟩ := hfound
  refine (Agree.addressText_cell ⟨rfl, hcell⟩).within.bind fun cell cell' hcell => ?_
  obtain ⟨rfl, hinert⟩ := hcell
  have hresult : Renames n (Within fun scopes => scopes.Celled ∧ Scopes.Cell "return" scopes)
      (modify fun g => { g with resultCell := cell' }) (modify fun g =>
      { g with resultCell := cell' })
      Done fun _ => Declaring :=
    .modify fun g hg => ⟨rfl, hg.known.1, { hg.regular with resultCell := hinert }⟩
  refine hresult.bind fun _ _ _ => (Renames.parameters limit).test fun count => ?_
  refine .register name count hstart ?_
  refine (Agree.pass ")" 1).within.bind fun _ _ _ =>
    (Renames.functionBody limit).test fun size => ?_
  refine (Agree.hold false).within.bind fun _ _ _ => ?_
  refine (Agree.writeInteger _).within.bind fun total total' htotal => ?_
  refine (Agree.perform htotal).within.bind fun _ _ _ => ?_
  refine (Agree.entry "return").within.bind fun result result' hresult => ?_
  obtain ⟨rfl, hlabelled⟩ := hresult
  refine (Agree.addressText hlabelled).within.bind fun address address' haddress => ?_
  obtain ⟨rfl, hsolid⟩ := haddress
  exact (Agree.perform_renumber rfl hsolid).within.bind fun _ _ _ => .closeScope

protected theorem mainFunction (limit : Nat) (start : Int) :
    Renames n Between (mainFunction limit start) (mainFunction limit start) Done fun _ =>
    Between := by
  refine (Agree.enter .main 4).within.bind fun _ _ _ => (Agree.hold true).within.bind fun _ _
    _ => ?_
  refine (Renames.mainBody limit start).test fun size => (Agree.hold false).within.bind fun _ _
    _ => ?_
  exact (Agree.writeInteger _).within.bind fun _ _ htotal => (Agree.perform htotal).within

/-- **The code of a program** is the same under other numbers for the labels. -/
protected theorem program (limit : Nat) :
    Renames n Declaring (program limit) (program limit) Done fun _ => Between := by
  have hstop : Agree n (emit [.command stopWord ""]) (emit [.command stopWord ""]) Done :=
    (Stays.emit_one .stop (by rw [CodeLine.renumber, renumber_empty])).agree
  have hfunctions : ∀ start : Int, Renames n Between
      (do
        let mainLabel ← newLabel
        perform .branch mainLabel
        repeatWhile (atRule? .function) (fun _ => function limit) limit ()
        place mainLabel
        if ← atRule? .main then mainFunction limit start
        emit [.command stopWord ""])
      (do
        let mainLabel ← newLabel
        perform .branch mainLabel
        repeatWhile (atRule? .function) (fun _ => function limit) limit ()
        place mainLabel
        if ← atRule? .main then mainFunction limit start
        emit [.command stopWord ""]) Done fun _ => Between := by
    intro start
    refine Agree.newLabel.within.bind fun mainLabel mainLabel' hmain => ?_
    refine (Agree.perform_label rfl hmain).within.bind fun _ _ _ => ?_
    refine (Renames.repeatWhile (Agree.atRule? .function).within (fun _ _ _ =>
      .function limit) limit
      trivial).bind fun _ _ _ => (Agree.place hmain).within.bind fun _ _ _ => ?_
    refine (Agree.atRule? .main).within.test fun _ => .ite (fun _ => ?_) fun _ => hstop.within
    exact (Renames.mainFunction limit start).bind fun _ _ _ => hstop.within
  refine (Agree.enter .program 1).within.bind fun _ _ _ => ?_
  refine (Agree.atRule? .declarations).within.test fun _ => .ite (fun _ => ?_) fun _ => ?_
  · exact (Renames.declarations limit).test fun start => (hfunctions start).mono
      (fun _ hg => ⟨trivial, hg.regular⟩) (fun _ _ h => h) fun _ _ hg => hg
  · exact (hfunctions 0).mono (fun _ hg => ⟨trivial, hg.regular⟩) (fun _ _ h => h) fun _ _ hg => hg

end Renames

/-! ### Trees of programs -/

section Tree

variable {tree : SyntaxTree} {program : Program}

theorem Generator.declaring_initial (h : tree.shape = program.tree) (labels : Nat) :
    (initial tree labels).Declaring := by
  obtain ⟨value, sons⟩ := tree
  have hroot : value.label = .rule .program := congrArg Tree.value h
  have hremaining : Numbered (initial (.node value sons) labels).remaining := by
    have hlabels : (initial (.node value sons) labels).remaining = program.labels := by
      rw [Program.labels, ← h, SyntaxTree.shape, Tree.listing_map]
      simp [initial, remaining, Tree.value]
    rw [hlabels]
    exact program.numbered
  have hfunctions : Scopes.Labelled [Scope.empty 0 false 0] := by
    intro scope hscope
    obtain rfl := mem_singleton.1 hscope
    simp [Scope.empty]
  have hplain : value.label.Plain := hroot ▸ .rule (by decide)
  refine ⟨⟨_, _, rfl, by simp [Scope.Celled, Scope.empty]⟩, ?_⟩
  exact { scopes_eq := rfl, functions := hfunctions, here := trivial, remaining := hremaining,
          root := .cons hplain .nil, breakLabel :=
          by simp [initial], continueLabel := by simp [initial],
          resultCell := .empty, last := by simp [initial], held := by simp [initial],
          written := by simp [initial] }

/-- **Other numbers for the labels** make no difference to what becomes of a program, and its code
is the same up to the numbers. -/
theorem generate_matches (h : tree.shape = program.tree) (labels n : Nat) :
    Matches n Done (fun _ => Between) (generate tree labels) (generate tree (labels + n)) := by
  have hmatches := (Renames.program (n := n) (tree.listing.length + 1)).run _
    (declaring_initial h labels)
  rw [initial_renumber] at hmatches
  exact hmatches

end Tree

end ScoreLang
