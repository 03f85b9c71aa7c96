import ScoreLang.Proofs.Code.Layout
import ScoreLang.Proofs.Machine.Step

/-!
# Configurations in the Machine

While the code of the core runs, the machine holds a configuration: its memory the values of the
cells, in the order of a layout, its input the lines that are left, and its console what the user
has seen. `Setting.state` is the state of the machine at a place of the code with some integers on
the stack, and the lemmas of this module say what each operation makes of such a state.
-/

namespace ScoreLang

open Text

namespace Machine

/-! ### Actions -/

section Actions

variable {code : Code} {s t : State} {value : Value}

variable {place : Nat} {text : String} {u : Unit}

@[simp] theorem ends_push :
    Ends (push value) s u t ↔ t = { s with stack := value :: s.stack } := ends_modify

@[simp] theorem ends_pushFlag {flag : Bool} :
    Ends (pushFlag flag) s u t ↔
      t = { s with stack := .integer (if flag then 1 else 0) :: s.stack } := ends_modify

@[simp] theorem ends_report :
    Ends (report text) s u t ↔ t = { s with console := s.console ++ text } := ends_modify

@[simp] theorem ends_replaceTop :
    Ends (replaceTop value) s u t ↔ t = { s with stack := value :: s.stack.tail } := ends_modify

@[simp] theorem ends_jump {label : String} :
    Ends (jump code label) s u t ↔ t = { s with next := (code.find? label).map (· + 1) } :=
  ends_modify

@[simp] theorem ends_needed {operand : Option String} :
    Ends (needed operand) s text t ↔ operand = some text ∧ s = t := by
  cases operand <;> simp [needed, eq_comm]

@[simp] theorem ends_ofInteger {α : Type} {result : Except IntegerFault α} {a : α} :
    Ends (ofInteger result) s a t ↔ result = .ok a ∧ s = t := by
  cases result <;> simp [ofInteger, eq_comm]

@[simp] theorem ends_ofValue {α : Type} {result : Except ValueFault α} {a : α} :
    Ends (ofValue result) s a t ↔ result = .ok a ∧ s = t := by
  cases result <;> simp [ofValue, eq_comm]

/-- The value on top is there. -/
@[simp] theorem ends_top : Ends top s value t ↔ (∃ rest, s.stack = value :: rest) ∧ s = t := by
  simp only [top, ends_bind, ends_get]
  constructor
  · rintro ⟨_, _, ⟨rfl, rfl⟩, h⟩
    split at h
    · rename_i found rest hstack
      obtain ⟨rfl, rfl⟩ := ends_pure.1 h
      exact ⟨⟨rest, hstack⟩, rfl⟩
    · simp at h
  · rintro ⟨⟨rest, hstack⟩, rfl⟩
    exact ⟨s, s, ⟨rfl, rfl⟩, by simp [hstack]⟩

/-- The value on top is taken away. -/
@[simp] theorem ends_pop :
    Ends pop s value t ↔ ∃ rest, s.stack = value :: rest ∧ t = { s with stack := rest } := by
  simp only [pop, ends_bind, ends_get]
  constructor
  · rintro ⟨_, _, ⟨rfl, rfl⟩, h⟩
    split at h
    · rename_i found rest hstack
      simp only [ends_bind, ends_modify, ends_pure, exists_unit] at h
      obtain ⟨_, rfl, rfl, rfl⟩ := h
      exact ⟨rest, hstack, rfl⟩
    · simp at h
  · rintro ⟨rest, hstack, rfl⟩
    exact ⟨s, s, ⟨rfl, rfl⟩, by simp [hstack]⟩

/-- A place of the memory. -/
theorem cell?_natCast (h : place < memorySize) :
    cell? (place : Int) = some ⟨place, h⟩ := by
  have hnat : ¬(place : Int) < 0 := by omega
  simp [cell?, hnat, h]

theorem ends_read (h : place < memorySize) :
    Ends (read place) s (s.cells.get ⟨place, h⟩) s := by
  simp [read, cell?_natCast h]

theorem ends_write (s : State) (value : Value) (h : place < memorySize) :
    Ends (write place value) s () { s with cells := s.cells.set place value h } := by
  have hnot : ¬(memorySize : Int) ≤ place := by omega
  simp [write, cell?_natCast h, hnot]

/-- The operand of a load or a store names a place. -/
theorem ends_address (h : Spells text place) :
    Ends (address text) s place s := by
  have htext : text.toList = Nat.toDigits 10 place := by
    unfold Spells writeInteger at h
    split at h
    · obtain rfl := Except.ok.inj h
      exact toList_digits_numeral place
    · exact nomatch h
  unfold address
  split
  · rename_i rest hcolon
    have hmem : ':' ∈ Nat.toDigits 10 place := by
      rw [← htext, hcolon]
      simp
    exact absurd (Nat.isDigit_of_mem_toDigits (by omega) (by omega) hmem) (by decide)
  · exact ends_ofInteger.2 ⟨readInteger_of_writeInteger h, rfl⟩

end Actions

/-! ### The memory -/

/-- The memory that holds the values of some cells. -/
def memory (layout : List Cell) (store : Store) : Vector Value memorySize :=
  Vector.ofFn fun place => .integer ((layout[place.val]?.map store).getD 0)

/-- A cell of the layout holds the value of the store. -/
theorem get_memory {layout : List Cell} {store : Store} {place : Nat} (h : place < memorySize)
    {cell : Cell} (hcell : layout[place]? = some cell) :
    (memory layout store).get ⟨place, h⟩ = .integer (store cell) := by
  change (memory layout store)[place] = _
  simp [memory, hcell]

/-- A cell of the layout is set like the store. -/
theorem set_memory {layout : List Cell} (hnodup : layout.Nodup) {store : Store} {place : Nat}
    (h : place < memorySize) {cell : Cell} (hcell : layout[place]? = some cell) (n : Int) :
    (memory layout store).set place (.integer n) h = memory layout (store.set cell n) := by
  ext i hi
  by_cases hplace : place = i
  · subst hplace
    simp [memory, hcell, Store.set]
  · rw [Vector.getElem_set_ne _ _ hplace]
    simp only [memory, Vector.getElem_ofFn]
    cases hother : layout[i]? with
    | none => rfl
    | some other =>
      -- the cells of a layout are different from each other
      have hne : other ≠ cell := by
        rintro rfl
        obtain ⟨hi', heq⟩ := List.getElem?_eq_some_iff.1 hother
        obtain ⟨hplace', heq'⟩ := List.getElem?_eq_some_iff.1 hcell
        exact hplace ((List.Nodup.getElem_inj_iff hnodup).1 (heq'.trans heq.symm))
      simp [Store.set, hne]

end Machine

/-! ### States -/

/-- What the console shows of a run. -/
def shownText (shown : List Shown) : String := shown.foldl (fun text item => text ++ item.text) ""

/-- What is shown comes behind what was shown before. -/
theorem shownText_append (shown : List Shown) (item : Shown) :
    shownText (shown ++ [item]) = shownText shown ++ item.text := by
  simp [shownText]

open Machine

/-- What stays the same while statements run. -/
structure Setting where
  /-- The code. -/
  code : Code
  /-- Its lines. -/
  lines : List CodeLine
  /-- The code holds the lines. -/
  holds : code.Holds lines
  /-- The cells in the order of the memory. -/
  layout : List Cell
  /-- No cell occurs twice. -/
  nodup : layout.Nodup
  /-- There is room for all cells. -/
  length_le : layout.length ≤ memorySize
  /-- Where the frame of the main function begins. -/
  base : Int
  /-- Where the frames end. -/
  frames : List Int

namespace Setting

variable (S : Setting)

/-- The machine is at a place of the code, with some integers on the stack, and holds a
configuration. -/
def state (place : Nat) (stack : List Int) (c : Config) : State where
  next := some (S.code.settle place)
  stack := stack.map .integer
  cells := memory S.layout c.store
  base := S.base
  frames := S.frames
  returns := []
  input := c.input.map Entered.text
  console := shownText c.shown

variable {S} {place target : Nat} {stack : List Int} {c : Config} {a b n : Int}

/-- A label is passed without a step. -/
theorem state_label {name : String} (h : S.lines[place]? = some (.label name)) :
    S.state place stack c = S.state (place + 1) stack c := by
  rw [state, state, S.holds.settle_label h]

/-- The state right before the line at a place. -/
def before (S : Setting) (place : Nat) (stack : List Int) (c : Config) : State :=
  { S.state place stack c with next := some place }

variable {cell : Cell} {operation : Operation} {text : String}

/-- An operation is performed at its line. -/
theorem moves {operand : String} {stack' : List Int} {c' : Config}
    (hline : S.lines[place]? = some (operation.line operand))
    (hperform : Ends (perform S.code operation (givenOperand operand))
      (S.before (place + 1) stack c) () (S.before target stack' c')) :
    Moves S.code (S.state place stack c) (S.state target stack' c') :=
  S.holds.moves (s := S.state place stack c) hline rfl hperform

/-- A number is pushed. -/
theorem moves_push {digits : String} (hline : S.lines[place]? = some (Operation.push.line digits))
    (hne : digits ≠ "") (hread : readInteger digits = .ok n) :
    Moves S.code (S.state place stack c) (S.state (place + 1) (n :: stack) c) :=
  moves hline (by simp [perform, givenOperand, hne, hread, before, state])

/-- The value on top is dropped. -/
theorem moves_pop (hline : S.lines[place]? = some (Operation.pop.line "")) :
    Moves S.code (S.state place (n :: stack) c) (S.state (place + 1) stack c) :=
  moves hline (by simp [perform, before, state])

theorem place_lt (h : S.layout[place]? = some cell) : place < memorySize :=
  Nat.lt_of_lt_of_le (List.getElem?_eq_some_iff.1 h).1 S.length_le

theorem givenOperand_of_spells (h : Spells text place) :
    givenOperand text = some text := by
  refine if_neg ?_
  rintro rfl
  exact nomatch readInteger_of_writeInteger h

/-- The value of a cell is pushed. -/
theorem moves_load {k : Nat} (hline : S.lines[place]? = some (Operation.load.line text))
    (htext : Spells text k) (hcell : S.layout[k]? = some cell) :
    Moves S.code (S.state place stack c) (S.state (place + 1) (c.store cell :: stack) c) := by
  refine moves hline ?_
  have hk := place_lt hcell
  have hread : (S.before (place + 1) stack c).cells.get ⟨k, hk⟩ = .integer (c.store cell) :=
    get_memory hk hcell
  simp only [perform, ends_bind, ends_needed]
  refine ⟨text, _, ⟨givenOperand_of_spells htext, rfl⟩, k, _, ends_address htext, _, _,
    ends_read hk, c.store cell, _, ends_ofValue.2 ⟨?_, rfl⟩, ends_push.2 rfl⟩
  rw [hread]
  rfl

/-- The value on top is stored, and stays on top. -/
theorem moves_store {k : Nat} (hline : S.lines[place]? = some (Operation.store.line text))
    (htext : Spells text k) (hcell : S.layout[k]? = some cell) :
    Moves S.code (S.state place (n :: stack) c)
      (S.state (place + 1) (n :: stack) { c with store := c.store.set cell n }) := by
  refine moves hline ?_
  have hk := place_lt hcell
  have hwrite : (S.before (place + 1) (n :: stack) c).cells.set k (.integer n) hk
      = memory S.layout (c.store.set cell n) := set_memory S.nodup hk hcell n
  simp only [perform, ends_bind, ends_needed]
  refine ⟨text, _, ⟨givenOperand_of_spells htext, rfl⟩, k, _, ends_address htext, .integer n, _,
    ends_top.2 ⟨⟨_, rfl⟩, rfl⟩, ?_⟩
  have hends := ends_write (S.before (place + 1) (n :: stack) c) (.integer n) hk
  rwa [hwrite] at hends

/-! ### Operations on the stack -/

/-- A sum, a difference or a product. -/
theorem moves_arithmetic {combine : Value → Value → Except ValueFault Value}
    (hline : S.lines[place]? = some (operation.line ""))
    (hperform : perform S.code operation none = arithmetic combine)
    (hcombine : combine (.integer a) (.integer b) = .ok (.integer n)) :
    Moves S.code (S.state place (b :: a :: stack) c) (S.state (place + 1) (n :: stack) c) := by
  refine moves hline ?_
  rw [givenOperand, if_pos rfl, hperform]
  simp [arithmetic, before, state, hcombine]

/-- A comparison of two integers. -/
theorem moves_comparison {compare : Value → Value → Bool} {holds : Bool}
    (hline : S.lines[place]? = some (operation.line ""))
    (hperform : perform S.code operation none = comparison compare)
    (hcompare : compare (.integer b) (.integer a) = holds) :
    Moves S.code (S.state place (b :: a :: stack) c)
      (S.state (place + 1) (flag holds :: stack) c) := by
  refine moves hline ?_
  rw [givenOperand, if_pos rfl, hperform]
  simp [comparison, before, state, hcompare, flag]

/-! ### Jumps -/

/-- A jump to a label. -/
theorem moves_branch {label : String} (hne : label ≠ "")
    (hline : S.lines[place]? = some (Operation.branch.line label))
    (hlabel : S.lines[target]? = some (.label label)) :
    Moves S.code (S.state place stack c) (S.state target stack c) := by
  rw [state_label hlabel]
  refine moves hline ?_
  simp [perform, givenOperand, hne, S.holds.find hlabel, before, state]

/-- A jump to a label if the value on top is zero. -/
theorem moves_branchFalse {label : String} (hne : label ≠ "")
    (hline : S.lines[place]? = some (Operation.branchFalse.line label))
    (hlabel : S.lines[target]? = some (.label label)) :
    Moves S.code (S.state place (n :: stack) c)
      (S.state (if n = 0 then target else place + 1) stack c) := by
  by_cases hzero : n = 0
  · rw [if_pos hzero, state_label hlabel]
    refine moves hline ?_
    simp [perform, givenOperand, hne, S.holds.find hlabel, before, state, hzero, Value.isZero]
  · rw [if_neg hzero]
    refine moves hline ?_
    simp [perform, givenOperand, hne, before, state, hzero, Value.isZero]

/-! ### Input and output -/

/-- The next entered number is pushed. -/
theorem moves_input {entered : Entered} {rest : List Entered}
    (hline : S.lines[place]? = some (Operation.input.line "")) (hinput : c.input = entered ::
    rest) :
    Moves S.code (S.state place stack c) (S.state (place + 1) (entered.value :: stack)
      { c with input := rest, shown := c.shown ++ [.prompt] }) := by
  refine moves hline ?_
  simp [perform, Machine.input, accept, before, state, hinput, entered.readInteger_text,
    shownText_append, Shown.text]

/-- Without input, the machine fails. -/
theorem not_haltsIn_input {out : State} {m : Nat}
    (hline : S.lines[place]? = some (Operation.input.line "")) (hinput : c.input = []) :
    ¬HaltsIn S.code m (S.state place stack c) out := by
  intro h
  obtain ⟨_, _, hends⟩ := h.exists_ends
  rw [S.holds.ends_step hline rfl] at hends
  simp [perform, Machine.input, state, hinput] at hends

/-- The value on top is shown and dropped. -/
theorem moves_output (hline : S.lines[place]? = some (Operation.output.line ""))
    (hfits : (Shown.value n).Fits) :
    Moves S.code (S.state place (n :: stack) c)
      (S.state (place + 1) stack { c with shown := c.shown ++ [.value n] }) := by
  refine moves hline ?_
  have hwrite : writeInteger n = .ok (toString n) := if_pos hfits
  simp [perform, before, state, Value.text, hwrite, shownText_append, Shown.text]

/-- An integer with too many digits is not shown. -/
theorem fits_of_haltsIn {out : State} {m : Nat}
    (hline : S.lines[place]? = some (Operation.output.line ""))
    (h : HaltsIn S.code m (S.state place (n :: stack) c) out) : (Shown.value n).Fits := by
  obtain ⟨_, _, hends⟩ := h.exists_ends
  rw [S.holds.ends_step hline rfl] at hends
  by_contra hfits
  have hwrite : writeInteger n = .error .tooLargeToWrite := if_neg hfits
  simp [perform, state, Value.text, hwrite] at hends

/-! ### Frames -/

/-- The setting with the frame of the main function opened. -/
def opened (S : Setting) (size : Nat) : Setting :=
  { S with base := size, frames := (size : Int) :: 0 :: S.frames }

/-- The frame of the main function is opened. -/
theorem moves_allocate {size : Nat} (hline : S.lines[place]? = some (Operation.allocate.line text))
    (htext : Spells text size) (hbase : S.base = 0) :
    Moves S.code (S.state place stack c) ((S.opened size).state (place + 1) stack c) := by
  refine S.holds.moves (s := S.state place stack c)
    (t := (S.opened size).before (place + 1) stack c) hline rfl ?_
  simp [perform, givenOperand_of_spells htext, allocate, before, state, hbase, opened,
    readInteger_of_writeInteger htext]

/-! ### Pieces of code -/

/-- Some lines stand at a place of the code. -/
def Has (S : Setting) (place : Nat) (lines : List CodeLine) : Prop :=
  ∀ i line, lines[i]? = some line → S.lines[place + i]? = some line

namespace Has

variable {first second lines : List CodeLine} {line : CodeLine}

/-- The lines begin with the first part. -/
theorem left (h : S.Has place (first ++ second)) : S.Has place first := by
  intro i line hline
  refine h i line ?_
  rw [List.getElem?_append_left (List.getElem?_eq_some_iff.1 hline).1, hline]

/-- The second part stands behind the first one. -/
theorem right (h : S.Has place (first ++ second)) : S.Has (place + first.length) second := by
  intro i line hline
  rw [Nat.add_assoc]
  refine h (first.length + i) line ?_
  rw [List.getElem?_append_right (by omega), Nat.add_sub_cancel_left, hline]

theorem head (h : S.Has place (line :: lines)) : S.lines[place]? = some line := h 0 line rfl

theorem tail (h : S.Has place (line :: lines)) : S.Has (place + 1) lines := by
  intro i found hfound
  rw [Nat.add_assoc, Nat.add_comm 1 i]
  exact h (i + 1) found hfound

end Has

end Setting

end ScoreLang
