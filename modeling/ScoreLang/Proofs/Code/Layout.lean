import ScoreLang.Proofs.Code.Lines

/-!
# Where Variables Are

The generator hands out cells in the order of the declarations. A *layout* lists the cells of all
variables in the order of the memory, and `Placed` says that the scopes agree with it: the entry of
a name covers the places at which the layout has the cells of the variable that the name means.
Every declaration keeps this true, provided that it does not declare a name twice.
-/

namespace ScoreLang

open List Text

/-! ### Entries -/

/-- The entry covers the places from `base` on, where the layout has the cells of a variable. -/
structure Entry.Covers (entry : Entry) (layout : List Cell) (owner : Variable) (base count : Nat) :
    Prop where
  address : entry.address = .absolute base
  size : entry.size = none ∧ count = 1 ∨ entry.size = some (count : Int)
  pos : 0 < count
  /-- The layout has the cells of the variable. -/
  cells : ∀ k < count, layout[base + k]? = some ⟨owner, k⟩

/-- A place of the memory as it is written in the code. -/
def Spells (text : String) (place : Nat) : Prop := writeInteger place = .ok text

variable {entry : Entry} {base count : Nat} {owner : Variable}

theorem Entry.Covers.text? {layout : List Cell} (h : entry.Covers layout owner base count)
    {text : String} (htext : entry.address.text? = some text) : Spells text base := by
  rw [h.address, Address.text?, toOption_eq_some] at htext
  exact htext

theorem Entry.Covers.size_eq {layout : List Cell} (h : entry.Covers layout owner base count)
    {size : Int} (hsize : entry.size = some size) : size = (count : Int) := by
  rcases h.size with ⟨hnone, -⟩ | hsome
  · rw [hnone] at hsize
    cases hsize
  · rw [hsome] at hsize
    exact (Option.some.inj hsize).symm

/-- The element of an entry that an index names. -/
theorem Entry.Covers.offset? {layout : List Cell} (h : entry.Covers layout owner base count)
    {index : Option Numeral} {offset : Int} (hoffset : entry.offset? index = some offset) :
    ∃ k < count, offset = (k : Int) ∧ k = (index.map Numeral.value).getD 0 := by
  cases index with
  | none =>
    obtain rfl := Option.some.inj hoffset
    exact ⟨0, h.pos, rfl, rfl⟩
  | some index =>
    simp only [Entry.offset?] at hoffset
    split at hoffset
    · rename_i found size hread hsize
      split at hoffset
      · rename_i hrange
        obtain rfl := Option.some.inj hoffset
        obtain ⟨-, rfl⟩ := readInteger_numeral.1 hread
        refine ⟨index.value, ?_, rfl, rfl⟩
        have hlt := hrange.2
        rw [h.size_eq hsize] at hlt
        omega
      · cases hoffset
    · cases hoffset

/-! ### Operands of stores -/

/-- Outside of a frame, the cell of an element is as far from the first one as its index says. -/
theorem Spells.cellAt? {address cell : String} {offset : Nat} (h : Spells address base)
    (hcell : cellAt? false address offset = some cell) : Spells cell (base + offset) := by
  rw [ScoreLang.cellAt?, toOption_eq_some, movedOperand] at hcell
  split at hcell
  · rename_i hzero
    obtain rfl := Except.ok.inj hcell
    obtain rfl : offset = 0 := by exact_mod_cast hzero
    exact h
  · rw [if_neg (by simp)] at hcell
    simp only [bind_eq_ok, mapError_eq_ok, Except.ok.injEq, exists_eq_left'] at hcell
    obtain ⟨number, hnumber, hcell⟩ := hcell
    obtain rfl : (base : Int) = number :=
      Except.ok.inj ((readInteger_of_writeInteger h).symm.trans hnumber)
    exact hcell

/-! ### Scopes -/

/-- The scopes agree with a layout. `names` are those of the innermost scope, and `done` is the
place of the cell that is handed out next. -/
structure Placed (layout : List Cell) (locals names : List String) (done : Nat) (scopes : Scopes) :
    Prop where
  /-- The entry of a name covers the cells of the variable that it means. -/
  found : ∀ {name entry}, scopes.find? name = some entry →
    ∃ base count, entry.Covers layout (meant locals name) base count
  /-- The innermost scope hands out the next cell, and holds no other names. -/
  head : ∃ scope outer, scopes = scope :: outer ∧ scope.relative = false ∧
    scope.next = (done : Int) ∧ ∀ name, name ∉ names → scope.find? name = none

namespace Placed

variable {layout : List Cell} {locals names : List String} {done : Nat} {scopes : Scopes}

/-- At first, nothing is declared. -/
theorem empty (layout : List Cell) (id : Nat) : Placed layout [] [] 0 [.empty id false 0] where
  found := fun h => nomatch h
  head := ⟨.empty id false 0, [], rfl, rfl, rfl, fun _ _ => rfl⟩

variable (h : Placed layout locals names done scopes)

include h

/-- A scope is opened whose cells come after those of the scopes around it. -/
theorem nest (id : Nat) :
    Placed layout locals [] done (.empty id false done :: scopes) where
  found := fun hfound => h.found hfound
  head := ⟨.empty id false done, scopes, rfl, rfl, rfl, fun _ _ => rfl⟩

theorem inFrame : scopes.inFrame = false := by
  obtain ⟨scope, outer, rfl, hrelative, -⟩ := h.head
  exact hrelative

/-- A reference is compiled to the place of the cell that it means. -/
theorem cell? {target : Reference} {text : String} (hcell : target.cell? scopes = some text) :
    ∃ place, Spells text place ∧ layout[place]? = some (target.cell locals) := by
  simp only [Reference.cell?, bind_eq_some] at hcell
  obtain ⟨entry, hentry, offset, hoffset, moved, hmoved, htext⟩ := hcell
  obtain ⟨base, count, hcovers⟩ := h.found hentry
  obtain ⟨k, hk, rfl, hindex⟩ := hcovers.offset? hoffset
  rw [hcovers.address, Address.moved?, Option.some.injEq] at hmoved
  obtain rfl := hmoved
  rw [Address.text?, toOption_eq_some] at htext
  refine ⟨base + k, by exact_mod_cast htext, ?_⟩
  rw [hcovers.cells k hk, Reference.cell, hindex]

end Placed

/-- A scope with a new entry. -/
def Scope.extend (scope : Scope) (name : String) (entry : Entry) (length : Nat) : Scope :=
  { scope with next := scope.next + length, table := (name, entry) :: scope.table }

theorem Scope.find?_extend (scope : Scope) (name other : String) (entry : Entry) (length : Nat) :
    (scope.extend name entry length).find? other
      = if other = name then some entry else scope.find? other := by
  rw [Scope.find?, Scope.extend, lookup_cons]
  by_cases hother : other = name
  · simp [hother]
  · have hbeq : (other == name) = false := by simpa using hother
    rw [hbeq, if_neg hother]
    rfl

theorem Scopes.find?_extend (scope : Scope) (outer : Scopes) (name other : String) (entry : Entry)
    (length : Nat) :
    Scopes.find? (scope.extend name entry length :: outer) other
      = if other = name then some entry else Scopes.find? (scope :: outer) other := by
  rw [Scopes.find?, Scope.find?_extend]
  by_cases hother : other = name
  · rw [if_pos hother, if_pos hother]
  · rw [if_neg hother, if_neg hother, Scopes.find?]

/-- What is entered for a variable or an array. -/
theorem Scope.insert_eq_extend (scope : Scope) (name label : String) {category : Category}
    {size : Int} {length : Nat} (hcategory : category ≠ .function)
    (hsize : size = 0 ∧ length = 1 ∨ size = (length : Int)) (hpos : 0 < length) :
    ∃ entry : Entry, scope.insert name category size label = scope.extend name entry length ∧
      entry.address = scope.nextAddress ∧
      (entry.size = none ∧ length = 1 ∨ entry.size = some (length : Int)) := by
  rw [Scope.insert, if_neg hcategory]
  rcases hsize with ⟨rfl, rfl⟩ | rfl
  · exact ⟨⟨scope.nextAddress, category, none⟩, by simp [Scope.extend], rfl, .inl ⟨rfl, rfl⟩⟩
  · refine ⟨⟨scope.nextAddress, category, some length⟩, ?_, rfl, .inr rfl⟩
    rw [if_neg (by omega), Scope.extend]

namespace Placed

variable {layout : List Cell} {locals names : List String} {done : Nat} {scopes : Scopes}

/-- A name that is not declared yet is entered. -/
theorem enter? (h : Placed layout locals names done scopes) {isLocal : Bool} {name : String}
    {category : Category} {size : Int} {scopes' : Scopes} {length : Nat}
    (hcategory : category ≠ .function) (hnew : name ∉ names)
    (hlocals : isLocal = false → locals = [])
    (hsize : size = 0 ∧ length = 1 ∨ size = (length : Int)) (hpos : 0 < length)
    (hcells : ∀ k < length, layout[done + k]? = some ⟨⟨isLocal, name⟩, k⟩)
    (henter : scopes.enter? name category size "" = some scopes') :
    Placed layout (if isLocal then name :: locals else locals) (name :: names) (done + length)
      scopes' ∧
    ∃ entry, scopes'.find? name = some entry ∧
      entry.Covers layout ⟨isLocal, name⟩ done length := by
  obtain ⟨scope, outer, rfl, hrelative, hnext, hnone⟩ := h.head
  obtain ⟨entry, hinsert, haddress, hentry⟩ :=
    scope.insert_eq_extend name "" hcategory hsize hpos
  have hput : Scopes.put? (scope :: outer) name category size ""
      = some (scope.extend name entry length :: outer) := by
    simp [Scopes.put?, Scope.put?, hnone name hnew, hinsert]
  obtain rfl : scope.extend name entry length :: outer = scopes' := by
    simp only [Scopes.enter?, hput, Option.map_eq_some_iff, Option.getD_some] at henter
    obtain ⟨_, -, rfl⟩ := henter
    rfl
  have hcovers : entry.Covers layout ⟨isLocal, name⟩ done length :=
    ⟨by rw [haddress, Scope.nextAddress, hrelative, hnext]; rfl, hentry, hpos, hcells⟩
  have hfound := Scopes.find?_extend scope outer name
  refine ⟨⟨fun {other found} hother => ?_, scope.extend name entry length, outer, rfl,
    hrelative, ?_, fun other hother => ?_⟩, entry, by rw [hfound, if_pos rfl], hcovers⟩
  · rw [hfound] at hother
    by_cases hname : other = name
    · -- the new name
      rw [if_pos hname] at hother
      obtain rfl := Option.some.inj hother
      refine ⟨done, length, ?_⟩
      have howner : meant (if isLocal then name :: locals else locals) other = ⟨isLocal, name⟩ := by
        rw [hname, meant]
        cases isLocal with
        | false => simp [hlocals rfl]
        | true => simp
      rwa [howner]
    · -- a name that has been entered before
      rw [if_neg hname] at hother
      obtain ⟨base, count, hold⟩ := h.found hother
      refine ⟨base, count, ?_⟩
      have howner : meant (if isLocal then name :: locals else locals) other
          = meant locals other := by
        cases isLocal with
        | false => rfl
        | true => simp [meant, hname]
      rwa [howner]
  · change scope.next + length = ((done + length : Nat) : Int)
    omega
  · rw [mem_cons, not_or] at hother
    rw [Scope.find?_extend, if_neg hother.1, hnone other hother.2]

end Placed

/-! ### Declarations -/

/-- The lines of a declaration whose variable begins at the place `base`. -/
inductive Declarator.Lines (scopes : Scopes) (base : Nat) : Declarator → List CodeLine → Prop where
  | plain {name : String} : Lines scopes base (.plain name) []
  | array {name : String} {length : Numeral} : Lines scopes base (.array name length) []
  | initial {name cell : String} {value : Expr .logical} {lines : List CodeLine} :
      value.code scopes = some lines → Spells cell base →
      Lines scopes base (.initial name value)
        (lines ++ [Operation.store.line cell, Operation.pop.line ""])
  | filled {name address : String} {length : Numeral} {values : List (Expr .logical)}
      {first rest : List CodeLine} : Spells address base →
      elements? scopes address length.value 0 values = some first →
      zeros? false address values.length (length.value - values.length) = some rest →
      Lines scopes base (.filled name length values) (first ++ rest)

namespace Placed

variable {layout : List Cell} {locals names : List String} {done : Nat} {scopes : Scopes}

/-- A declaration keeps the scopes in agreement with the layout. -/
theorem declarator (h : Placed layout locals names done scopes) {isLocal : Bool} {d : Declarator}
    (hcore : d.isCore = true) (hnew : d.name ∉ names) (hlocals : isLocal = false → locals = [])
    (hcells : ∀ k < d.length, layout[done + k]? = some ⟨⟨isLocal, d.name⟩, k⟩)
    {declared : Declared} (hcode : d.code scopes = some declared) :
    Placed layout (d.enter isLocal locals) (d.name :: names) (done + d.length) declared.scopes ∧
      declared.size = d.length ∧ d.Lines declared.scopes done declared.lines := by
  cases d with
  | plain name =>
    simp only [Declarator.code, Option.map_eq_some_iff] at hcode
    obtain ⟨scopes', henter, rfl⟩ := hcode
    obtain ⟨hplaced, -⟩ := h.enter? (by decide) hnew hlocals (.inl ⟨rfl, rfl⟩) (by decide) hcells
      henter
    exact ⟨hplaced, rfl, .plain⟩
  | initial name value =>
    simp only [Declarator.code, bind_eq_some, Option.some.injEq] at hcode
    obtain ⟨scopes', henter, lines, hlines, entry, hentry, cell, hcell, rfl⟩ := hcode
    obtain ⟨hplaced, found, hfound, hcovers⟩ := h.enter? (by decide) hnew hlocals
      (.inl ⟨rfl, rfl⟩) (by decide) hcells henter
    obtain rfl := Option.some.inj (hfound.symm.trans hentry)
    exact ⟨hplaced, rfl, .initial hlines (hcovers.text? hcell)⟩
  | array name length =>
    simp only [Declarator.code, bind_eq_some, toOption_eq_some, Option.map_eq_some_iff] at hcode
    obtain ⟨size, hsize, scopes', henter, rfl⟩ := hcode
    obtain ⟨-, rfl⟩ := readInteger_numeral.1 hsize
    obtain ⟨hplaced, -⟩ := h.enter? (by decide) hnew hlocals (.inr rfl)
      (Declarator.length_pos hcore) hcells henter
    exact ⟨hplaced, rfl, .array⟩
  | filled name length values =>
    simp only [Declarator.code, bind_eq_some, toOption_eq_some] at hcode
    obtain ⟨size, hsize, scopes', henter, hrest⟩ := hcode
    obtain ⟨-, rfl⟩ := readInteger_numeral.1 hsize
    split at hrest
    · cases hrest
    · simp only [initial?, bind_eq_some, Option.some.injEq]
        at hrest
      obtain ⟨_, ⟨entry, hentry, size, hsize, address, haddress, first, hfirst, rest, hrest, rfl⟩,
        rfl⟩ := hrest
      obtain ⟨hplaced, found, hfound, hcovers⟩ := h.enter? (by decide) hnew hlocals (.inr rfl)
        (Declarator.length_pos hcore) hcells henter
      obtain rfl := Option.some.inj (hfound.symm.trans hentry)
      obtain rfl : size = (length.value : Int) := hcovers.size_eq hsize
      have hcount : ((length.value : Int) - (values.length : Int)).toNat
          = length.value - values.length := by omega
      rw [hplaced.inFrame, hcount] at hrest
      exact ⟨hplaced, rfl, .filled (hcovers.text? haddress) hfirst hrest⟩

end Placed

/-- The lines of some declarations, the scopes of each of which agree with the layout. The names of
the main function before and after the declarations are given. -/
inductive Laid (layout : List Cell) (isLocal : Bool) :
    List String → List Declarator → List CodeLine → List String → Prop where
  | nil {locals : List String} : Laid layout isLocal locals [] [] locals
  | cons {locals locals' names : List String} {base : Nat} {scopes : Scopes} {d : Declarator}
      {ds : List Declarator} {lines more : List CodeLine} : d.isCore = true →
      Placed layout (d.enter isLocal locals) names (base + d.length) scopes →
      (∀ k < d.length, layout[base + k]? = some ⟨⟨isLocal, d.name⟩, k⟩) →
      d.Lines scopes base lines → Laid layout isLocal (d.enter isLocal locals) ds more locals' →
      Laid layout isLocal locals (d :: ds) (lines ++ more) locals'

theorem Declarator.length_cells (isLocal : Bool) (d : Declarator) :
    (d.cells isLocal).length = d.length := by
  simp [cells]

theorem Declarator.getElem?_cells {isLocal : Bool} {d : Declarator} {k : Nat} (hk : k < d.length) :
    (d.cells isLocal)[k]? = some ⟨⟨isLocal, d.name⟩, k⟩ := by
  simp [cells, hk]

/-- **Declarations are laid out in order**: they keep the scopes in agreement with the layout, and
take as many cells as it has for them. -/
theorem Placed.laid {layout : List Cell} {locals names : List String} {scopes : Scopes}
    {isLocal : Bool} (before : List Cell) {after : List Cell} {ds : List Declarator}
    (h : Placed layout locals names before.length scopes) (hcore : ∀ d ∈ ds, d.isCore = true)
    (hnew : ∀ d ∈ ds, d.name ∉ names) (hnodup : (ds.map Declarator.name).Nodup)
    (hlocals : isLocal = false → locals = [])
    (hlayout : layout = before ++ (ds.flatMap (Declarator.cells isLocal) ++ after))
    {all : Declared} (hcode : declared? scopes ds = some all) :
    ∃ locals' names', Laid layout isLocal locals ds all.lines locals' ∧
      (isLocal = false → locals' = []) ∧
      Placed layout locals' names' (before ++ ds.flatMap (Declarator.cells isLocal)).length
        all.scopes ∧ all.size = (ds.flatMap (Declarator.cells isLocal)).length := by
  induction ds generalizing locals names scopes before all with
  | nil =>
    obtain rfl := Option.some.inj hcode
    exact ⟨locals, names, .nil, hlocals, by simpa using h, rfl⟩
  | cons d ds ih =>
    simp only [declared?, bind_eq_some, Option.some.injEq] at hcode
    obtain ⟨first, hfirst, others, hothers, rfl⟩ := hcode
    rw [flatMap_cons, append_assoc, ← append_assoc] at hlayout
    have hcells : ∀ k < d.length, layout[before.length + k]? = some ⟨⟨isLocal, d.name⟩, k⟩ := by
      intro k hk
      have hin : k < (d.cells isLocal).length := by rwa [d.length_cells]
      rw [hlayout, append_assoc, List.getElem?_append_right (by omega),
        Nat.add_sub_cancel_left, List.getElem?_append_left hin, Declarator.getElem?_cells hk]
    obtain ⟨hplaced, hsize, hlines⟩ := h.declarator (hcore d (by simp)) (hnew d (by simp)) hlocals
      hcells hfirst
    rw [map_cons, nodup_cons] at hnodup
    have hlength : before.length + d.length = (before ++ d.cells isLocal).length := by
      rw [length_append, d.length_cells]
    have hfresh : ∀ e ∈ ds, e.name ∉ d.name :: names := by
      intro e he hmem
      rcases mem_cons.1 hmem with heq | hmem
      · exact hnodup.1 (mem_map.2 ⟨e, he, heq⟩)
      · exact hnew e (by simp [he]) hmem
    have hentered : isLocal = false → d.enter isLocal locals = [] := by
      rintro rfl
      exact hlocals rfl
    obtain ⟨locals', names', hlaid, hempty, hfinal, hothersSize⟩ := ih (before ++ d.cells isLocal)
      (hlength ▸ hplaced) (fun e he => hcore e (by simp [he])) hfresh hnodup.2 hentered hlayout
      hothers
    refine ⟨locals', names', .cons (hcore d (by simp)) hplaced hcells hlines hlaid, hempty,
      by simpa using hfinal, ?_⟩
    rw [flatMap_cons, length_append, d.length_cells]
    change first.size + others.size = _
    omega

end ScoreLang
