import ScoreLang.Proofs.Code.Layout
import ScoreLang.Proofs.Generate.Names

/-!
# Sites of Declarations

A declaration enters its names into the innermost scope, which hands out their cells. The scopes
stay sound as long as an array has an element and the numbers of the cells can be written. A `Site`
says what is known between two declarations: which names have been declared, and how many cells are
left.

The initial values of an array are another matter. An operand is moved as a text, which goes wrong
in a frame, so an array of a function that has initial values must not have more than one element.
Its name must be new, as a name that is declared again keeps the entry of the variable that it was,
and there must be an initial value (`Declarator.Regular`).
-/

namespace ScoreLang

open List Text

/-! ### Known names -/

/-- A variable has been declared as one, and its index can be read. A function has been declared. -/
def Occurrence.Proper (occurrence : Occurrence) : Prop :=
  match occurrence.use with
  | .variable target => target.Short ∧ target.name ∈ occurrence.known.vars
  | .call name => name ∈ occurrence.known.names

theorem Occurrence.Proper.declare {use : Use} {v : Vocabulary} (h : Proper ⟨use, v⟩)
    (name : String) : Proper ⟨use, v.declare name⟩ := by
  cases use with
  | «variable» target => exact ⟨h.1, mem_cons_of_mem _ h.2⟩
  | call called => exact mem_cons_of_mem _ h

/-- The scopes are sound and hold the names of a vocabulary. A variable is not a function. -/
structure Vocabulary.Models (v : Vocabulary) (scopes : Scopes) : Prop where
  sound : scopes.Sound
  vars : ∀ name ∈ v.vars, ∃ entry, scopes.find? name = some entry ∧ entry.category ≠ .function
  /-- Functions are found, or variables instead of them. -/
  functions : ∀ name ∈ v.functions, ∃ entry, scopes.find? name = some entry

theorem Vocabulary.Models.covers {v : Vocabulary} {scopes : Scopes} {uses : List Use}
    (h : v.Models scopes) (hproper : ∀ use ∈ uses, Occurrence.Proper ⟨use, v⟩) :
    scopes.Covers uses := by
  refine ⟨h.sound, fun use huse => ?_⟩
  have hknown := hproper use huse
  cases use with
  | «variable» target => exact ⟨hknown.1, h.vars _ hknown.2⟩
  | call name =>
    rcases mem_append.1 hknown with hname | hname
    · obtain ⟨entry, hentry, -⟩ := h.vars name hname
      exact ⟨entry, hentry⟩
    · exact h.functions name hname

/-! ### Sites -/

/-- A place between two declarations. -/
structure Site where
  known : Vocabulary
  /-- The names that the innermost scope may hold. -/
  held : List String
  inFrame : Bool
  outer : Scopes
  room : Nat

/-- The site after the declaration of a name that takes some cells. -/
def Site.declare (site : Site) (name : String) (count : Nat) : Site :=
  { site with
    known := site.known.declare name
    held := name :: site.held
    room := site.room - count }

/-- A cell by its number. -/
def Site.cell (site : Site) (number : Nat) : Address :=
  if site.inFrame then .relative number else .absolute number

/-- The innermost of some scopes at a site. -/
structure Site.Receives (site : Site) (scope : Scope) : Prop where
  /-- The cells are counted in the way that the site says. -/
  relative : scope.relative = site.inFrame
  held : ∀ item ∈ scope.table, item.1 ∈ site.held
  category : ∀ item ∈ scope.table, item.2.category ≠ .function
  /-- The numbers of the cells that are left can be written. -/
  next : ∃ next : Nat, scope.next = next ∧ next + site.room < writeLimit

/-- The scopes are as a site says. -/
structure Site.Fits (site : Site) (scopes : Scopes) : Prop where
  models : site.known.Models scopes
  head : ∃ scope, scopes = scope :: site.outer ∧ site.Receives scope

/-- How many cells are handed out for an entry: one for a variable, and for an array as many as it
has elements. -/
inductive Category.Takes : Category → Int → Nat → Prop where
  | single {category : Category} : category ≠ .function → category ≠ .array → Takes category 0 1
  | array {length : Nat} : 0 < length → Takes .array length length

namespace Category.Takes

theorem ofVariable : Category.variable.Takes 0 1 := .single (by decide) (by decide)

variable {category : Category} {size : Int} {count : Nat}

theorem ne_function (h : category.Takes size count) : category ≠ .function := by
  cases h with
  | single hfunction => exact hfunction
  | array => decide

theorem insert_eq (h : category.Takes size count) (scope : Scope) (name : String) :
    ∃ size?, scope.insert name category size ""
        = scope.extend name ⟨scope.nextAddress, category, size?⟩ count ∧ 0 < count ∧
      (category = .array → size? = some (count : Int)) := by
  rw [Scope.insert, if_neg h.ne_function]
  cases h with
  | single _ harray => exact ⟨none, by simp [Scope.extend], Nat.one_pos, fun h => absurd h harray⟩
  | array hpos =>
    refine ⟨some count, ?_, hpos, fun _ => rfl⟩
    rw [if_neg (by omega), Scope.extend]

end Category.Takes

namespace Site

variable {site : Site} {scope : Scope} {scopes : Scopes} {category : Category} {size : Int}
  {count : Nat}

theorem Receives.nextAddress (h : site.Receives scope) {next : Nat} (hnext : scope.next = next) :
    scope.nextAddress = site.cell next := by
  rw [Scope.nextAddress, Site.cell, h.relative, hnext]

/-- A new entry is sound. -/
theorem sound_cell {next : Nat} {size? : Option Int} (hcategory : category ≠ .function)
    (hpos : 0 < count) (hlimit : next + count ≤ writeLimit)
    (harray : category = .array → size? = some (count : Int)) :
    Entry.Sound ⟨site.cell next, category, size?⟩ := by
  refine .cells hcategory ?_ hpos hlimit harray
  unfold Site.cell
  cases site.inFrame
  · exact .inl rfl
  · exact .inr rfl

namespace Fits

/-- What a declaration does to the scopes if its name is new, and if it is not. -/
theorem enter?_cases (h : site.Fits scopes) (htakes : category.Takes size count)
    (hroom : count ≤ site.room) (name : String) :
    ∃ scope, scopes = scope :: site.outer ∧ site.Receives scope ∧
      (scopes.enter? name category size "" = some scopes ∧ (∃ entry, scope.find? name = some
      entry) ∨
        ∃ (next : Nat) (size? : Option Int), scope.next = next ∧ next + site.room < writeLimit ∧
          (category = .array → size? = some (count : Int)) ∧ 0 < count ∧
          scopes.enter? name category size ""
            = some (scope.extend name ⟨site.cell next, category, size?⟩ count :: site.outer)) := by
  obtain ⟨scope, rfl, hscope⟩ := h.head
  obtain ⟨next, hnext, hlimit⟩ := hscope.next
  have hwrite : writeInteger scope.next = .ok (toString (next : Int)) := by
    rw [hnext]
    exact writeInteger_of_lt (by omega)
  refine ⟨scope, rfl, hscope, ?_⟩
  rcases hfind : scope.find? name with _ | entry
  · obtain ⟨size?, hinsert, hpos, harray⟩ := htakes.insert_eq scope name
    refine .inr ⟨next, size?, hnext, hlimit, harray, hpos, ?_⟩
    simp [Scopes.enter?, hwrite, Except.toOption, Scopes.put?, Scope.put?, hfind, hinsert,
      hscope.nextAddress hnext]
  · exact .inl ⟨by simp [Scopes.enter?, hwrite, Except.toOption, Scopes.put?, Scope.put?, hfind],
      entry, rfl⟩

/-- **A scope takes another name**: a name can be declared as long as there are cells left. -/
theorem enter? (h : site.Fits scopes) (htakes : category.Takes size count)
    (hroom : count ≤ site.room) (name : String) :
    ∃ scopes', scopes.enter? name category size "" = some scopes' ∧
      (site.declare name count).Fits scopes' := by
  obtain ⟨scope, hscopes, hscope, ⟨henter, entry, hentry⟩ |
    ⟨next, size?, hnext, hlimit, harray, hpos, henter⟩⟩ := h.enter?_cases htakes hroom name
  · -- the name keeps its entry
    obtain ⟨next, hnext, hlimit⟩ := hscope.next
    have hmem := Scope.mem_of_find? hentry
    refine ⟨scopes, henter, ⟨h.models.sound, fun other hother => ?_, h.models.functions⟩, scope,
      hscopes, hscope.relative, fun item hitem => mem_cons_of_mem _ (hscope.held item hitem),
      hscope.category, next, hnext, ?_⟩
    · rcases mem_cons.1 hother with rfl | hother
      · exact ⟨entry, by rw [hscopes, Scopes.find?, hentry], hscope.category _ hmem⟩
      · exact h.models.vars other hother
    · simp only [declare]
      omega
  · have hfind := Scopes.find?_extend scope site.outer name
    refine ⟨_, henter, ⟨?_, fun other hother => ?_, fun other hother => ?_⟩, _, rfl, ?_, ?_, ?_,
      next + count, ?_, ?_⟩
    · intro inner hinner item hitem
      rcases mem_cons.1 hinner with rfl | hinner
      · rcases mem_cons.1 hitem with rfl | hitem
        · exact sound_cell htakes.ne_function hpos (by omega) harray
        · exact h.models.sound scope (by rw [hscopes]; exact mem_cons_self) item hitem
      · exact h.models.sound inner (by rw [hscopes]; exact mem_cons_of_mem _ hinner) item hitem
    · rw [hfind]
      by_cases hname : other = name
      · exact ⟨_, if_pos hname, htakes.ne_function⟩
      · rw [if_neg hname, ← hscopes]
        exact h.models.vars other ((mem_cons.1 hother).resolve_left hname)
    · rw [hfind]
      by_cases hname : other = name
      · exact ⟨_, if_pos hname⟩
      · rw [if_neg hname, ← hscopes]
        exact h.models.functions other hother
    · exact hscope.relative
    · intro item hitem
      rcases mem_cons.1 hitem with rfl | hitem
      · exact mem_cons_self
      · exact mem_cons_of_mem _ (hscope.held item hitem)
    · intro item hitem
      rcases mem_cons.1 hitem with rfl | hitem
      · exact htakes.ne_function
      · exact hscope.category item hitem
    · simp [Scope.extend, hnext]
    · simp only [declare]
      omega

/-- The entry of an array under a new name. -/
theorem find?_array (h : site.Fits scopes) {length : Nat} (hpos : 0 < length)
    (hroom : length ≤ site.room) {name : String} (hnew : name ∉ site.held) {scopes' : Scopes}
    (henter : scopes.enter? name .array length "" = some scopes') :
    ∃ cell : Nat, cell + length ≤ writeLimit ∧
      scopes'.find? name = some ⟨site.cell cell, .array, some length⟩ := by
  obtain ⟨scope, hscopes, hscope, ⟨-, entry, hentry⟩ |
    ⟨next, size?, hnext, hlimit, harray, -, hcases⟩⟩ := h.enter?_cases (.array hpos) hroom name
  · exact absurd (hscope.held _ (Scope.mem_of_find? hentry)) hnew
  · obtain rfl := Option.some.inj (hcases.symm.trans henter)
    obtain rfl := harray rfl
    exact ⟨next, by omega, by rw [Scopes.find?_extend, if_pos rfl]⟩

/-- The cell of a variable can be written. -/
theorem text? (h : site.Fits scopes) {name : String} (hname : name ∈ site.known.vars) :
    ∃ entry text, scopes.find? name = some entry ∧ entry.address.text? = some text := by
  obtain ⟨entry, hentry, hcategory⟩ := h.models.vars name hname
  obtain ⟨hfunction, -, -⟩ | @⟨cell, length, -, haddress, hpos, hlimit, -⟩ :=
    h.models.sound.find? hentry
  · exact absurd hfunction hcategory
  have hwrite := writeInteger_of_lt (show cell < writeLimit by omega)
  refine ⟨entry, ?_⟩
  rcases haddress with haddress | haddress
  · exact ⟨_, hentry, by rw [haddress, Address.text?, hwrite]; rfl⟩
  · exact ⟨_, hentry, by rw [haddress, Address.text?, hwrite]; rfl⟩

end Fits

end Site

/-! ### Elements of arrays -/

/-- The elements of an array have operands for a store. -/
def Addressable (inFrame : Bool) (address : String) (size : Int) : Prop :=
  ∀ index : Nat, index < size → ∃ cell, cellAt? inFrame address index = some cell

/-- **The elements of an array can be addressed** if it is not in a frame or has but one. -/
theorem Site.addressable {site : Site} {cell length : Nat} (hlimit : cell + length ≤ writeLimit)
    (hpos : 0 < length) (hframe : site.inFrame = true → length = 1) :
    ∃ text, (site.cell cell).text? = some text ∧ Addressable site.inFrame text length := by
  have hwrite := writeInteger_of_lt (show cell < writeLimit by omega)
  cases hinFrame : site.inFrame with
  | true =>
    refine ⟨":" ++ toString (cell : Int), ?_, fun index hindex =>
      ⟨":" ++ toString (cell : Int), ?_⟩⟩
    · simp [Site.cell, hinFrame, Address.text?, hwrite, Except.toOption]
    · obtain rfl : index = 0 := by
        have hone := hframe hinFrame
        omega
      rfl
  | false =>
    refine ⟨toString (cell : Int), ?_, fun index hindex => ?_⟩
    · simp [Site.cell, hinFrame, Address.text?, hwrite, Except.toOption]
    · have hmoved := writeInteger_of_lt (show cell + index < writeLimit by omega)
      rw [Int.natCast_add] at hmoved
      by_cases hzero : (index : Int) = 0
      · exact ⟨_, by rw [cellAt?, movedOperand, if_pos hzero]; rfl⟩
      · refine ⟨toString ((cell : Int) + index), ?_⟩
        rw [cellAt?, toOption_eq_some, movedOperand, if_neg hzero, if_neg (by simp)]
        simp only [bind_eq_ok, mapError_eq_ok, Except.ok.injEq, exists_eq_left']
        exact ⟨cell, readInteger_of_writeInteger hwrite, hmoved⟩

/-! ### Declarators -/

/-- What the generator takes for granted about a declarator: an array has an element, and its length
can be read. Initial values of an array are given, and its name is none of those that are held
already. In a frame it has one element only. -/
def Declarator.Regular (inFrame : Bool) (held : List String) : Declarator → Prop
  | .plain _ | .initial _ _ => True
  | .array _ length => 0 < length.value ∧ length.digits.toList.length ≤ maxDigits
  | .filled name length values =>
    0 < length.value ∧ length.digits.toList.length ≤ maxDigits ∧ values ≠ [] ∧ name ∉ held ∧
      (inFrame = true → length.value = 1)

/-- The number of cells that some declarators take. -/
def cellCount : List Declarator → Nat
  | [] => 0
  | d :: ds => d.length + cellCount ds

theorem cellCount_append (first second : List Declarator) :
    cellCount (first ++ second) = cellCount first + cellCount second := by
  induction first with
  | nil => simp [cellCount]
  | cons d first ih => rw [cons_append, cellCount, cellCount, ih, Nat.add_assoc]

namespace Site

/-- The declarators are regular one after the other, and their initial values use known names. -/
def Admits (site : Site) : List Declarator → Prop
  | [] => True
  | d :: ds =>
    (d.Regular site.inFrame site.held ∧ d.length ≤ site.room ∧
      ∀ use ∈ d.uses, Occurrence.Proper ⟨use, site.known⟩) ∧
    (site.declare d.name d.length).Admits ds

/-- The site after some declarators. -/
def declareAll (site : Site) (ds : List Declarator) : Site :=
  ds.foldl (fun site d => site.declare d.name d.length) site

theorem declareAll_append (site : Site) (first second : List Declarator) :
    site.declareAll (first ++ second) = (site.declareAll first).declareAll second :=
  foldl_append

theorem admits_append {site : Site} {first second : List Declarator} :
    site.Admits (first ++ second) ↔ site.Admits first ∧ (site.declareAll first).Admits second := by
  induction first generalizing site with
  | nil => simp [Admits, declareAll]
  | cons d first ih => simp [Admits, declareAll, ih, and_assoc]

end Site

end ScoreLang
