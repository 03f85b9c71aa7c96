import ScoreLang.Proofs.Code.Declaration
import ScoreLang.Proofs.Generate.Expression

/-!
# Where the Names of a Scope Lie

A scope answers requests to enter names, whatever they are. It gives to each new name the next
cells and refuses a name that it holds. So the cells of its entries are ranges that follow each
other, from the first cell of the scope to the one that is handed out next.

The address that is written for a variable, or for an element of an array, is then that of a cell in
the range of its entry. It is counted from the base of a frame exactly if the cells of the scope are
in which the name has been found.

## Main results

* `Tiles.chained`: tables whose entries take cells one after the other, as ranges;
* `Scope.Laid.grantAll`: what all scopes that arise from requests have in common;
* `Scopes.Granted.scoping`: so do the scopes of the generator, action by action;
* `Reference.locates`: the cell of a reference lies in the range of its entry;
* `ranges_and_cellOf`: the ranges of a scope, and the addresses that the generator writes.
-/

namespace ScoreLang

open List

/-! ### Entries that follow each other -/

/-- The cell of an address; code has none. -/
def Address.cell? : Address → Option Int
  | .absolute cell => some cell
  | .relative cell => some cell
  | .label _ => none

/-- The address of a cell that is counted from the base of a frame or not. -/
def Address.ofCell (relative : Bool) (cell : Int) : Address :=
  if relative then .relative cell else .absolute cell

/-- The number of a cell can be read from its address. -/
@[simp] theorem Address.cell?_ofCell (relative : Bool) (cell : Int) :
    (ofCell relative cell).cell? = some cell := by
  cases relative <;> rfl

/-- The entries of a table take the cells from `start` to `stop`, one after the other in the order
in which they were entered. -/
inductive Tiles (relative : Bool) (start : Int) : List (String × Entry) → Int → Prop where
  | nil : Tiles relative start [] start
  | label {table : List (String × Entry)} {stop : Int} {name text : String} {entry : Entry} :
      Tiles relative start table stop → entry.address = .label text →
      Tiles relative start ((name, entry) :: table) stop
  /-- A variable or an array takes the next cells. -/
  | cells {table : List (String × Entry)} {stop : Int} {name : String} {entry : Entry} :
      Tiles relative start table stop →
      entry.address = .ofCell relative stop → 0 < entry.size.getD 1 →
      Tiles relative start ((name, entry) :: table) (stop + entry.size.getD 1)

namespace Tiles

variable {relative : Bool} {start stop : Int} {table : List (String × Entry)}

/-- An entry that has a cell takes one at least, and its address is counted as the others are. -/
theorem address_eq (h : Tiles relative start table stop) {name : String} {entry : Entry}
    (hmem : (name, entry) ∈ table) {first : Int} (hfirst : entry.address.cell? = some first) :
    entry.address = .ofCell relative first ∧ 0 < entry.size.getD 1 := by
  induction h with
  | nil => cases hmem
  | label _ haddress ih =>
    rcases mem_cons.1 hmem with heq | hold
    · obtain ⟨-, rfl⟩ := Prod.mk.inj heq
      rw [haddress] at hfirst
      cases hfirst
    · exact ih hold
  | cells _ haddress hpos ih =>
    rcases mem_cons.1 hmem with heq | hold
    · obtain ⟨-, rfl⟩ := Prod.mk.inj heq
      rw [haddress, Address.cell?_ofCell] at hfirst
      rw [haddress, Option.some.inj hfirst]
      exact ⟨rfl, hpos⟩
    · exact ih hold

end Tiles

namespace Scope

/-- The scope has handed out the cells from `start` on, one after the other. -/
def Tiled (scope : Scope) (start : Int) : Prop := Tiles scope.relative start scope.table scope.next

theorem Tiled.empty (id : Nat) (relative : Bool) (start : Int) :
    (Scope.empty id relative start).Tiled start := .nil

/-- **A scope hands out its cells one after the other.** -/
theorem Tiled.insert {scope : Scope} {start : Int} (h : scope.Tiled start) (name : String)
    (category : Category) {size : Int} (hsize : 0 ≤ size) (label : String) :
    (scope.insert name category size label).Tiled start := by
  rw [Scope.insert]
  split
  · exact .label h rfl
  · split
    · exact .cells h rfl Int.one_pos
    · exact .cells h rfl (show 0 < size by omega)

end Scope

/-! ### Ranges -/

/-- The cells of an entry, from the first one up to the one after the last. Without a size, or with
the size zero, there is one cell. Code has no cells. -/
def Entry.range? (entry : Entry) : Option (Int × Int) :=
  entry.address.cell?.map fun first => (first, first + max (entry.size.getD 0) 1)

/-- A name has at least one cell. -/
theorem Entry.max_size {entry : Entry} (h : 0 < entry.size.getD 1) :
    max (entry.size.getD 0) 1 = entry.size.getD 1 := by
  cases hsize : entry.size with
  | none => rfl
  | some size =>
    rw [hsize, Option.getD_some] at h
    rw [Option.getD_some, Option.getD_some]
    omega

/-- Ranges that are not empty and follow each other, from a first cell up to a last one. -/
inductive Chained : Int → List (Int × Int) → Int → Prop where
  | nil (start : Int) : Chained start [] start
  /-- The next range begins where this one ends. -/
  | cons {first limit stop : Int} {ranges : List (Int × Int)} :
      first < limit → Chained limit ranges stop → Chained first ((first, limit) :: ranges) stop

namespace Chained

variable {start middle stop : Int} {ranges : List (Int × Int)}

/-- One more range at the end. -/
theorem concat (h : Chained start ranges middle) (hlt : middle < stop) :
    Chained start (ranges ++ [(middle, stop)]) stop := by
  induction h with
  | nil start => exact .cons hlt (.nil stop)
  | cons hfirst _ ih => exact .cons hfirst (ih hlt)

variable (h : Chained start ranges stop)

include h

/-- No range begins before the start. -/
theorem start_le : ∀ range ∈ ranges, start ≤ range.1 := by
  induction h with
  | nil => simp
  | cons hlt _ ih =>
    intro range hmem
    rcases mem_cons.1 hmem with rfl | hmem
    · exact Int.le_refl _
    · have hle := ih range hmem
      omega

/-- The end comes after the start. -/
theorem le_stop : start ≤ stop := by
  induction h with
  | nil => exact Int.le_refl _
  | cons hlt _ ih => omega

/-- Ranges that follow each other lie between the first cell and the last one. -/
theorem within :
    ∀ range ∈ ranges, start ≤ range.1 ∧ range.1 < range.2 ∧ range.2 ≤ stop := by
  induction h with
  | nil => exact forall_mem_nil _
  | cons hlt hrest ih =>
    have hle := hrest.le_stop
    refine forall_mem_cons.2 ⟨⟨Int.le_refl _, hlt, hle⟩, fun range hmem => ?_⟩
    have hrange := ih range hmem
    omega

/-- Ranges that follow each other do not overlap. -/
theorem pairwise :
    ranges.Pairwise fun range later => range.2 ≤ later.1 := by
  induction h with
  | nil => exact .nil
  | cons _ hrest ih => exact .cons hrest.start_le ih

end Chained

/-- The ranges of a table, in the order in which its names were entered. -/
def tableRanges (table : List (String × Entry)) : List (Int × Int) :=
  table.reverse.filterMap (·.2.range?)

theorem tableRanges_cons (name : String) (entry : Entry) (table : List (String × Entry)) :
    tableRanges ((name, entry) :: table) = tableRanges table ++ entry.range?.toList := by
  rw [tableRanges, reverse_cons, filterMap_append, tableRanges]
  cases hrange : entry.range? <;> simp [hrange]

/-- Entries that take cells one after the other have ranges that follow each other. -/
theorem Tiles.chained {relative : Bool} {start stop : Int} {table : List (String × Entry)}
    (h : Tiles relative start table stop) : Chained start (tableRanges table) stop := by
  induction h with
  | nil => exact .nil start
  | label _ haddress ih =>
    rw [tableRanges_cons, Entry.range?, haddress]
    simpa [Address.cell?] using ih
  | cells _ haddress hpos ih =>
    rw [tableRanges_cons, Entry.range?, haddress, Address.cell?_ofCell, Entry.max_size hpos]
    exact ih.concat (by omega)

/-! ### Requests -/

namespace Scope

/-- A request to enter a name. -/
structure Request where
  name : String
  category : Category
  /-- The number of elements or of parameters; zero for a variable. -/
  size : Nat
  label : String

/-- What the scope answers; `none` if it refuses. -/
def answer (scope : Scope) (request : Request) : Option Scope :=
  scope.put? request.name request.category request.size request.label

/-- The scope after a request. -/
def grant (scope : Scope) (request : Request) : Scope := (scope.answer request).getD scope

/-- The scope after some requests, one after the other. -/
def grantAll (scope : Scope) (requests : List Request) : Scope := requests.foldl grant scope

/-- The ranges of the entries, in the order in which they were entered. -/
def ranges (scope : Scope) : List (Int × Int) := tableRanges scope.table

/-- The scope has been made by requests, from one without names. -/
structure Granted (scope : Scope) (start : Int) (requests : List Request) : Prop where
  eq : scope = (Scope.empty scope.id scope.relative start).grantAll requests

variable {scope : Scope} {start : Int} {request : Request} {requests : List Request}

/-- A name that is held gets no answer. -/
theorem answer_eq_none_iff : scope.answer request = none ↔ (scope.find? request.name).isSome := by
  rw [answer, put?]
  split <;> simp_all

/-- A name that is held changes nothing. -/
theorem grant_of_held (h : (scope.find? request.name).isSome) : scope.grant request = scope := by
  rw [grant, answer_eq_none_iff.2 h]
  rfl

/-- A new name is inserted. -/
theorem grant_of_new (h : ¬(scope.find? request.name).isSome) : scope.grant request
    = scope.insert request.name request.category request.size request.label := by
  rw [grant, answer, put?, if_neg h]
  rfl

/-- What is entered for a new name: the label of a function, or the next cells. -/
theorem table_insert (scope : Scope) (name : String) (category : Category) {size : Int}
    (hsize : 0 ≤ size) (label : String) : ∃ entry : Entry, entry.category = category ∧
      (scope.insert name category size label).table = (name, entry) :: scope.table ∧
      if category = .function then entry.address = .label label ∧
        (scope.insert name category size label).next = scope.next
      else entry.range? = some (scope.next, scope.next + max size 1) ∧
        (scope.insert name category size label).next = scope.next + max size 1 := by
  have hcell : scope.nextAddress.cell? = some scope.next := by
    rw [nextAddress]
    split <;> rfl
  unfold insert
  split
  · exact ⟨_, rfl, rfl, rfl, rfl⟩
  split
  · rename_i hzero
    subst hzero
    exact ⟨_, rfl, rfl, by simp [Entry.range?, hcell], rfl⟩
  · refine ⟨_, rfl, rfl, by simp [Entry.range?, hcell], ?_⟩
    change scope.next + size = scope.next + max size 1
    omega

/-- What holds of a scope that has been made by requests: its names are different, the entries take
its cells one after the other, and functions are the ones that do not take any. -/
structure Laid (scope : Scope) (start : Int) (requests : List Request) : Prop where
  /-- The entries take the cells from the first one on. -/
  tiled : scope.Tiled start
  nodup : (scope.table.map (·.1)).Nodup
  category : ∀ entry ∈ scope.table, entry.2.category = .function ↔ entry.2.address.cell? = none
  names : ∀ name, (scope.find? name).isSome ↔ name ∈ requests.map Request.name

theorem laid_empty (id : Nat) (relative : Bool) (start : Int) :
    (Scope.empty id relative start).Laid start [] :=
  ⟨.empty id relative start, nodup_nil, by simp [Scope.empty], by simp [Scope.empty, find?]⟩

/-- The names of the table are found. -/
theorem find?_isSome_of_mem {name : String} (h : name ∈ scope.table.map (·.1)) :
    (scope.find? name).isSome := by
  rw [find?, Option.isSome_iff_ne_none, ne_eq, lookup_eq_none_iff]
  intro hnone
  obtain ⟨entry, hentry, rfl⟩ := mem_map.1 h
  simpa using hnone entry hentry

/-- **One request**: it adds an entry after the others, or changes nothing. -/
theorem Laid.grant (h : scope.Laid start requests) (request : Request) :
    (scope.grant request).Laid start (requests ++ [request]) := by
  by_cases hheld : (scope.find? request.name).isSome
  · rw [grant_of_held hheld]
    refine ⟨h.tiled, h.nodup, h.category, fun name => ?_⟩
    rw [h.names, map_append, mem_append]
    refine ⟨.inl, ?_⟩
    rintro (hbefore | hlast)
    · exact hbefore
    · obtain rfl : name = request.name := by simpa using hlast
      exact (h.names request.name).1 hheld
  · rw [grant_of_new hheld]
    obtain ⟨entry, hcategory, htable, hentry⟩ := scope.table_insert request.name request.category
      (Int.natCast_nonneg request.size) request.label
    refine ⟨h.tiled.insert _ _ (Int.natCast_nonneg _) _, ?_, ?_, fun name => ?_⟩
    · rw [htable, map_cons, nodup_cons]
      exact ⟨fun hmem => hheld (find?_isSome_of_mem hmem), h.nodup⟩
    · rw [htable]
      intro other hmem
      rcases mem_cons.1 hmem with rfl | hold
      · rw [hcategory]
        split at hentry
        · simp_all [Address.cell?]
        · simp_all [Entry.range?, Option.map_eq_some_iff]
      · exact h.category other hold
    · rw [isSome_find?_insert, h.names]
      simp [or_comm]

/-- **All requests.** -/
theorem Laid.grantAll (h : scope.Laid start requests) (more : List Request) :
    (scope.grantAll more).Laid start (requests ++ more) := by
  induction more generalizing scope requests with
  | nil => rwa [append_nil]
  | cons request more ih =>
    rw [append_cons]
    exact ih (h.grant request)

theorem Granted.laid (h : scope.Granted start requests) : scope.Laid start requests := by
  have hlaid := (laid_empty scope.id scope.relative start).grantAll requests
  rwa [← h.eq, nil_append] at hlaid

/-- The cells of an entry are one of the ranges. -/
theorem Laid.range (h : scope.Laid start requests) {entry : String × Entry}
    (hmem : entry ∈ scope.table) : if entry.2.category = .function then entry.2.range? = none
      else ∃ range ∈ scope.ranges, entry.2.range? = some range ∧
        entry.2.address = .ofCell scope.relative range.1 := by
  split
  · rename_i hfunction
    rw [Entry.range?, (h.category entry hmem).1 hfunction]
    rfl
  · rename_i hcategory
    obtain ⟨first, hfirst⟩ := Option.ne_none_iff_exists'.1
      fun hnone => hcategory ((h.category entry hmem).2 hnone)
    have hrange : entry.2.range? = some (first, first + max (entry.2.size.getD 0) 1) := by
      rw [Entry.range?, hfirst]
      rfl
    refine ⟨_, ?_, hrange, (h.tiled.address_eq hmem hfirst).1⟩
    exact mem_filterMap.2 ⟨entry, mem_reverse.2 hmem, hrange⟩

/-- What becomes of the ranges if a new name is entered. -/
theorem ranges_grant (h : scope.answer request ≠ none) : ∃ entry : Entry,
    entry.category = request.category ∧
    (scope.grant request).table = (request.name, entry) :: scope.table ∧
    if request.category = .function then entry.address = .label request.label ∧
      (scope.grant request).next = scope.next ∧ (scope.grant request).ranges = scope.ranges
    else (scope.grant request).next = scope.next + max (request.size : Int) 1 ∧
      (scope.grant request).ranges
        = scope.ranges ++ [(scope.next, scope.next + max (request.size : Int) 1)] := by
  rw [ne_eq, answer_eq_none_iff] at h
  rw [grant_of_new h]
  obtain ⟨entry, hcategory, htable, hentry⟩ := scope.table_insert request.name request.category
    (Int.natCast_nonneg request.size) request.label
  refine ⟨entry, hcategory, htable, ?_⟩
  rw [ranges, htable, tableRanges_cons]
  split at hentry
  · rename_i hfunction
    rw [if_pos hfunction, Entry.range?, hentry.1]
    exact ⟨rfl, hentry.2, append_nil _⟩
  · rename_i hfunction
    rw [if_neg hfunction, hentry.1]
    exact ⟨hentry.2, rfl⟩

/-- A request does not change what the scope is. -/
theorem id_grant (scope : Scope) (request : Request) : (scope.grant request).id = scope.id ∧
    (scope.grant request).relative = scope.relative := by
  by_cases hheld : (scope.find? request.name).isSome
  · rw [grant_of_held hheld]
    exact ⟨rfl, rfl⟩
  · rw [grant_of_new hheld]
    unfold insert
    split
    · exact ⟨rfl, rfl⟩
    split <;> exact ⟨rfl, rfl⟩

theorem relative_grantAll (scope : Scope) (requests : List Request) :
    (scope.grantAll requests).relative = scope.relative := by
  induction requests generalizing scope with
  | nil => rfl
  | cons request requests ih => exact (ih (scope.grant request)).trans (scope.id_grant request).2

theorem Granted.empty (id : Nat) (relative : Bool) (start : Int) :
    (Scope.empty id relative start).Granted start [] :=
  ⟨rfl⟩

/-- One more request. -/
theorem Granted.grant (h : scope.Granted start requests) (request : Request) :
    (scope.grant request).Granted start (requests ++ [request]) := by
  obtain ⟨hid, hrelative⟩ := scope.id_grant request
  refine ⟨?_⟩
  rw [hid, hrelative, grantAll, foldl_append]
  exact congrArg (·.grant request) h.eq

end Scope

/-! ### Addresses -/

/-- All scopes of a nest have been made by requests. -/
def Scopes.Granted (scopes : Scopes) : Prop :=
  ∀ scope ∈ scopes, ∃ start requests, scope.Granted start requests

/-- A name is requested of the innermost scope. -/
theorem Scopes.getD_put? (scope : Scope) (outer : Scopes) (request : Scope.Request) :
    (Scopes.put? (scope :: outer) request.name request.category request.size request.label).getD
      (scope :: outer) = scope.grant request :: outer := by
  rw [Scopes.put?, Scope.grant, Scope.answer]
  cases scope.put? request.name request.category request.size request.label <;> rfl

/-- The innermost scope that holds a name is the one in which it is found. -/
theorem Scopes.holding_of_find? {scopes : Scopes} {name : String} {entry : Entry}
    (h : scopes.find? name = some entry) : ∃ scope outer, scopes.holding name = scope :: outer ∧
      scope ∈ scopes ∧ scope.find? name = some entry := by
  induction scopes with
  | nil => cases h
  | cons scope outer ih =>
    rw [Scopes.find?] at h
    rw [Scopes.holding]
    cases hfound : scope.find? name with
    | some found =>
      rw [hfound] at h
      obtain rfl := Option.some.inj h
      exact ⟨scope, outer, by simp, mem_cons_self, hfound⟩
    | none =>
      rw [hfound] at h
      obtain ⟨inner, rest, hholding, hmem, hinner⟩ := ih h
      exact ⟨inner, rest, by simpa using hholding, mem_cons_of_mem _ hmem, hinner⟩

/-- A text is the address of a cell in the range of the entry of a name, counted as the cells of the
scope are in which the name is found. -/
def Scopes.Locates (scopes : Scopes) (name text : String) : Prop :=
  ∃ scope outer entry range cell, scopes.find? name = some entry ∧
    scopes.holding name = scope :: outer ∧ scope.find? name = some entry ∧
    entry.category ≠ .function ∧ entry.range? = some range ∧ range.1 ≤ cell ∧ cell < range.2 ∧
    (Address.ofCell scope.relative cell).text? = some text

/-- A cell is counted from another one. -/
theorem Address.moved?_ofCell (relative : Bool) (first offset : Int) :
    (ofCell relative first).moved? offset = some (ofCell relative (first + offset)) := by
  cases relative <;> rfl

/-- The element that an index names lies in the range of its array. -/
theorem Entry.offset?_lt {entry : Entry} {index : Option Numeral} {offset : Int}
    (h : entry.offset? index = some offset) (hpos : 0 < entry.size.getD 1) :
    0 ≤ offset ∧ offset < entry.size.getD 1 := by
  cases index with
  | none =>
    obtain rfl := Option.some.inj h
    exact ⟨Int.le_refl 0, hpos⟩
  | some index =>
    rw [Entry.offset?] at h
    split at h
    · rename_i read size hread hsize
      split at h
      · obtain rfl := Option.some.inj h
        obtain ⟨-, rfl⟩ := Text.readInteger_numeral.1 hread
        rename_i hrange
        rw [hsize, Option.getD_some]
        exact ⟨Int.natCast_nonneg _, hrange.2⟩
      · cases h
    · cases h

/-- **The cell of a reference lies in the range of its entry.** -/
theorem Reference.locates {scopes : Scopes} {target : Reference} {text : String}
    (hscopes : scopes.Granted) (h : target.cell? scopes = some text) :
    scopes.Locates target.name text := by
  simp only [Reference.cell?, bind_eq_some] at h
  obtain ⟨entry, hentry, offset, hoffset, moved, hmoved, htext⟩ := h
  obtain ⟨scope, outer, hholding, hmem, hfind⟩ := Scopes.holding_of_find? hentry
  obtain ⟨start, requests, hgranted⟩ := hscopes scope hmem
  have htable := Scope.mem_of_find? hfind
  obtain ⟨first, hfirst⟩ : ∃ first, entry.address.cell? = some first := by
    cases haddress : entry.address <;> simp_all [Address.moved?, Address.cell?]
  obtain ⟨haddress, hpos⟩ := hgranted.laid.tiled.address_eq htable hfirst
  obtain ⟨hnonneg, hlt⟩ := Entry.offset?_lt hoffset hpos
  have hcategory : entry.category ≠ .function := fun hfunction => by
    rw [(hgranted.laid.category _ htable).1 hfunction] at hfirst
    cases hfirst
  rw [haddress, Address.moved?_ofCell, Option.some.injEq] at hmoved
  refine ⟨scope, outer, entry, _, first + offset, hentry, hholding, hfind, hcategory,
    by rw [Entry.range?, hfirst]; rfl, ?_, ?_, hmoved ▸ htext⟩
  · change first ≤ first + offset
    omega
  · change first + offset < first + max (entry.size.getD 0) 1
    rw [Entry.max_size hpos]
    omega

/-! ### The scopes of the generator -/

namespace Generate

/-- What the generator does to its scopes. -/
inductive Scoping : Generate Unit → Prop where
  | opened (relative : Bool) (start : Int) : Scoping (openScope relative start)
  | closed : Scoping closeScope
  | declared (name : String) (category : Category) (size : Nat) :
      Scoping (declare name category size)
  /-- A function is entered, from inside its own scope. -/
  | entered (name start : String) (count : Nat) : Scoping do
      let outer ← put (← get).scopes.tail name .function count start
      modify fun generator => { generator with scopes := generator.scopes.take 1 ++ outer }

variable {g g' : Generator}

/-- The generator puts a name into the innermost scope. -/
theorem ends_put {scopes scopes' : Scopes} {name label : String} {category : Category}
    {size : Int} : Ends (put scopes name category size label) g scopes' g' →
      scopes' = (scopes.put? name category size label).getD scopes ∧ g = g' := by
  rw [put]
  simp only [ends_bind, ends_ofInteger, ends_pure]
  rintro ⟨_, _, ⟨-, rfl⟩, rfl, rfl⟩
  exact ⟨rfl, rfl⟩

end Generate

namespace Scopes.Granted

open Generate

variable {scopes : Scopes} {g g' : Generator}

theorem cons {scope : Scope} {start : Int} {requests : List Scope.Request}
    (hscope : scope.Granted start requests) (h : scopes.Granted) : Granted (scope :: scopes) := by
  intro other hmem
  rcases mem_cons.1 hmem with rfl | hmem
  · exact ⟨start, requests, hscope⟩
  · exact h other hmem

theorem sublist {inner : Scopes} (h : scopes.Granted) (hsub : inner.Sublist scopes) :
    inner.Granted :=
  fun scope hmem => h scope (hsub.subset hmem)

/-- A name is put into the innermost scope. -/
theorem put (h : scopes.Granted) (name : String) (category : Category) (size : Nat)
    (label : String) : Granted ((scopes.put? name category size label).getD scopes) := by
  cases scopes with
  | nil => exact h
  | cons scope outer =>
    obtain ⟨start, requests, hscope⟩ := h scope mem_cons_self
    rw [getD_put? scope outer ⟨name, category, size, label⟩]
    exact cons (hscope.grant _) (h.sublist (sublist_cons_self scope outer))

/-- **Whatever the generator does to its scopes, they are still made by requests.** -/
theorem scoping {action : Generate Unit} (haction : Scoping action) (h : g.scopes.Granted)
    (hends : Ends action g () g') : g'.scopes.Granted := by
  cases haction with
  | opened relative start =>
    obtain rfl := ends_modify.1 hends
    exact cons (.empty g.scopeCount relative start) h
  | closed =>
    rw [closeScope, ends_bind] at hends
    obtain ⟨_, _, hget, hends⟩ := hends
    obtain ⟨rfl, rfl⟩ := ends_get.1 hget
    split at hends
    · rename_i scope inner outer hscopes
      obtain rfl := ends_modify.1 hends
      exact h.sublist (hscopes ▸ sublist_cons_self _ _)
    · simp at hends
  | declared name category size =>
    rw [declare, ends_bind] at hends
    obtain ⟨_, _, hget, hends⟩ := hends
    obtain ⟨rfl, rfl⟩ := ends_get.1 hget
    obtain ⟨scopes, _, hput, hends⟩ := ends_bind.1 hends
    obtain ⟨rfl, rfl⟩ := ends_put hput
    obtain rfl := ends_modify.1 hends
    exact h.put name category size ""
  | entered name start count =>
    obtain ⟨_, _, hget, hends⟩ := ends_bind.1 hends
    obtain ⟨rfl, rfl⟩ := ends_get.1 hget
    obtain ⟨outer, _, hput, hends⟩ := ends_bind.1 hends
    obtain ⟨rfl, rfl⟩ := ends_put hput
    obtain rfl := ends_modify.1 hends
    intro scope hmem
    rcases mem_append.1 hmem with hfirst | houter
    · exact h scope (mem_of_mem_take hfirst)
    · exact (h.sublist (tail_sublist _)).put name .function count start scope houter

end Scopes.Granted

open Generate in
/-- **The ranges of a scope, and the addresses that the generator writes.** Whatever names are
requested of a new scope, its entries have different names, and those that are not functions have
ranges that follow each other, from the first cell of the scope to the next one to be handed out. A
name that has been requested before is refused. A new one gets as many cells as its size says, and
one at least, but a function gets none. The scopes of the generator are of this kind at the
beginning, and every action that changes them keeps them so. With such scopes around a variable, or
an element of an array, the address that is found for it, or loaded, is that of a cell in the range
of its entry. -/
theorem ranges_and_cellOf :
    (∀ (id : Nat) (relative : Bool) (start : Int) (requests : List Scope.Request) (scope : Scope),
      scope = (Scope.empty id relative start).grantAll requests →
      Chained start scope.ranges scope.next ∧
      (scope.ranges.Pairwise fun range later => range.2 ≤ later.1) ∧
      (scope.table.map (·.1)).Nodup ∧
      (∀ entry ∈ scope.table, if entry.2.category = .function then entry.2.range? = none
        else ∃ range ∈ scope.ranges, entry.2.range? = some range ∧
          entry.2.address = .ofCell relative range.1) ∧
      ∀ request : Scope.Request,
        (scope.answer request = none ↔ request.name ∈ requests.map Scope.Request.name) ∧
        (scope.answer request = none → scope.grant request = scope) ∧
        (scope.answer request ≠ none → ∃ entry : Entry, entry.category = request.category ∧
          (scope.grant request).table = (request.name, entry) :: scope.table ∧
          if request.category = .function then entry.address = .label request.label ∧
            (scope.grant request).next = scope.next ∧ (scope.grant request).ranges = scope.ranges
          else (scope.grant request).next = scope.next + max (request.size : Int) 1 ∧
            (scope.grant request).ranges
              = scope.ranges ++ [(scope.next, scope.next + max (request.size : Int) 1)])) ∧
    (∀ tree labels, (Generator.initial tree labels).scopes.Granted) ∧
    (∀ action g g', Scoping action → g.scopes.Granted → Ends action g () g' → g'.scopes.Granted) ∧
    ∀ (g g' : Generator) (target : Reference) (next : Label) (rest : List Label),
      g.scopes.Granted → next ≠ .word "[" →
      (g.upcoming = target.labels ++ next :: rest → ∀ text, Ends cellOf g text g' →
        g.scopes.Locates target.name text) ∧
      (g.upcoming = .rule .factor :: target.labels ++ next :: rest → ∀ expression limit,
        Ends (factor expression limit) g () g' → ∃ text,
          g' = (g.skip (target.labels.length + 1)).write [Operation.load.line text] ∧
          g.scopes.Locates target.name text) := by
  refine ⟨fun id relative start requests scope hscope => ?_, fun tree labels => ?_,
    fun action g g' haction h hends => h.scoping haction hends,
    fun g g' target next rest hscopes hnext =>
      ⟨fun hup text hends => ?_, fun hup expression limit hends => ?_⟩⟩
  · have hlaid : scope.Laid start requests := by
      have h := (Scope.laid_empty id relative start).grantAll requests
      rwa [nil_append, ← hscope] at h
    have hrelative : scope.relative = relative := by
      rw [hscope, Scope.relative_grantAll]
      rfl
    refine ⟨hlaid.tiled.chained, hlaid.tiled.chained.pairwise, hlaid.nodup, fun entry hmem => ?_,
      fun request => ⟨?_, fun hnone => ?_, fun hnew => ?_⟩⟩
    · exact hrelative ▸ hlaid.range hmem
    · rw [Scope.answer_eq_none_iff, hlaid.names]
    · exact Scope.grant_of_held (Scope.answer_eq_none_iff.1 hnone)
    · exact Scope.ranges_grant hnew
  · exact .cons (.empty 0 false 0) fun scope hmem => by cases hmem
  · exact Reference.locates hscopes ((ends_cellOf hup hnext).1 hends).1
  · obtain ⟨text, hcell, rfl⟩ := (ends_factor_variable hup hnext).1 hends
    exact ⟨text, rfl, Reference.locates hscopes hcell⟩

/-- The scope of a function in which its result has been entered, then a function, then an array,
and then, in vain, a variable with the name of the array. -/
def Scope.ofElement : Scope :=
  (Scope.empty 1 true 0).grantAll [⟨"return", .result, 0, ""⟩, ⟨"g", .function, 3, "LABEL2"⟩,
    ⟨"a", .array, 2, ""⟩, ⟨"a", .variable, 0, ""⟩]

/-- The generator in front of `a[1];` in this scope. -/
def Generator.beforeElement : Generator :=
  { Generator.initial (.node ⟨.rule .variable, 1, false⟩ []) 0 with
    ahead := [⟨.name "a", 1, true⟩, ⟨.word "[", 1, true⟩, ⟨.number "1", 1, true⟩,
      ⟨.word "]", 1, true⟩, ⟨.word ";", 1, true⟩]
    scopes := [Scope.ofElement] }

theorem ranges_and_cellOf_element :
    Chained 0 [(0, 1), (1, 3)] 3 ∧ Generator.beforeElement.scopes.Locates "a" ":2" := by
  have hgranted : Generator.beforeElement.scopes.Granted := by
    intro scope hmem
    obtain rfl := mem_singleton.1 hmem
    exact ⟨0, _, ⟨rfl⟩⟩
  have hnext : Label.word ";" ≠ .word "[" := by decide
  have hup : Generator.beforeElement.upcoming
      = (Reference.mk "a" (some ⟨"1", by decide, by simp⟩)).labels ++ .word ";" :: [] := rfl
  have hends := (Generate.ends_cellOf hup hnext).2 ⟨(by decide +kernel : _ = some ":2"), rfl⟩
  exact ⟨(ranges_and_cellOf.1 1 true 0 _ Scope.ofElement rfl).1,
    (ranges_and_cellOf.2.2.2 _ _ _ _ _ hgranted hnext).1 hup _ hends⟩

end ScoreLang
