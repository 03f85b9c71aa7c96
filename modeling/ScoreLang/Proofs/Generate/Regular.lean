import ScoreLang.Proofs.Generate.Site

/-!
# Regular Programs

What the generator takes for granted about a program and the parser has not seen to: that variables
are used as such, that declarators are regular, and that the numbers of cells can be written.

Between two functions the only scope is the global one, and it holds the global variables and the
functions so far (`Vocabulary.Global`). A function is entered into it before its body is translated,
and a scope for its variables is opened and closed.
-/

namespace ScoreLang

open List Text

/-! ### Vocabularies -/

/-- A vocabulary is part of another one. -/
structure Vocabulary.Within (v w : Vocabulary) : Prop where
  /-- Its variables are among those of the other. -/
  vars : v.vars ⊆ w.vars
  functions : v.functions ⊆ w.functions

namespace Vocabulary.Within

variable {v w : Vocabulary}

theorem declare (h : v.Within w) (name : String) : (v.declare name).Within (w.declare name) :=
  ⟨cons_subset_cons name h.vars, h.functions⟩

theorem declareAll (h : v.Within w) (ds : List Declarator) :
    (v.declareAll ds).Within (w.declareAll ds) := by
  induction ds generalizing v w with
  | nil => exact h
  | cons d ds ih => exact ih (h.declare d.name)

theorem proper (h : v.Within w) {use : Use} (hproper : Occurrence.Proper ⟨use, v⟩) :
    Occurrence.Proper ⟨use, w⟩ := by
  cases use with
  | «variable» target => exact ⟨hproper.1, h.vars hproper.2⟩
  | call name =>
    rcases mem_append.1 hproper with hname | hname
    · exact mem_append_left _ (h.vars hname)
    · exact mem_append_right _ (h.functions hname)

end Vocabulary.Within

/-- A regular declarator is regular after another one with a different name. -/
theorem Declarator.Regular.cons {inFrame : Bool} {held : List String} {d : Declarator}
    (h : d.Regular inFrame held) {name : String} (hname : d.name ≠ name) :
    d.Regular inFrame (name :: held) := by
  cases d with
  | plain | initial => trivial
  | array => exact h
  | filled own length values =>
    obtain ⟨hpos, hshort, hvalues, hnew, hframe⟩ := h
    exact ⟨hpos, hshort, hvalues, by simpa using ⟨hname, hnew⟩, hframe⟩

theorem Declarator.Regular.mono {inFrame : Bool} {held held' : List String} {d : Declarator}
    (h : d.Regular inFrame held) (hheld : held' ⊆ held) : d.Regular inFrame held' := by
  cases d with
  | plain | initial => trivial
  | array => exact h
  | filled own length values =>
    obtain ⟨hpos, hshort, hvalues, hnew, hframe⟩ := h
    exact ⟨hpos, hshort, hvalues, fun hmem => hnew (hheld hmem), hframe⟩

namespace Site

variable {site : Site} {v : Vocabulary} {ds : List Declarator}

/-- A site admits regular declarators with different names. -/
theorem admits (hregular : ∀ d ∈ ds, d.Regular site.inFrame site.held)
    (hnodup : (ds.map Declarator.name).Nodup) (hroom : cellCount ds ≤ site.room)
    (hwithin : v.Within site.known) (hproper : ∀ o ∈ declaredOccurrences v ds, o.Proper) :
    site.Admits ds := by
  induction ds generalizing site v with
  | nil => trivial
  | cons d ds ih =>
    rw [map_cons, nodup_cons] at hnodup
    simp only [cellCount] at hroom
    simp only [declaredOccurrences, mem_append, mem_map] at hproper
    refine ⟨⟨hregular d mem_cons_self, by omega, fun use huse =>
      hwithin.proper (hproper _ (.inl ⟨use, huse, rfl⟩))⟩,
      ih (fun e he => ?_) hnodup.2 ?_ (hwithin.declare d.name) fun o ho => hproper o (.inr ho)⟩
    · have hname : e.name ≠ d.name := fun h => hnodup.1 (h ▸ mem_map_of_mem he)
      exact (hregular e (mem_cons_of_mem _ he)).cons hname
    · simp only [declare]
      omega

@[simp] theorem declareAll_known :
    (site.declareAll ds).known = site.known.declareAll ds := by
  induction ds generalizing site with
  | nil => rfl
  | cons d ds ih => exact ih

theorem vars_subset_declareAll (site : Site) (ds : List Declarator) :
    site.known.vars ⊆ (site.declareAll ds).known.vars := by
  induction ds generalizing site with
  | nil => exact List.Subset.refl _
  | cons d ds ih =>
    exact List.Subset.trans (subset_cons_self d.name _) (ih (site.declare d.name d.length))

@[simp] theorem declareAll_outer : (site.declareAll ds).outer = site.outer := by
  induction ds generalizing site with
  | nil => rfl
  | cons d ds ih => exact ih

end Site

/-! ### Bodies -/

/-- The number of cells that the variables of a body take. -/
def Body.cells (body : Body) : Nat := cellCount (declarators body.declarations)

/-- What the generator takes for granted about a body, whose scope may hold some names before. -/
structure Body.Regular (body : Body) (inFrame : Bool) (held : List String) : Prop where
  plain : body.steps.plain = true
  declarators : ∀ d ∈ declarators body.declarations, d.Regular inFrame held

/-- A variable that is used is not just a function, and its index can be read. -/
def Occurrence.Regular (occurrence : Occurrence) : Prop :=
  match occurrence.use with
  | .variable target =>
    target.Short ∧ (target.name ∈ occurrence.known.functions → target.name ∈ occurrence.known.vars)
  | .call _ => True

theorem Occurrence.Regular.proper {occurrence : Occurrence} (h : occurrence.Regular)
    (hdeclared : occurrence.use.name ∈ occurrence.known.names) : occurrence.Proper := by
  obtain ⟨use, known⟩ := occurrence
  cases use with
  | «variable» target =>
    refine ⟨h.1, ?_⟩
    rcases mem_append.1 hdeclared with hname | hname
    · exact hname
    · exact h.2 hname
  | call name => exact hdeclared

namespace Program

/-- The number of cells that the global variables take. -/
def globalCells (program : Program) : Nat := cellCount (declarators program.globals)

/-- **What the generator takes for granted about a program** that the parser has not seen to. -/
structure Regular (program : Program) : Prop where
  /-- Variables are used as such. -/
  occurrences : ∀ occurrence ∈ program.occurrences, occurrence.Regular
  /-- The global declarators are regular. -/
  globals : ∀ d ∈ declarators program.globals, d.Regular false []
  /-- The functions are regular. No array with initial values has the name of a parameter. -/
  functions : ∀ f ∈ program.functions, f.body.Regular true ("return" :: f.parameters)
  /-- The main function is regular. -/
  main : program.body.Regular false []
  /-- The number of cells of each frame can be written. -/
  frames : ∀ f ∈ program.functions, 1 + f.parameters.length + f.body.cells < writeLimit
  /-- The same for the cells of the main function and the global variables. -/
  cells : program.globalCells + program.body.cells < writeLimit

theorem Regular.proper {program : Program} (h : program.Regular) (hnamed : program.Named) :
    ∀ occurrence ∈ program.occurrences, occurrence.Proper := fun o ho =>
  (h.occurrences o ho).proper (hnamed.declared o ho)

end Program

instance (target : Reference) : Decidable target.Short :=
  inferInstanceAs (Decidable (∀ index ∈ target.index, _))

instance : (occurrence : Occurrence) → Decidable occurrence.Regular
  | ⟨.variable _, _⟩ => inferInstanceAs (Decidable (_ ∧ _))
  | ⟨.call _, _⟩ => .isTrue trivial

instance (inFrame : Bool) (held : List String) :
    (d : Declarator) → Decidable (d.Regular inFrame held)
  | .plain _ | .initial _ _ => .isTrue trivial
  | .array _ _ | .filled _ _ _ => inferInstanceAs (Decidable (_ ∧ _))

instance (body : Body) (inFrame : Bool) (held : List String) :
    Decidable (body.Regular inFrame held) :=
  decidable_of_iff
    (body.steps.plain = true ∧ ∀ d ∈ declarators body.declarations, d.Regular inFrame held)
    ⟨fun h => ⟨h.1, h.2⟩, fun h => ⟨h.plain, h.declarators⟩⟩

instance (program : Program) : Decidable program.Regular :=
  decidable_of_iff
    ((∀ occurrence ∈ program.occurrences, occurrence.Regular) ∧
      (∀ d ∈ declarators program.globals, d.Regular false []) ∧
      (∀ f ∈ program.functions, f.body.Regular true ("return" :: f.parameters) ∧
        1 + f.parameters.length + f.body.cells < writeLimit) ∧
      program.body.Regular false [] ∧ program.globalCells + program.body.cells < writeLimit)
    ⟨fun h => ⟨h.1, h.2.1, fun f hf => (h.2.2.1 f hf).1, h.2.2.2.1, fun f hf => (h.2.2.1 f hf).2,
      h.2.2.2.2⟩, fun h => ⟨h.occurrences, h.globals, fun f hf => ⟨h.functions f hf, h.frames f hf⟩,
      h.main, h.cells⟩⟩

/-! ### Functions -/

/-- The only scope is the global one, and it knows a vocabulary. -/
structure Vocabulary.Global (v : Vocabulary) (scopes : Scopes) : Prop where
  models : v.Models scopes
  /-- There is one scope, and the number of its next cell can be written. -/
  single : ∃ (scope : Scope) (next : Nat), scopes = [scope] ∧ scope.next = next ∧ next < writeLimit

theorem Vocabulary.models_nil : Vocabulary.Models ⟨[], []⟩ [] :=
  ⟨by simp [Scopes.Sound], by simp, by simp⟩

theorem Site.Fits.global {site : Site} {scopes : Scopes} (h : site.Fits scopes)
    (houter : site.outer = []) : site.known.Global scopes := by
  obtain ⟨scope, hscopes, hscope⟩ := h.head
  obtain ⟨next, hnext, hlimit⟩ := hscope.next
  exact ⟨h.models, scope, next, by rw [hscopes, houter], hnext, by omega⟩

/-- A function is entered. Names that have been known before keep their entries. -/
theorem Vocabulary.Global.define {v : Vocabulary} {scopes : Scopes} (h : v.Global scopes)
    (name label : String) (count : Int) :
    ∃ scopes', scopes.enter? name .function count label = some scopes' ∧
      (v.define name).Global scopes' ∧
      ∀ other entry, scopes.find? other = some entry → scopes'.find? other = some entry := by
  obtain ⟨scope, next, rfl, hnext, hlimit⟩ := h.single
  have hwrite : writeInteger scope.next = .ok (toString (next : Int)) := by
    rw [hnext]
    exact writeInteger_of_lt hlimit
  rcases hfind : scope.find? name with _ | entry
  · obtain ⟨entry, hentry⟩ : ∃ entry : Entry, entry = ⟨.label label, .function, some count⟩ :=
      ⟨_, rfl⟩
    have hinsert : scope.insert name .function count label = scope.extend name entry 0 := by
      simp [Scope.insert, Scope.extend, hentry]
    have hextend := Scopes.find?_extend scope [] name
    have hkept : ∀ other found, Scopes.find? [scope] other = some found →
        Scopes.find? [scope.extend name entry 0] other = some found := by
      intro other found hfound
      by_cases hother : other = name
      · rw [hother, Scopes.find?, hfind] at hfound
        cases hfound
      · rw [hextend, if_neg hother, hfound]
    refine ⟨[scope.extend name entry 0], ?_, ⟨⟨?_, fun other hother => ?_, fun other hother => ?_⟩,
      _, next, rfl, by simp [Scope.extend, hnext], hlimit⟩, hkept⟩
    · simp [Scopes.enter?, hwrite, Except.toOption, Scopes.put?, Scope.put?, hfind, hinsert]
    · intro inner hinner item hitem
      obtain rfl := mem_singleton.1 hinner
      rcases mem_cons.1 hitem with rfl | hitem
      · rw [hentry]
        exact .function rfl rfl rfl
      · exact h.models.sound scope mem_cons_self item hitem
    · obtain ⟨found, hfound, hcategory⟩ := h.models.vars other hother
      exact ⟨found, hkept other found hfound, hcategory⟩
    · rw [hextend]
      by_cases hname : other = name
      · exact ⟨entry, if_pos hname⟩
      · rw [if_neg hname]
        exact h.models.functions other ((mem_cons.1 hother).resolve_left hname)
  · refine ⟨[scope],
      by simp [Scopes.enter?, hwrite, Except.toOption, Scopes.put?, Scope.put?, hfind],
      ⟨⟨h.models.sound, h.models.vars, fun other hother => ?_⟩, scope, next, rfl, hnext, hlimit⟩,
      fun other found hfound => hfound⟩
    rcases mem_cons.1 hother with rfl | hother
    · exact ⟨entry, by rw [Scopes.find?, hfind]⟩
    · exact h.models.functions other hother

namespace Site

/-- The site at the beginning of a new scope. -/
def opened (v : Vocabulary) (inFrame : Bool) (outer : Scopes) (room : Nat) : Site :=
  ⟨v, [], inFrame, outer, room⟩

theorem fits_opened {v : Vocabulary} {outer : Scopes} (id start room : Nat) (inFrame : Bool)
    (h : v.Models outer) (hlimit : start + room < writeLimit) :
    (opened v inFrame outer room).Fits (.empty id inFrame start :: outer) := by
  refine ⟨⟨fun scope hscope => ?_, h.vars, h.functions⟩, _, rfl, rfl, ?_, ?_, start, rfl, hlimit⟩
  · rcases mem_cons.1 hscope with rfl | hscope
    · simp [Scope.empty]
    · exact h.sound scope hscope
  · simp [Scope.empty]
  · simp [Scope.empty]

/-- The site after some variables with one cell each. -/
def declareEach (site : Site) (names : List String) : Site :=
  names.foldl (fun site name => site.declare name 1) site

/-- The site after a function has been entered into the outer scopes. -/
def define (site : Site) (name : String) (outer : Scopes) : Site :=
  { site with known := site.known.define name, outer := outer }

theorem declareEach_eq (site : Site) (names : List String) :
    site.declareEach names = { site with
      known := ⟨names.reverse ++ site.known.vars, site.known.functions⟩
      held := names.reverse ++ site.held
      room := site.room - names.length } := by
  induction names generalizing site with
  | nil => rfl
  | cons name names ih =>
    rw [declareEach, foldl_cons, ← declareEach, ih]
    simp [declare, Vocabulary.declare, Nat.sub_sub, Nat.add_comm]

/-- A function is entered into the outer scopes. -/
theorem Fits.define {site : Site} {scopes outer : Scopes} (h : site.Fits scopes) {v : Vocabulary}
    {name : String} (houter : v.Models outer) (hname : name ∈ v.functions)
    (hkept : ∀ other entry, site.outer.find? other = some entry → outer.find? other = some entry) :
    (site.define name outer).Fits (scopes.take 1 ++ outer) := by
  obtain ⟨scope, rfl, hscope⟩ := h.head
  have hfound : ∀ other entry, Scopes.find? (scope :: site.outer) other = some entry →
      Scopes.find? (scope :: outer) other = some entry := by
    intro other entry hother
    rw [Scopes.find?] at hother ⊢
    cases hfind : scope.find? other with
    | none =>
      rw [hfind] at hother
      exact hkept other entry hother
    | some found =>
      rw [hfind] at hother
      exact hother
  refine ⟨⟨fun inner hinner => ?_, fun other hother => ?_, fun other hother => ?_⟩, scope, rfl,
    hscope.relative, hscope.held, hscope.category, hscope.next⟩
  · rcases mem_cons.1 hinner with rfl | hinner
    · exact h.models.sound inner mem_cons_self
    · exact houter.sound inner hinner
  · obtain ⟨entry, hentry, hcategory⟩ := h.models.vars other hother
    exact ⟨entry, hfound other entry hentry, hcategory⟩
  · rcases mem_cons.1 hother with rfl | hother
    · rcases hfind : scope.find? other with _ | entry
      · obtain ⟨entry, hentry⟩ := houter.functions other hname
        exact ⟨entry, by simpa [Scopes.find?, hfind] using hentry⟩
      · exact ⟨entry, by simp [Scopes.find?, hfind]⟩
    · obtain ⟨entry, hentry⟩ := h.models.functions other hother
      exact ⟨entry, hfound other entry hentry⟩

end Site

namespace Function

variable {f : Function} {v : Vocabulary} {scopes outer : Scopes}

/-- The site at the beginning of the body of a function, whose scope holds the result and the
parameters. -/
def site (f : Function) (v : Vocabulary) (outer : Scopes) : Site where
  known := ⟨f.parameters.reverse ++ "return" :: v.vars, f.name :: v.functions⟩
  held := f.parameters.reverse ++ ["return"]
  inFrame := true
  outer := outer
  room := f.body.cells

theorem fits_site {inner : Scopes} (h : (((Site.opened v true scopes
      (1 + f.parameters.length + f.body.cells)).declare "return" 1).declareEach f.parameters).Fits
      inner)
    (houter : (v.define f.name).Models outer)
    (hkept : ∀ other entry, scopes.find? other = some entry → outer.find? other = some entry) :
    (f.site v outer).Fits (inner.take 1 ++ outer) := by
  have hsite : (((Site.opened v true scopes (1 + f.parameters.length + f.body.cells)).declare
      "return" 1).declareEach f.parameters).define f.name outer = f.site v outer := by
    have hroom : 1 + f.parameters.length + f.body.cells - 1 - f.parameters.length
      = f.body.cells := by
      omega
    rw [Site.declareEach_eq]
    simp [Site.define, Site.opened, Site.declare, site, Vocabulary.define,
      Vocabulary.declare, hroom]
  rw [← hsite]
  exact h.define houter mem_cons_self (by rwa [Site.declareEach_eq])

theorem within_site : (v.enter f).Within (f.site v outer).known := by
  refine ⟨fun name hname => ?_, List.Subset.refl _⟩
  rcases mem_append.1 hname with hname | hname
  · exact mem_append_left _ (mem_reverse.2 hname)
  · exact mem_append_right _ (mem_cons_of_mem _ hname)

theorem regular_site (h : f.body.Regular true ("return" :: f.parameters)) :
    f.body.Regular (f.site v outer).inFrame (f.site v outer).held := by
  refine ⟨h.plain, fun d hd => (h.declarators d hd).mono fun name hname => ?_⟩
  simpa [site, or_comm] using hname

/-- What the generator takes for granted about a function. -/
structure Orderly (f : Function) (v : Vocabulary) : Prop where
  regular : f.body.Regular true ("return" :: f.parameters)
  /-- Its names are different, and its jumps are guarded. -/
  tidy : f.body.Tidy
  proper : ∀ o ∈ f.body.occurrences (v.enter f), o.Proper
  /-- The number of cells of its frame can be written. -/
  frame : 1 + f.parameters.length + f.body.cells < writeLimit

end Function

/-! ### Programs -/

namespace Program

variable {program : Program}

/-- The site at the beginning of a program: the global scope is empty. -/
def site (program : Program) : Site := .opened ⟨[], []⟩ false [] program.globalCells

theorem Regular.fits_site (h : program.Regular) : program.site.Fits [.empty 0 false 0] := by
  have hcells := h.cells
  exact Site.fits_opened 0 0 program.globalCells false Vocabulary.models_nil (by omega)

theorem Regular.admits_globals (h : program.Regular) (hnamed : program.Named) :
    program.site.Admits (declarators program.globals) :=
  Site.admits h.globals hnamed.globals (Nat.le_refl _) ⟨List.Subset.refl _, List.Subset.refl _⟩
    fun o ho => h.proper hnamed o (mem_append_left _ (mem_append_left _ ho))

/-- What is known after the global declarations. -/
theorem global_of_fits {scopes : Scopes}
    (h : (program.site.declareAll (declarators program.globals)).Fits scopes) :
    program.globalVocabulary.Global scopes := by
  have hglobal := h.global (Site.declareAll_outer.trans rfl)
  rwa [Site.declareAll_known] at hglobal

end Program

end ScoreLang
