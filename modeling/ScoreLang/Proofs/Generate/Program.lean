import ScoreLang.Proofs.Code.Program
import ScoreLang.Proofs.Generate.Declaration
import ScoreLang.Proofs.Generate.Regular
import ScoreLang.Proofs.Generate.Statement
import ScoreLang.Proofs.Parse.Named

/-!
# The Walk through Programs

The lines of a body are held back until its size is known, and the first line that is not held back
comes before them. So a view of the state is not enough between two functions; what counts there is
the `Stage`: what is held back and what has been written. The generator walks through the functions
of a program one after the other, and from one stage to the next.

## Main results

* `secures_function`, `secures_mainFunction`: functions and the main function;
* `secures_program`: the rule of the logic for programs;
* `generate_plain`: **the generator writes the code of a plain program**;
* `generate_orderly`: **a regular program is translated, or it is rejected**;
* `generate_orderly_of_parse`: the parser sees to some of what makes a program regular.
-/

namespace ScoreLang

open List Text

namespace Generator

/-! ### More changes of the state -/

/-- Lines are held back from now on, or no longer. -/
def holdBack (g : Generator) (holding : Bool) : Generator := { g with holding := holding }

/-- A scope is opened. -/
def nest (g : Generator) (relative : Bool) (start : Int) : Generator :=
  { g with
    scopes := .empty g.scopeCount relative start :: g.scopes
    scopeCount := g.scopeCount + 1 }

/-- The cell for the result is set. -/
def returning (g : Generator) (cell : String) : Generator := { g with resultCell := cell }

/-- Some groups of lines are written. -/
def writeAll (g : Generator) (groups : List (List CodeLine)) : Generator := groups.foldl write g

/-- Writing changes nothing but the lines. -/
theorem writeAll_eq (g : Generator) (groups : List (List CodeLine)) : ∃ last held written,
    g.writeAll groups = { g with last := last, held := held, written := written } := by
  induction groups generalizing g with
  | nil => exact ⟨_, _, _, rfl⟩
  | cons lines groups ih =>
    obtain ⟨last, held, written, h⟩ := ih (g.write lines)
    refine ⟨last, held, written, ?_⟩
    change (g.write lines).writeAll groups = _
    rw [h, write]
    cases g.holding <;> rfl

theorem core_writeAll (g : Generator) (groups : List (List CodeLine)) :
    (g.writeAll groups).core = g.core.writeAll groups := by
  induction groups generalizing g with
  | nil => rfl
  | cons lines groups ih =>
    have hwrite : (g.write lines).core = g.core.write lines := by
      unfold write core
      cases g.holding <;> rfl
    change ((g.write lines).writeAll groups).core = (g.core.write lines).writeAll groups
    rw [ih, hwrite]

/-! ### Stages -/

/-- What there is to a state beside the place of the walk. -/
structure Stage where
  scopes : Scopes
  scopeCount : Nat
  resultCell : String
  marks : Marks
  holding : Bool
  held : List CodeLine
  written : List CodeLine
  trail : List Node

/-- The stage of a state. -/
def stage (g : Generator) : Stage :=
  ⟨g.scopes, g.scopeCount, g.resultCell, g.marks, g.holding, g.held.toList, g.written.toList,
  g.trail⟩

section

variable (g : Generator) (lines : List CodeLine)

@[simp] theorem stage_core : g.core.stage = g.stage := by simp [stage, core, marks, trail]

@[simp] theorem stage_mark (m : Marks) : (g.mark m).stage = { g.stage with marks := m } := rfl

@[simp] theorem stage_within (scopes : Scopes) :
    (g.within scopes).stage = { g.stage with scopes := scopes } := rfl

@[simp] theorem stage_holdBack (b : Bool) :
    (g.holdBack b).stage = { g.stage with holding := b } := rfl

@[simp] theorem stage_nest (relative : Bool) (start : Int) : (g.nest relative start).stage
    = { g.stage with
        scopes := .empty g.stage.scopeCount relative start :: g.stage.scopes
        scopeCount := g.stage.scopeCount + 1 } := rfl

@[simp] theorem stage_returning (cell : String) :
    (g.returning cell).stage = { g.stage with resultCell := cell } := rfl

/-- Lines are held back. -/
theorem stage_emitLines_of_holding (h : g.holding = true) :
    (g.emitLines lines).stage = { g.stage with held := g.stage.held ++ lines } := by
  have hgoes := Goes.emitLines g lines
  obtain ⟨_, _, _, heq⟩ := emitLines_eq g lines
  have hcount : (g.emitLines lines).scopeCount = g.scopeCount := by rw [heq]
  simp [stage, marks, hgoes.trail, hgoes.written h, hgoes.held h, hcount]

/-- The first line that is not held back comes before those that have been. -/
theorem stage_emitLines_cons (line : CodeLine) (h : g.holding = false) :
    (g.emitLines (line :: lines)).stage
      = { g.stage with held := [], written := g.stage.written ++ line :: (g.stage.held ++ lines)
      } := by
  have hwrite : g.write [line] = { g with
      last := [line], held := #[], written := g.written ++ [line] ++ g.held } := by
    rw [write, h]
    rfl
  induction lines generalizing g line with
  | nil =>
    change (g.write [line]).stage = _
    rw [hwrite]
    simp [stage, marks, trail]
  | cons next lines ih =>
    change ((g.write [line]).emitLines (next :: lines)).stage = _
    rw [ih (g.write [line]) next (by rw [hwrite]; exact h) (by rw [write, hwrite, h]; rfl), hwrite]
    simp [stage, marks, trail]

/-- If nothing is held back, lines are written as they come. -/
theorem stage_emitLines_of_clear (h : g.holding = false) (hheld : g.stage.held = []) :
    (g.emitLines lines).stage = { g.stage with written := g.stage.written ++ lines } := by
  cases lines with
  | nil => simp
  | cons line lines =>
    rw [stage_emitLines_cons _ _ _ h, hheld]
    simp [hheld]

/-- Groups of lines are held back. -/
theorem stage_writeAll (groups : List (List CodeLine)) (h : g.holding = true) :
    (g.writeAll groups).stage = { g.stage with held := g.stage.held ++ groups.flatten } := by
  induction groups generalizing g with
  | nil => simp [writeAll, stage]
  | cons lines groups ih =>
    have hwrite : g.write lines = { g with last := lines, held := g.held ++ lines } := by
      rw [write, h, if_pos rfl]
    change ((g.write lines).writeAll groups).stage = _
    rw [ih (g.write lines) (by rw [hwrite]; exact h), hwrite]
    simp [stage, marks, trail]

end

end Generator

open Generate Generator

/-- The stage that a view tells of. -/
def View.stage (w : View) : Stage := ((w.base.mark w.marks).emitLines w.lines).stage

theorem View.Sees.stage_eq {w : View} {g : Generator} (h : w.Sees g) : g.stage = w.stage :=
  (stage_core g).symm.trans (congrArg Generator.stage h.core)

theorem View.marks_stage (w : View) : w.stage.marks = w.marks := by
  simp [View.stage, Generator.stage, Generator.marks, mark, relabel, aim]

/-- The stage with some lines written and none held back. -/
def Surroundings.stage (s : Surroundings) (written : List CodeLine) (trail : List Node) : Stage :=
  ⟨s.scopes, s.scopeCount, s.resultCell, s.marks, false, [], written, trail⟩

section

variable {up : List Label} {lines : List CodeLine} {noted : List (Nat × Warning)} {m : Marks}
  {st : Generator}

theorem View.stage_of_holding (h : st.holding = true) : View.stage ⟨up, lines, noted, m, st⟩
    = { st.stage with marks := m, held := st.stage.held ++ lines } :=
  stage_emitLines_of_holding (st.mark m) lines h

theorem View.stage_of_clear {s : Surroundings} {written : List CodeLine} {trail : List Node}
    (h : st.stage = s.stage written trail) : View.stage ⟨up, lines, noted, m, st⟩
      = { s.stage (written ++ lines) trail with marks := m } := by
  refine (stage_emitLines_of_clear (st.mark m) lines (congrArg Stage.holding h)
    (congrArg Stage.held h)).trans ?_
  rw [stage_mark, h]
  rfl

end

namespace Secures

variable {err : CodeFault → Prop} {up : List Label} {lines : List CodeLine}
  {noted : List (Nat × Warning)} {m : Marks} {st : Generator} {post : Unit → View → Prop}

/-- The walk goes on from another state at the same stage, at which it has not written anything. -/
theorem settle {α : Type} {action : Generate α} {post : α → View → Prop} (stage : Stage)
    (hstage : View.stage ⟨up, lines, noted, m, st⟩ = stage)
    (h : ∀ st' : Generator, st'.stage = stage → Secures err action ⟨up, [], noted, m, st'⟩ post) :
    Secures err action ⟨up, lines, noted, m, st⟩ post := by
  refine of_sees ?_ (h ((st.mark m).emitLines lines) hstage)
  refine fun g hg => ⟨hg.upcoming, hg.noted, hg.core.trans ?_⟩
  rw [emitLines_nil, mark_emitLines]
  rfl

theorem hold {holding : Bool} (h : post () ⟨up, [], noted, m, st.holdBack holding⟩) :
    Secures err (hold holding) ⟨up, [], noted, m, st⟩ post :=
  update h fun _ hg => hg.change (·.holdBack holding) hg.upcoming hg.noted rfl rfl

theorem openScope {relative : Bool} {start : Int}
    (h : post () ⟨up, [], noted, m, st.nest relative start⟩) :
    Secures err (openScope relative start) ⟨up, [], noted, m, st⟩ post :=
  update h fun _ hg => hg.change (·.nest relative start) hg.upcoming hg.noted rfl rfl

theorem setResult {cell : String} (h : post () ⟨up, [], noted, m, st.returning cell⟩) :
    Secures err (modify fun generator => { generator with resultCell := cell })
      ⟨up, [], noted, m, st⟩ post :=
  update h fun _ hg => hg.change (·.returning cell) hg.upcoming hg.noted rfl rfl

theorem closeScope
    (hnone : (∀ inner scope outer, st.scopes ≠ inner :: scope :: outer) → ∀ fault, err fault)
    (h : ∀ inner scope outer, st.scopes = inner :: scope :: outer →
      post () ⟨up, lines, noted, m, st.within (scope :: outer)⟩) :
    Secures err closeScope ⟨up, lines, noted, m, st⟩ post := by
  refine get fun g hg => ?_
  rw [hg.scopes]
  split
  · rename_i inner scope outer hscopes
    exact setScopes (scope :: outer) (h inner scope outer hscopes) fun _ _ => rfl
  · rename_i hscopes
    exact throw (hnone hscopes _)

/-- Groups of lines are held back. -/
theorem forM_emit {groups : List (List CodeLine)} (hholding : st.holding = true)
    (h : ∀ st' : Generator, st'.stage = { st.stage with
        marks := m, held := st.stage.held ++ groups.flatten } → post () ⟨up, [], noted, m, st'⟩) :
    Secures err (groups.forM Generate.emit) ⟨up, [], noted, m, st⟩ post := by
  refine of_ends (h ((st.mark m).writeAll groups) (stage_writeAll _ _ hholding)) fun g hg =>
    ⟨g.writeAll groups, ?_, ?_⟩
  · clear hg h
    induction groups generalizing g with
    | nil => exact ends_pure.2 ⟨rfl, rfl⟩
    | cons lines groups ih => exact ends_bind.2 ⟨(), g.write lines, ends_emit.2 rfl, ih _⟩
  · obtain ⟨_, _, _, hwritten⟩ := writeAll_eq g groups
    obtain ⟨_, _, _, hcore⟩ := writeAll_eq (st.mark m) groups
    refine ⟨?_, ?_, ?_⟩
    · rw [hwritten]
      exact hg.upcoming
    · rw [hwritten]
      exact hg.noted
    · rw [core_writeAll, hg.core, emitLines_nil, hcore]
      rfl

end Secures

namespace Generate

variable {granted : Prop} {limit : Nat} {rest : List Label} {lines : List CodeLine}
  {noted : List (Nat × Warning)} {m : Marks} {st : Generator} {site : Site} {v : Vocabulary}

/-! ### Bodies -/

/-- **The generator writes the code of a body, or rejects the program.** The cells of its variables
are counted, and what is known at its end is what its declarations have added. -/
theorem secures_bodyParts {body : Body} {post : Int → View → Prop}
    (hlimit : body.labels.length ≤ limit) (hplain : body.steps.plain = true)
    (hfits : granted → site.Fits st.scopes)
    (hbody : granted → body.Regular site.inFrame site.held) (htidy : granted → body.Tidy)
    (hproper : granted → ∀ o ∈ body.occurrences v, o.Proper) (hwithin : v.Within site.known)
    (hroom : granted → body.cells ≤ site.room)
    (h : ∀ scopes own cells steps m' noted,
      declared? st.scopes (declarators body.declarations) = some ⟨scopes, own, cells⟩ →
      body.steps.code scopes st.resultCell none m = some (steps, m') →
      (granted → cells = body.cells ∧
        (site.declareAll (declarators body.declarations)).Fits scopes) →
      post cells ⟨rest, lines ++ own ++ steps, noted, m', st.within scopes⟩) :
    Secures (Blames granted) (bodyParts limit)
      ⟨declarationsLabels body.declarations ++
        .rule .statements :: (body.steps.inside ++ .word "\x7d" :: rest), lines, noted, m, st⟩
        post := by
  simp only [Body.labels, length_cons, length_append] at hlimit
  have hadmits : granted → site.Admits (declarators body.declarations) := fun hg =>
    Site.admits (hbody hg).declarators (htidy hg).nodup (hroom hg) hwithin
      fun o ho => hproper hg o (mem_append_left _ ho)
  refine .bind <| secures_declarations (by decide) (by omega) hfits hadmits
    fun scopes own total cells size noted hown hafter hsize htotal => ?_
  obtain rfl : size = cells := by omega
  have hcovers : granted → scopes.Covers body.steps.uses := fun hg => by
    have hmodels := (hafter hg).2.models
    rw [Site.declareAll_known] at hmodels
    exact hmodels.covers fun use huse => (hwithin.declareAll _).proper
      (hproper hg _ (mem_append_right _ (mem_map_of_mem huse)))
  have hsteps : body.steps.StepsCrossed := body.steps.crossed hplain
  refine .bind <| hsteps.statements (by decide) (by decide) (by omega) (by omega) hcovers
    (fun hg => guarded_of_guarded_false (htidy hg).guarded _)
    fun total' steps m' noted hcode _ htotal' => .bind <| .shift [_] <| .pure ?_
  rw [htotal', htotal]
  exact h scopes own size steps m' noted hown hcode hafter

/-! ### Parameters -/

theorem secures_parameter {name : String} {post : List CodeLine → View → Prop}
    (hfits : granted → site.Fits st.scopes) (hroom : granted → 1 ≤ site.room)
    (h : ∀ taken scopes, parameterCode st.scopes name = some (taken, scopes) →
      (granted → (site.declare name 1).Fits scopes) →
      post taken ⟨rest, lines, noted, m, st.within scopes⟩) :
    Secures (Blames granted) parameter
      ⟨.rule .parameter :: .word "int" :: .name name :: rest, lines, noted, m, st⟩ post :=
  .bind <| .enter [_] <| .bind <| .argument rfl <| .bind <|
    secures_declare hfits (fun hg => ⟨.ofVariable, hroom hg⟩) fun scopes henter hafter =>
      secures_cell hafter (fun _ => mem_cons_self) fun _ _ hentry htext => .bind <|
        .shift [_] <| .pure <| h _ scopes
          (bind_eq_some_of henter (bind_eq_some_of hentry (bind_eq_some_of htext rfl))) hafter

/-- The parameters after a comma. -/
theorem secures_otherParameters {count : Nat} {names : List String} {taken : List (List CodeLine)}
    {post : List (List CodeLine) → View → Prop} (hcount : names.length ≤ count)
    (hfits : granted → site.Fits st.scopes) (hroom : granted → names.length ≤ site.room)
    (h : ∀ all scopes, parametersCode st.scopes taken names = some (all, scopes) →
      all.length = taken.length + names.length → (granted → (site.declareEach names).Fits scopes) →
      post all ⟨.word ")" :: rest, lines, noted, m, st.within scopes⟩) :
    Secures (Blames granted) (repeatWhile (atWord? ",") (fun taken => do
        shift 1
        return (← parameter) :: taken) count taken)
      ⟨parameterLabels names ++ .word ")" :: rest, lines, noted, m, st⟩ post := by
  induction names generalizing site st count taken with
  | nil => exact .repeatWhile_stop (.atWord ⟨rfl, rfl⟩) <| h taken st.scopes rfl rfl hfits
  | cons name names ih =>
    simp only [length_cons] at hcount hroom
    obtain ⟨count, rfl⟩ : ∃ less, count = less + 1 := ⟨count - 1, by omega⟩
    refine .repeatWhile_go (.atWord ⟨rfl, rfl⟩) <| .bind <| .shift [_] <| .bind <|
      secures_parameter hfits (fun hg => by have := hroom hg; omega)
      fun first scopes hfirst hafter => .pure <| ih (by omega) hafter (fun hg => ?_)
      fun all scopes' hall hlength hlast => h all scopes' (bind_eq_some_of hfirst hall) ?_ hlast
    · have hless := hroom hg
      simp only [Site.declare]
      omega
    · rw [hlength, length_cons, length_cons]
      omega

/-- The parameters of a function; the lines that take their values are held back. -/
theorem secures_parameters {names : List String} {post : Nat → View → Prop}
    (hlimit : (parameterLabels names).length ≤ limit) (hholding : st.holding = true)
    (hfits : granted → site.Fits st.scopes) (hroom : granted → names.length ≤ site.room)
    (h : ∀ taken scopes st', parametersCode st.scopes [] names = some (taken, scopes) →
      (granted → (site.declareEach names).Fits scopes) →
      st'.stage = { st.stage with
        scopes := scopes, marks := m, held := st.stage.held ++ taken.flatten } →
      post names.length ⟨.word ")" :: rest, [], noted, m, st'⟩) :
    Secures (Blames granted) (parameters limit)
      ⟨.rule .parameters :: ((parameterLabels names).tail ++ .word ")" :: rest), [], noted, m, st⟩
      post := by
  have hcount : names.length ≤ (parameterLabels names).length :=
    length_le_length_flatMap (fun _ => cons_ne_nil _ _) names
  refine .bind <| .enter [] ?_
  cases names with
  | nil =>
    refine .bind <| .atRule <| .ifNeg (by decide) <| .bind <| .pure <| .bind <|
      secures_otherParameters (Nat.zero_le _) hfits hroom fun all scopes hall hlength hlast => ?_
    refine .bind <| .forM_emit hholding fun st' hst' => .pure ?_
    rw [hlength]
    exact h all scopes st' hall hlast hst'
  | cons name names =>
    simp only [length_cons] at hroom hcount
    refine .bind <| .atRule <| .ifPos rfl <| .bind <|
      secures_parameter hfits (fun hg => by have := hroom hg; omega)
      fun first scopes hfirst hafter => .bind <| .pure <| .bind <|
      secures_otherParameters (by omega) hafter (fun hg => ?_)
      fun all scopes' hall hlength hlast => ?_
    · have hless := hroom hg
      simp only [Site.declare]
      omega
    · refine .bind <| .forM_emit hholding fun st' hst' => .pure ?_
      have hnames : all.length = (name :: names).length := by simp [hlength, Nat.add_comm]
      rw [hnames]
      exact h all scopes' st' (bind_eq_some_of hfirst hall) hlast hst'

/-! ### Functions -/

/-- The number of cells that a frame takes can be written. -/
theorem writeInteger_frame {f : Function} (h : f.Orderly v) :
    writeInteger ((f.parameters.length : Int) + f.body.cells + 1)
      = .ok (toString ((f.parameters.length + f.body.cells + 1 : Nat) : Int)) := by
  have hframe := h.frame
  rw [← writeInteger_of_lt (by omega)]
  simp

variable {written : List CodeLine} {trail : List Node} {program : Program} {s : Surroundings}
  {post : Unit → View → Prop} {w : View}

/-- **The generator writes the code of a function, or rejects the program.** Its name is known after
it. -/
theorem secures_function {f : Function} (hup : w.upcoming = f.labels ++ rest)
    (hstage : w.stage = s.stage written trail) (hlimit : f.labels.length ≤ limit)
    (hplain : f.body.steps.plain = true) (hv : granted → v.Global s.scopes)
    (horderly : granted → f.Orderly v)
    (h : ∀ own s' w', f.code s = some (own, s') → (granted → (v.define f.name).Global s'.scopes) →
      w'.upcoming = rest → w'.stage = s'.stage (written ++ own) trail → post () w') :
    Secures (Blames granted) (Generate.function limit) w post := by
  obtain ⟨up, lines, noted, m, st⟩ := w
  obtain rfl : m = s.marks := (View.marks_stage _).symm.trans (congrArg Stage.marks hstage)
  obtain rfl : up = f.labels ++ rest := hup
  refine .settle _ hstage fun st₁ h₁ => ?_
  simp only [Function.labels, length_cons, length_append, length_tail] at hlimit
  simp only [Function.labels, Body.labels, cons_append, append_assoc, nil_append]
  refine .bind <| .enter [_] <| .bind <| .argument rfl <| .bind <|
    .newLabel <| .bind <| .place <| .bind <| .settle _ (View.stage_of_clear h₁) fun st₂ h₂ =>
    .hold <|
    .bind <| .shift [_, _] <| .bind <| .openScope ?_
  -- the scope of the function has a cell for the result
  have h₃ : ((st₂.holdBack true).nest true 0).stage = ⟨.empty s.scopeCount true 0 :: s.scopes,
      s.scopeCount + 1, s.resultCell, s.marks.use 1, true, [],
      written ++ [.label (s.marks.label 1)], trail⟩ := by
    rw [stage_nest, stage_holdBack, h₂]
    rfl
  generalize (st₂.holdBack true).nest true 0 = st₃ at h₃ ⊢
  have hscopes₃ : st₃.scopes = .empty s.scopeCount true 0 :: s.scopes := congrArg Stage.scopes h₃
  have hopened : granted → (Site.opened v true s.scopes
      (1 + f.parameters.length + f.body.cells)).Fits st₃.scopes := fun hg => by
    rw [hscopes₃]
    exact Site.fits_opened s.scopeCount 0 _ true (hv hg).models
      (by rw [Nat.zero_add]; exact (horderly hg).frame)
  refine .bind <| secures_declare hopened (fun _ => ⟨.single (by decide) (by decide),
      by simp only [Site.opened]; omega⟩) fun inner hinner hresult =>
    secures_cell hresult (fun _ => mem_cons_self) fun entry result hentry htext => .bind <|
    .setResult ?_
  rw [hscopes₃] at hinner
  have h₄ : ((st₃.within inner).returning result).stage = ⟨inner, s.scopeCount + 1, result,
      s.marks.use 1, true, [], written ++ [.label (s.marks.label 1)], trail⟩ := by
    rw [stage_returning, stage_within, h₃]
  generalize hst₄ : (st₃.within inner).returning result = st₄ at h₄ ⊢
  have hscopes₄ : st₄.scopes = inner := congrArg Stage.scopes h₄
  refine .bind <| secures_parameters (by omega) (congrArg Stage.holding h₄)
    (fun hg => hscopes₄ ▸ hresult hg)
    (fun hg => by simp only [Site.opened, Site.declare]; omega)
    fun taken scopes st₅ htaken hparameters h₅ => .get fun g hg => ?_
  rw [h₄] at h₅
  rw [hscopes₄] at htaken
  have hscopes₅ : st₅.scopes = scopes := congrArg Stage.scopes h₅
  have hholding₅ : st₅.holding = true := congrArg Stage.holding h₅
  have hresult₅ : st₅.resultCell = result := congrArg Stage.resultCell h₅
  rw [hg.scopes, hscopes₅]
  -- the function is entered into the global scope
  have htail : granted → scopes.tail = s.scopes := fun hg => by
    obtain ⟨scope, hscopes, -⟩ := (hparameters hg).head
    rw [hscopes, Site.declareEach_eq]
    rfl
  have hdefine := fun hg => (hv hg).define f.name (s.marks.label 1) f.parameters.length
  refine .bind <| .put (fun hnone fault hg => ?_) fun outer houter => ?_
  · obtain ⟨_, houter, -⟩ := hdefine hg
    rw [← htail hg] at houter
    exact absurd (hnone.symm.trans houter) (by simp)
  have hglobal : granted → (v.define f.name).Global outer ∧
      ∀ other entry, s.scopes.find? other = some entry → outer.find? other = some entry :=
      fun hg => by
    obtain ⟨outer', houter', hglobal⟩ := hdefine hg
    rw [htail hg] at houter
    obtain rfl := Option.some.inj (houter.symm.trans houter')
    exact hglobal
  have hsite : granted → (f.site v outer).Fits (scopes.take 1 ++ outer) := fun hg =>
    Function.fits_site (hparameters hg) (hglobal hg).1.models (hglobal hg).2
  refine .bind <| .setScopes (scopes.take 1 ++ outer) (.bind <| .pass [] ?_ (by decide)) fun g
    hg => ?_
  swap
  · rw [within, hg.scopes, hscopes₅]
  refine .bind <| .bind <| .enter [_] <| secures_bodyParts (by omega) hplain hsite
    (fun hg => Function.regular_site (horderly hg).regular) (fun hg => (horderly hg).tidy)
    (fun hg => (horderly hg).proper) Function.within_site (fun _ => Nat.le_refl _)
    fun last own cells steps m' noted hown hcode hlast => .bind <|
    .settle ⟨last, s.scopeCount + 1, result, m', true, taken.flatten ++ (own ++ steps),
      written ++ [.label (s.marks.label 1)], trail⟩ ?_ fun st₆ h₆ => .hold <| .bind <|
    .ofInteger ?_ fun size hsize => .bind <| .perform <| ?_
  · refine (View.stage_of_holding ?_).trans ?_
    · exact hholding₅
    · rw [stage_within, stage_within, h₅]
      simp
  · rintro ⟨fault, hfault⟩ _ hg
    rw [(hlast hg).1, writeInteger_frame (horderly hg)] at hfault
    cases hfault
  rw [within_resultCell, hresult₅] at hcode
  -- the frame is closed
  have hscopes₆ : st₆.scopes = last := congrArg Stage.scopes h₆
  have hreturn : "return" ∈
      ((f.site v outer).declareAll (declarators f.body.declarations)).known.vars :=
    Site.vars_subset_declareAll _ _ (by simp [Function.site])
  have hframe : granted → ∃ frame, last = frame :: outer := fun hg => by
    obtain ⟨frame, hframe, -⟩ := (hlast hg).2.head
    exact ⟨frame, by rw [hframe, Site.declareAll_outer]; rfl⟩
  refine secures_cell (fun hg => hscopes₆ ▸ (hlast hg).2) (fun _ => hreturn)
    fun entry' cell hentry' hcell => .bind <| .perform <| .closeScope (fun hnone fault hg => ?_)
    fun frame scope outer' hscopes => ?_
  · obtain ⟨frame, hframe⟩ := hframe hg
    obtain ⟨globals, _, houter, -⟩ := (hglobal hg).1.single
    exact absurd (hscopes₆.trans (by rw [hframe, houter])) (hnone frame globals [])
  · obtain rfl : last = frame :: scope :: outer' := hscopes₆.symm.trans hscopes
    have hopening : f.opening s.scopes s.scopeCount (s.marks.label 1) = some ⟨result,
        taken.flatten ++ own, frame :: scope :: outer', f.parameters.length + cells + 1⟩ :=
      bind_eq_some_of hinner (bind_eq_some_of hentry (bind_eq_some_of htext (bind_eq_some_of htaken
        (bind_eq_some_of houter (bind_eq_some_of hown rfl)))))
    have hentry₆ : Scopes.find? (frame :: scope :: outer') "return" = some entry' := by
      rw [← hscopes₆]
      exact hentry'
    refine h _ ⟨scope :: outer', s.scopeCount + 1, m', result⟩ _ (bind_eq_some_of hopening
      (bind_eq_some_of hcode (bind_eq_some_of (toOption_eq_some.2 hsize)
        (bind_eq_some_of hentry₆ (bind_eq_some_of hcell rfl))))) (fun hg => ?_) rfl ?_
    · obtain ⟨_, hframe⟩ := hframe hg
      rw [(List.cons.inj hframe).2]
      exact (hglobal hg).1
    · refine (stage_emitLines_cons (((st₆.holdBack false).within _).mark m') _ _ rfl).trans ?_
      rw [stage_mark, stage_within, stage_holdBack, h₆]
      simp [Surroundings.stage]

/-- Functions, one after the other. -/
theorem secures_functions {count : Nat} {functions : List Function} {next : Label}
    (hnext : next ≠ .rule .function)
    (hup : w.upcoming = functions.flatMap Function.labels ++ next :: rest)
    (hstage : w.stage = s.stage written trail)
    (hlimit : (functions.flatMap Function.labels).length ≤ limit)
    (hcount : functions.length ≤ count) (hplain : ∀ f ∈ functions, f.body.steps.plain = true)
    (hv : granted → v.Global s.scopes)
    (hregular : granted → ∀ f ∈ functions, f.body.Regular true ("return" :: f.parameters))
    (htidy : granted → ∀ f ∈ functions, f.body.Tidy)
    (hproper : granted → ∀ o ∈ functionOccurrences v functions, o.Proper)
    (hframes : granted → ∀ f ∈ functions, 1 + f.parameters.length + f.body.cells < writeLimit)
    (h : ∀ own s' w', functionsCode s functions = some (own, s') →
      (granted → (functions.foldl (fun v f => v.define f.name) v).Global s'.scopes) →
      w'.upcoming = next :: rest → w'.stage = s'.stage (written ++ own.flatten) trail → post () w')
    :
    Secures (Blames granted)
      (repeatWhile (atRule? .function) (fun _ => Generate.function limit) count ()) w post := by
  induction functions generalizing v count s written w with
  | nil =>
    obtain ⟨up, lines, noted, m, st⟩ := w
    obtain rfl : up = next :: rest := hup
    exact .repeatWhile_stop (.atRule ⟨by simpa using hnext, rfl⟩) <|
      h [] s _ rfl hv rfl (by simpa using hstage)
  | cons f functions ih =>
    rw [flatMap_cons, length_append] at hlimit
    rw [flatMap_cons, append_assoc] at hup
    rw [length_cons] at hcount
    obtain ⟨count, rfl⟩ : ∃ less, count = less + 1 := ⟨count - 1, by omega⟩
    refine .repeatWhile_go ?_ <| secures_function hup hstage (by omega)
      (hplain f mem_cons_self) hv (fun hg => ⟨hregular hg f mem_cons_self,
        htidy hg f mem_cons_self, fun o ho => hproper hg o (mem_append_left _ ho),
        hframes hg f mem_cons_self⟩) fun first s' w' hfirst hafter hup' hstage' =>
      ih hup' hstage' (by omega) (by omega) (fun e he => hplain e (mem_cons_of_mem _
        he)) hafter
      (fun hg e he => hregular hg e (mem_cons_of_mem _ he))
      (fun hg e he => htidy hg e (mem_cons_of_mem _ he))
      (fun hg o ho => hproper hg o (mem_append_right _ ho))
      (fun hg e he => hframes hg e (mem_cons_of_mem _ he))
      fun others s'' w'' hothers hlast hup'' hstage'' => ?_
    · obtain ⟨up, lines, noted, m, st⟩ := w
      obtain rfl : up = f.labels ++ (functions.flatMap Function.labels ++ next :: rest) := hup
      exact .atRule ⟨rfl, rfl⟩
    · exact h _ s'' w'' (bind_eq_some_of hfirst (bind_eq_some_of hothers rfl)) hlast hup''
        (by simpa using hstage'')

/-! ### Programs -/

/-- The main function. Its cells begin where those of the global variables end. -/
theorem secures_mainFunction {start : Int} (hup : w.upcoming = program.mainLabels)
    (hstage : w.stage = s.stage written trail) (hlimit : program.mainLabels.length ≤ limit)
    (hplain : program.body.steps.plain = true) (hv : granted → v.Global s.scopes)
    (hbody : granted → program.body.Regular false []) (htidy : granted → program.body.Tidy)
    (hproper : granted → ∀ o ∈ program.body.occurrences v, o.Proper)
    (hcells : granted → ∃ first : Nat, start = first ∧ first + program.body.cells < writeLimit)
    (h : ∀ size own s' w', program.mainCode s start = some (size, own) → w'.upcoming = [] →
      w'.stage = Surroundings.stage s' (written ++ Operation.allocate.line size :: own) trail →
      post () w') :
    Secures (Blames granted) (mainFunction limit start) w post := by
  obtain ⟨up, lines, noted, m, st⟩ := w
  obtain rfl : m = s.marks := (View.marks_stage _).symm.trans (congrArg Stage.marks hstage)
  obtain rfl : up = program.mainLabels := hup
  simp only [Program.mainLabels, length_cons] at hlimit
  simp only [Program.mainLabels, Body.labels]
  refine .settle _ hstage fun st₁ h₁ => .bind <| .enter [_, _, _] <| .bind <| .hold <| .bind <|
    .bind <| .enter [_] <| .bind <| .openScope <| .bind ?_
  have h₂ : ((st₁.holdBack true).nest false start).stage = ⟨.empty s.scopeCount false start ::
      s.scopes, s.scopeCount + 1, s.resultCell, s.marks, true, [], written, trail⟩ := by
    rw [stage_nest, stage_holdBack, h₁]
    rfl
  generalize (st₁.holdBack true).nest false start = st₂ at h₂ ⊢
  have hscopes₂ : st₂.scopes = .empty s.scopeCount false start :: s.scopes :=
    congrArg Stage.scopes h₂
  have hresult₂ : st₂.resultCell = s.resultCell := congrArg Stage.resultCell h₂
  have hopened : granted → (Site.opened v false s.scopes program.body.cells).Fits st₂.scopes :=
    fun hg => by
      obtain ⟨first, rfl, hlimit⟩ := hcells hg
      rw [hscopes₂]
      exact Site.fits_opened s.scopeCount first _ false (hv hg).models hlimit
  refine secures_bodyParts (by omega) hplain hopened hbody htidy hproper
    ⟨List.Subset.refl _, List.Subset.refl _⟩ (fun _ => Nat.le_refl _)
    fun last own cells steps m' noted hown hcode hlast => .bind <|
    .closeScope (fun hnone fault hg => ?_) fun frame scope outer hscopes => .pure <| .bind <|
    .settle ⟨scope :: outer, s.scopeCount + 1, s.resultCell, m', true, own ++ steps, written,
      trail⟩ ?_
    fun st₃ h₃ => .hold <| .bind <| .ofInteger ?_ fun size hsize => .perform ?_
  · obtain ⟨frame, hframe, -⟩ := (hlast hg).2.head
    obtain ⟨globals, _, houter, -⟩ := (hv hg).single
    rw [Site.declareAll_outer, Site.opened, houter] at hframe
    exact absurd hframe (hnone frame globals [])
  · refine (View.stage_of_holding ?_).trans ?_
    · exact congrArg Stage.holding h₂
    · rw [stage_within, stage_within, h₂]
      simp
  · rintro ⟨fault, hfault⟩ _ hg
    obtain ⟨first, rfl, hlimit⟩ := hcells hg
    rw [(hlast hg).1] at hfault
    have htext : ∃ text, writeInteger (if (program.body.cells : Int) + first = 0 then 1
        else (program.body.cells : Int) + first) = .ok text := by
      split
      · exact ⟨_, writeInteger_of_lt one_lt_writeLimit⟩
      · exact ⟨_, by rw [← Int.natCast_add]; exact writeInteger_of_lt (by omega)⟩
    obtain ⟨text, htext⟩ := htext
    exact absurd (hfault.symm.trans htext) (by simp)
  · rw [hscopes₂] at hown
    rw [hresult₂] at hcode
    refine h size _ ⟨scope :: outer, s.scopeCount + 1, m', s.resultCell⟩ _ (bind_eq_some_of hown
      (bind_eq_some_of hcode (bind_eq_some_of (toOption_eq_some.2 hsize) rfl))) rfl ?_
    refine (stage_emitLines_cons ((st₃.holdBack false).mark m') _ _ rfl).trans ?_
    rw [stage_mark, stage_holdBack, h₃]
    simp [Surroundings.stage]

/-- The part of a program after the global declarations. -/
def afterGlobals (limit : Nat) (start : Int) : Generate Unit := do
  let mainLabel ← newLabel
  perform .branch mainLabel
  repeatWhile (atRule? .function) (fun _ => Generate.function limit) limit ()
  place mainLabel
  if ← atRule? .main then mainFunction limit start
  emit [.command stopWord ""]

/-- A program after its global declarations. -/
theorem secures_afterGlobals (globals : Declared) {labels : Nat}
    (hup : w.upcoming = program.functions.flatMap Function.labels ++ program.mainLabels)
    (hstage : w.stage
      = Surroundings.stage ⟨globals.scopes, 1, ⟨labels, none, none⟩, ""⟩ globals.lines trail)
    (hlimit : (program.functions.flatMap Function.labels ++ program.mainLabels).length ≤ limit)
    (hplain : program.plain = true) (hglobals : granted → globals.size = program.globalCells ∧
      program.globalVocabulary.Global globals.scopes) (hregular : granted → program.Regular)
    (hnamed : granted → program.Named) (h : ∀ functions main w',
      functionsCode ⟨globals.scopes, 1, ⟨labels + 1, none, none⟩, ""⟩ program.functions
        = some functions →
      program.mainCode functions.2 globals.size = some main → w'.upcoming = [] →
      w'.stage.trail = trail → w'.stage.written = ProgramCode.lines ⟨globals.lines,
        labelName (labels + 1), functions.1, main.1, main.2⟩ → post () w') :
    Secures (Blames granted) (afterGlobals limit globals.size) w post := by
  simp only [Program.plain, Bool.and_eq_true, all_eq_true] at hplain
  have hproper := fun hg => (hregular hg).proper (hnamed hg)
  have hcount : program.functions.length ≤ (program.functions.flatMap Function.labels).length :=
    length_le_length_flatMap (fun _ => cons_ne_nil _ _) program.functions
  rw [length_append] at hlimit
  obtain ⟨up, lines, noted, m, st⟩ := w
  obtain rfl : m = ⟨labels, none, none⟩ := (View.marks_stage _).symm.trans (congrArg Stage.marks
    hstage)
  refine .settle _ hstage fun st₁ h₁ => .bind <| .newLabel <| .bind <| .perform <| .bind ?_
  have hbranch : View.stage ⟨up, [Operation.branch.line (labelName (labels + 1))], noted, _, st₁⟩
      = Surroundings.stage ⟨globals.scopes, 1, ⟨labels + 1, none, none⟩, ""⟩ (globals.lines ++ _)
      trail :=
    View.stage_of_clear h₁
  refine secures_functions (by decide) hup hbranch (by omega) (by omega) hplain.1 (fun hg =>
    (hglobals hg).2) (fun hg => (hregular hg).functions) (fun hg => (hnamed hg).functions)
    (fun hg o ho => hproper hg o (mem_append_left _ (mem_append_right _ ho)))
    (fun hg => (hregular hg).frames) ?_
  rintro own s ⟨_, lines', noted', m', st'⟩ hfunctions hafter rfl hstage'
  obtain rfl : m' = s.marks := (View.marks_stage _).symm.trans (congrArg Stage.marks hstage')
  refine .bind <| .settle _ hstage' fun st₂ h₂ => .place <| .bind <| .atRule <| .ifPos rfl <|
    .bind <| secures_mainFunction rfl (View.stage_of_clear h₂) (by omega) hplain.2 hafter
    (fun hg => (hregular hg).main) (fun hg => (hnamed hg).main)
    (fun hg o ho => hproper hg o (mem_append_right _ ho))
    (fun hg => ⟨_, (hglobals hg).1, (hregular hg).cells⟩) ?_
  rintro size main s' ⟨_, lines'', noted'', m'', st''⟩ hmain rfl hstage''
  refine .settle _ hstage'' fun st₃ h₃ => .emit <| h (own, s) (size, main) _ hfunctions hmain
    rfl ?_ ?_
  · rw [View.stage_of_clear h₃]
    rfl
  · rw [View.stage_of_clear h₃]
    simp [Surroundings.stage, ProgramCode.lines, Marks.label]

/-- The first label after the global declarations. -/
theorem exists_labels_functions_append (program : Program) :
    ∃ label more, program.functions.flatMap Function.labels ++ program.mainLabels = label :: more ∧
      (label = .rule .function ∨ label = .rule .main) := by
  cases program.functions with
  | nil => exact ⟨.rule .main, _, rfl, .inr rfl⟩
  | cons f functions => exact ⟨.rule .function, _, rfl, .inl rfl⟩

/-- **The generator writes the code of a plain program, or rejects it.** It walks through the whole
tree. -/
theorem secures_program {labels : Nat} (hlimit : program.labels.length ≤ limit)
    (hstage : st.stage = Surroundings.stage ⟨[.empty 0 false 0], 1, ⟨labels, none, none⟩, ""⟩
    [] trail)
    (hplain : program.plain = true) (hregular : granted → program.Regular)
    (hnamed : granted → program.Named)
    (h : ∀ code w, program.code labels = some code → w.upcoming = [] → w.stage.trail = trail →
      w.stage.written = code.lines → post () w) :
    Secures (Blames granted) (Generate.program limit)
      ⟨program.labels, [], noted, ⟨labels, none, none⟩, st⟩ post := by
  rw [Program.labels_eq, length_cons, length_append] at hlimit
  rw [Program.labels_eq]
  obtain ⟨label, more, hmore, hlabel⟩ := exists_labels_functions_append program
  have hscopes : st.scopes = [.empty 0 false 0] := congrArg Stage.scopes hstage
  have hrest : ∀ {scopes lines cells noted}, declared? st.scopes (declarators program.globals)
        = some ⟨scopes, lines, cells⟩ →
      (granted → cells = program.globalCells ∧
        (program.site.declareAll (declarators program.globals)).Fits scopes) →
      Secures (Blames granted) (afterGlobals limit cells)
        ⟨label :: more, lines, noted, ⟨labels, none, none⟩, st.within scopes⟩ post := by
    intro scopes lines cells noted hdeclared hglobals
    have hwithin : (st.within scopes).stage
        = Surroundings.stage ⟨scopes, 1, ⟨labels, none, none⟩, ""⟩ [] trail := by
      rw [stage_within, hstage]
      rfl
    refine secures_afterGlobals ⟨scopes, lines, cells⟩ hmore.symm
      (View.stage_of_clear hwithin) (by omega) hplain
      (fun hg => ⟨(hglobals hg).1, Program.global_of_fits (hglobals hg).2⟩) hregular hnamed ?_
    intro functions main w hfunctions hmain hup htrail hwritten
    rw [hscopes] at hdeclared
    exact h _ w (bind_eq_some_of hdeclared (bind_eq_some_of hfunctions (bind_eq_some_of hmain rfl)))
      hup htrail hwritten
  rw [hmore]
  refine .bind <| .enter [] ?_
  have hfits : granted → program.site.Fits st.scopes := fun hg => hscopes ▸ (hregular hg).fits_site
  cases hempty : program.globals.isEmpty with
  | true =>
    have hglobals := isEmpty_iff.1 hempty
    have hne : (label == .rule .declarations) = false := by rcases hlabel with rfl | rfl <;> rfl
    refine .bind <| .atRule <| .ifNeg (by simp [hne]) <| .bind <| .pure <| hrest ?_ fun hg => ?_
    · rw [hglobals]
      rfl
    · rw [Program.globalCells, hglobals]
      exact ⟨rfl, hfits hg⟩
  | false =>
    have hne : label ≠ .rule .declaration := by rcases hlabel with rfl | rfl <;> decide
    rw [hempty, if_neg Bool.false_ne_true] at hlimit
    refine .bind <| .atRule <| .ifPos rfl <| .bind <| secures_declarations hne (by omega) hfits
      (fun hg => (hregular hg).admits_globals (hnamed hg)) ?_
    rintro scopes own _ cells _ noted hdeclared hglobals rfl rfl
    rw [Int.zero_add]
    exact hrest hdeclared hglobals

end Generate

/-! ### Whole programs -/

/-- All labels of the tree are ahead. -/
theorem initial_upcoming (tree : SyntaxTree) (labels : Nat) :
    (Generator.initial tree labels).upcoming = tree.shape.listing := by
  obtain ⟨value, sons⟩ := tree
  rw [SyntaxTree.shape, Tree.listing_map]
  simp [initial, upcoming, Tree.value]

theorem initial_stage (tree : SyntaxTree) (labels : Nat) : (Generator.initial tree labels).stage
    = Surroundings.stage ⟨[.empty 0 false 0], 1, ⟨labels, none, none⟩, ""⟩ [] tree.listing := by
  obtain ⟨value, sons⟩ := tree
  simp [initial, Generator.stage, marks, trail, Tree.value, Surroundings.stage]

variable {program : Program} {tree : SyntaxTree}

/-- What a run of the generator is like, on a plain program. -/
theorem secures_generate (granted : Prop) (labels : Nat) (hshape : tree.shape = program.tree)
    (hplain : program.plain = true) (hregular : granted → program.Regular)
    (hnamed : granted → program.Named) :
    match generate tree labels with
    | (.ok _, g) => ∃ code, program.code labels = some code ∧ g.written.toList = code.lines ∧
      g.upcoming = [] ∧ g.trail = tree.listing
    | (.error fault, _) => Blames granted fault := by
  have hup : (Generator.initial tree labels).upcoming = program.labels := by
    rw [initial_upcoming, hshape, Program.labels]
  have hlength : program.labels.length ≤ tree.listing.length + 1 := by
    rw [← hup, initial_upcoming, SyntaxTree.shape, Tree.listing_map, length_map]
    omega
  have hstage : (Generator.initial tree labels).core.stage = _ :=
    (stage_core _).trans (initial_stage tree labels)
  have hsees := View.Sees.self (.initial tree labels)
  rw [hup] at hsees
  have hsecures : Secures (Blames granted) (Generate.program (tree.listing.length + 1))
      ⟨program.labels, [], [], ⟨labels, none, none⟩, (Generator.initial tree labels).core⟩
      fun _ w => ∃ code, program.code labels = some code ∧ w.stage.written = code.lines ∧
        w.upcoming = [] ∧ w.stage.trail = tree.listing :=
    secures_program hlength hstage hplain hregular hnamed fun code w hcode hend htrail hwritten =>
      ⟨code, hcode, hwritten, hend, htrail⟩
  have hrun := hsecures.run _ hsees
  rcases hout : generate tree labels with ⟨fault | _, g⟩
  · rw [show outcome (Generate.program _) (.initial tree labels) = (.error fault, g)
      from hout] at hrun
    exact hrun
  · rw [show outcome (Generate.program _) (.initial tree labels) = (.ok (), g) from hout] at hrun
    obtain ⟨w, ⟨code, hcode, hwritten, hend, htrail⟩, hg⟩ := hrun
    exact ⟨code, hcode, (congrArg Stage.written hg.stage_eq).trans hwritten, hg.upcoming.trans hend,
      (congrArg Stage.trail hg.stage_eq).trans htrail⟩

/-- **The generator writes the code of a plain program**, and walks through the whole tree. -/
theorem generate_plain {labels : Nat} {g : Generator} (hshape : tree.shape = program.tree)
    (hplain : program.plain = true) (h : generate tree labels = (.ok (), g)) :
    ∃ code, program.code labels = some code ∧ g.written.toList = code.lines ∧ g.upcoming = [] ∧
      g.trail = tree.listing := by
  have hrun := secures_generate False labels hshape hplain False.elim False.elim
  rwa [h] at hrun

/-- **A regular program is translated, or it is rejected**: if no code is written for it, then
because of an error with a line and a rule. -/
theorem generate_orderly {labels : Nat} {fault : CodeFault} {g : Generator}
    (hshape : tree.shape = program.tree) (hregular : program.Regular) (hnamed : program.Named)
    (h : generate tree labels = (.error fault, g)) : fault.IsError := by
  have hplain : program.plain = true := by
    simp only [Program.plain, Bool.and_eq_true, all_eq_true]
    exact ⟨fun f hf => (hregular.functions f hf).plain, hregular.main.plain⟩
  have hrun := secures_generate True labels hshape hplain (fun _ => hregular) fun _ => hnamed
  rw [h] at hrun
  exact hrun trivial

/-- **What the parser accepts is translated, or it is rejected**, if it is regular and no brace
stands directly after a comma. -/
theorem generate_orderly_of_parse {text : List Char} {parsed : Parsed} {program : Program}
    {labels : Nat} {fault : CodeFault} {g : Generator}
    (hwords : (TokenLine.kinds (tokenize text).lines).IsChain fun first second =>
      first.mayPrecede second = true)
    (hparse : parse (tokenize text).lines = .ok parsed) (hshape : parsed.tree.shape = program.tree)
    (hregular : program.Regular) (h : generate parsed.tree labels = (.error fault, g)) :
    fault.IsError := by
  have hnamed : program.Named := named_of_parse (isWellSpelled_tokenize text)
    hwords hparse hshape
  exact generate_orderly hshape hregular hnamed h

/-- An array is read beyond its end. -/
def beyondEndText : String :=
  "int a[2] = \x7b1, 2\x7d; function f(int b)\x7b return b; \x7d " ++
    "main()\x7b write call f(a[2]); \x7d"

/-- The program that the text spells. -/
def beyondEnd : Program where
  globals := [⟨⟨"int", rfl⟩, .filled "a" (numeral 2) [small 1, small 2], []⟩]
  functions := [⟨⟨"function", rfl⟩, "f", ["b"], [],
    .next (.return (.logical (.sum (.product (.factor (.variable ⟨"b", none⟩)))))) .done⟩]
  keyword := ⟨"main", Eq.refl "main"⟩
  body.declarations := []
  body.steps := .next (.write ⟨"write", Eq.refl "write"⟩ (.logical (.sum (.product (.factor
    (.call "f" (.argument (.logical (.sum (.product (.factor
      (.variable ⟨"a", some (numeral 2)⟩)))))))))))) .done
where
  small (n : Nat) : Expr .logical := .sum (.product (.factor (.number (numeral n))))

/-- It is accepted by the parser, and rejected by the generator. -/
theorem generate_beyondEnd : ∃ parsed g error,
    parse (tokenize beyondEndText.toList).lines = .ok parsed ∧
    generate parsed.tree 0 = (.error (.error error), g) := by
  have hread : (parse (tokenize beyondEndText.toList).lines).toOption.map
      (fun parsed => (parsed.tree.shape, (generate parsed.tree 0).1.toOption))
        = some (beyondEnd.tree, none) := by
    decide +kernel
  have hwords : (TokenLine.kinds (tokenize beyondEndText.toList).lines).IsChain fun first second =>
      first.mayPrecede second = true := by
    decide +kernel
  simp only [Option.map_eq_some_iff, Prod.mk.injEq, toOption_eq_some] at hread
  obtain ⟨parsed, hparse, hshape, hgenerate⟩ := hread
  cases hrun : (generate parsed.tree 0).1 with
  | ok u =>
    rw [hrun] at hgenerate
    cases hgenerate
  | error fault =>
    have h : generate parsed.tree 0 = (.error fault, (generate parsed.tree 0).2) :=
      Prod.ext hrun rfl
    obtain ⟨error, rfl⟩ := generate_orderly_of_parse hwords hparse hshape (by decide +kernel) h
    exact ⟨parsed, _, error, hparse, h⟩

/-! ### Texts that are accepted -/

/-- The text is accepted by the parser and by the generator, and the parser finds the program in
it. -/
def Program.IsSpelledBy (program : Program) (text : String) : Prop :=
  (parse (tokenize text.toList).lines).toOption.map
    (fun parsed => (parsed.tree.shape, (generate parsed.tree 0).1.toOption))
      = some (program.tree, some ())

instance (program : Program) (text : String) : Decidable (program.IsSpelledBy text) :=
  inferInstanceAs (Decidable (_ = _))

/-- A program that is spelled by a text is compiled. -/
theorem Program.IsSpelledBy.exists_generate {text : String} (h : program.IsSpelledBy text) :
    ∃ parsed g,
      parse (tokenize text.toList).lines = .ok parsed ∧ parsed.tree.shape = program.tree ∧
        generate parsed.tree 0 = (.ok (), g) := by
  simp only [IsSpelledBy, Option.map_eq_some_iff, Prod.mk.injEq, toOption_eq_some] at h
  obtain ⟨parsed, hparse, hshape, hgenerate⟩ := h
  exact ⟨parsed, _, hparse, hshape, Prod.ext hgenerate rfl⟩

end ScoreLang
