import ScoreLang.Proofs.Generate.Expression
import ScoreLang.Proofs.Generate.Site

/-!
# The Walk through Declarations

The generator enters the names of a declaration into the innermost scope and writes the code for
their initial values. It may reject the program on the way; that it fails in another way is excluded
at a site that admits the declaration.
-/

namespace ScoreLang

open List Text

/-! ### Scopes -/

namespace Secures

open Generate Generator

variable {err : CodeFault → Prop} {up : List Label} {lines : List CodeLine}
  {noted : List (Nat × Warning)} {m : Marks} {st : Generator} {post : Unit → View → Prop}

theorem put {v : View} {scopes : Scopes} {name label : String} {category : Category} {size : Int}
    {post : Scopes → View → Prop} (hnone : scopes.enter? name category size label = none → ∀ fault,
    err fault)
    (h : ∀ scopes', scopes.enter? name category size label = some scopes' → post scopes' v) :
    Secures err (put scopes name category size label) v post := by
  refine bind <| ofInteger ?_ fun text htext => pure <| h _ ?_
  · rintro ⟨fault, hwrite⟩
    exact hnone (by rw [Scopes.enter?, hwrite]; rfl)
  · rw [Scopes.enter?, htext]
    rfl

/-- The scopes are replaced. -/
theorem setScopes {change : Generator → Generator} (scopes : Scopes)
    (h : post () ⟨up, lines, noted, m, st.within scopes⟩)
    (hchange : ∀ g : Generator, View.Sees ⟨up, lines, noted, m, st⟩ g → change g = g.within
    scopes) :
    Secures err (modify change) ⟨up, lines, noted, m, st⟩ post :=
  update h fun g hg => hchange g hg ▸
    hg.change (·.within scopes) hg.upcoming hg.noted rfl (within_emitLines _ _ _)

theorem declare {name : String} {category : Category} {size : Int}
    (hnone : st.scopes.enter? name category size "" = none → ∀ fault, err fault)
    (h : ∀ scopes, st.scopes.enter? name category size "" = some scopes →
      post () ⟨up, lines, noted, m, st.within scopes⟩) :
    Secures err (declare name category size) ⟨up, lines, noted, m, st⟩ post := by
  refine get fun g hg => ?_
  rw [hg.scopes]
  exact bind <| put hnone fun scopes henter => setScopes scopes (h scopes henter) fun _ _ => rfl

theorem performMoved {address : String} {offset : Int}
    (hnone : cellAt? st.scopes.inFrame address offset = none → ∀ fault, err fault)
    (h : ∀ cell, cellAt? st.scopes.inFrame address offset = some cell →
      post () ⟨up, lines ++ [Operation.store.line cell], noted, m, st⟩) :
    Secures err (performMoved Operation.store.mnemonic address offset) ⟨up, lines, noted, m, st⟩
      post := by
  refine bind <| get fun g hg => ?_
  rw [hg.scopes]
  cases hcell : movedOperand st.scopes.inFrame Operation.store.mnemonic address offset with
  | error fault =>
    have hmoved : movedOperand ((st.scopes.head?.map (·.relative)).getD false)
        Operation.store.mnemonic address offset = .error fault := hcell
    simp only [hmoved]
    exact throw (hnone (by rw [cellAt?, hcell]; rfl) fault)
  | ok cell =>
    have hmoved : movedOperand ((st.scopes.head?.map (·.relative)).getD false)
        Operation.store.mnemonic address offset = .ok cell := hcell
    simp only [hmoved]
    exact pure <| emit <| h cell (by rw [cellAt?, hcell]; rfl)

end Secures

namespace Generate

open Generator

variable {granted : Prop} {limit : Nat} {next : Label} {rest : List Label} {lines : List CodeLine}
  {noted : List (Nat × Warning)} {m : Marks} {st : Generator}

/-! ### Initial values -/

section Values

variable {address : String} {size : Int}

theorem secures_initialValue {index : Nat} {first : Label} {value : Expr .logical}
    {post : Nat → View → Prop} (hnext : next.endsExpr = true) (hlimit : value.labels.length ≤ limit)
    (hcovers : granted → st.scopes.Covers value.uses)
    (hcells : granted → Addressable st.scopes.inFrame address size)
    (h : ∀ own stored noted, value.code st.scopes = some own →
      element? st.scopes.inFrame address size index = some stored →
      post (index + 1) ⟨next :: rest, lines ++ own ++ stored, noted, m, st⟩) :
    Secures (Blames granted) (initialValue limit address size index)
      ⟨first :: (value.labels ++ next :: rest), lines, noted, m, st⟩ post := by
  refine .bind <| .shift [_] <| .bind <| secures_logical hnext hlimit hcovers fun own hown =>
    .ite (fun hindex => .bind <| .performMoved (fun hnone fault hg => ?_) fun cell hcell => .bind <|
      .act <| .pure ?_) fun hindex => .bind <| .act <| .bind <| .warn fun _ => .pure ?_
  · obtain ⟨cell, hcell⟩ := hcells hg index hindex
    exact absurd (hnone.symm.trans hcell) (by simp)
  · rw [append_assoc (lines ++ own)]
    exact h own _ _ hown (by simp [element?, hindex, hcell])
  · exact h own _ _ hown (by simp [element?, hindex])

theorem secures_initialValues {first : Label} {value : Expr .logical}
    {values : List (Expr .logical)}
    {index count : Nat} {post : Nat → View → Prop} (hfirst : first ≠ .word "\x7d")
    (hlimit : value.labels.length + (valueLabels values).length ≤ limit)
    (hcount : values.length < count)
    (hcovers : granted → st.scopes.Covers ((value :: values).flatMap Expr.uses))
    (hcells : granted → Addressable st.scopes.inFrame address size)
    (h : ∀ own noted, elements? st.scopes address size index (value :: values) = some own →
      post (index + (value :: values).length) ⟨.word "\x7d" :: rest, lines ++ own, noted, m, st⟩) :
    Secures (Blames granted)
      (repeatWhile (return !(← atWord? "\x7d")) (initialValue limit address size) count index)
      ⟨first :: (value.labels ++ (valueLabels values ++ .word "\x7d" :: rest)), lines, noted, m, st⟩
      post := by
  rw [flatMap_cons] at hcovers
  obtain ⟨count, rfl⟩ : ∃ less, count = less + 1 := ⟨count - 1, by omega⟩
  have hgo : (!(first == Label.word "\x7d")) = true := by simpa using hfirst
  induction values generalizing value first index count lines noted with
  | nil =>
    refine .repeatWhile_go (.bind <| .atWord <| .pure ⟨hgo, rfl⟩) <|
      secures_initialValue (by decide) (by omega) (fun hg => (hcovers hg).left) hcells
        fun own stored noted hown hstored =>
          .repeatWhile_stop (.bind <| .atWord <| .pure ⟨rfl, rfl⟩) ?_
    rw [append_assoc]
    exact h _ noted (by simp [elements?, hown, hstored])
  | cons second values ih =>
    have hvalues : valueLabels (second :: values) = .word "," ::
      (second.labels ++ valueLabels values) := rfl
    rw [hvalues, length_cons, length_append] at hlimit
    rw [length_cons] at hcount
    rw [hvalues, cons_append, append_assoc]
    obtain ⟨count, rfl⟩ : ∃ less, count = less + 1 := ⟨count - 1, by omega⟩
    refine .repeatWhile_go (.bind <| .atWord <| .pure ⟨hgo, rfl⟩) <|
      secures_initialValue (by decide) (by omega) (fun hg => (hcovers hg).left) hcells
        fun own stored noted hown hstored => ih (by decide) (by omega)
          (fun hg => (hcovers hg).right) (fun others noted hothers => ?_) count (by omega)
          (by decide)
    rw [append_assoc, append_assoc, ← append_assoc own, Nat.add_assoc,
      Nat.add_comm 1]
    exact h _ noted (bind_eq_some_of hown (bind_eq_some_of hstored (bind_eq_some_of hothers rfl)))

theorem secures_fillZeros {up : List Label} {count : Nat} (offset : Nat) {post : Unit → View → Prop}
    (hcells : granted → Addressable st.scopes.inFrame address size)
    (hcount : 0 < count → (offset + count : Int) ≤ size)
    (h : ∀ own, zeros? st.scopes.inFrame address offset count = some own →
      post () ⟨up, lines ++ own, noted, m, st⟩) :
    Secures (Blames granted) (fillZeros address offset count) ⟨up, lines, noted, m, st⟩ post := by
  induction count generalizing offset lines with
  | zero => exact .pure (by simpa using h [] rfl)
  | succ count ih =>
    have hle := hcount (Nat.succ_pos count)
    refine .bind <| .perform <| .bind <| .performMoved (fun hnone fault hg => ?_) fun cell hcell =>
      .bind <| .act <| ih (offset + 1) (fun _ => by omega) fun own hown => ?_
    · obtain ⟨cell, hcell⟩ := hcells hg offset (by omega)
      exact absurd (hnone.symm.trans hcell) (by simp)
    · have hzeros : zeros? st.scopes.inFrame address (offset + 1) count = some own := hown
      simpa using h _ (by simp [zeros?, hcell, hzeros])

/-- The initial values of an array, of which there must be one. -/
theorem secures_initializer {name : String} {values : List (Expr .logical)}
    {post : Unit → View → Prop} (hlimit : (valueLabels values).length ≤ limit)
    (hvalues : granted → values ≠ [])
    (hcovers : granted → st.scopes.Covers (values.flatMap Expr.uses))
    (hentry : granted → ∃ address size text, st.scopes.find? name = some
    ⟨address, .array, some size⟩ ∧
      address.text? = some text ∧ Addressable st.scopes.inFrame text size)
    (h : ∀ own noted, values ≠ [] → initial? st.scopes name values = some own →
      post () ⟨rest, lines ++ own, noted, m, st⟩) :
    Secures (Blames granted) (initializer limit name)
      ⟨.rule .initializer :: .word "\x7b" :: ((valueLabels values).tail ++ .word "\x7d" ::
      rest), lines,
        noted, m, st⟩ post := by
  refine .bind <| .enter [] <| .bind <| .entry (fun hnone fault hg => ?_) fun found hfound =>
    .bind <| .part (fun hnone fault hg => ?_) fun size hsize => .bind <|
    .addressText (fun hnone fault hg => ?_) fun text htext => ?_
  · obtain ⟨_, _, _, hentry, -, -⟩ := hentry hg
    exact absurd (hnone.symm.trans hentry) (by simp)
  · obtain ⟨_, _, _, hentry, -, -⟩ := hentry hg
    obtain rfl := Option.some.inj (hfound.symm.trans hentry)
    exact absurd hnone (by simp)
  · obtain ⟨_, _, _, hentry, htext, -⟩ := hentry hg
    obtain rfl := Option.some.inj (hfound.symm.trans hentry)
    exact absurd (hnone.symm.trans htext) (by simp)
  have hcells : granted → Addressable st.scopes.inFrame text size := by
    intro hg
    obtain ⟨_, _, _, hentry, htext', hcells⟩ := hentry hg
    obtain rfl := Option.some.inj (hfound.symm.trans hentry)
    obtain rfl := Option.some.inj (hsize.symm.trans rfl)
    rwa [Option.some.inj (htext.symm.trans htext')]
  cases values with
  | nil =>
    -- the first value is looked for at the closing brace
    obtain _ | limit := limit
    · exact .bind <| .bind <| .bind <| .atWord <| .pure <| .throw fun hg => absurd rfl (hvalues hg)
    · exact .bind <| .repeatWhile_go (.bind <| .atWord <| .pure ⟨rfl, rfl⟩) <| .bind <|
        .shift [_] <| .bind <| .bind <| .bind <| .atRule <| .ifNeg (by decide) <|
        .throw fun hg => absurd rfl (hvalues hg)
  | cons value values =>
    have hcount : values.length ≤ (valueLabels values).length :=
      length_le_length_flatMap (fun _ => cons_ne_nil _ _) values
    have hvalue : 0 < value.labels.length := Nat.succ_pos _
    have hcons : valueLabels (value :: values) = .word "," ::
      (value.labels ++ valueLabels values) := rfl
    rw [hcons, length_cons, length_append] at hlimit
    rw [hcons, tail_cons, append_assoc]
    refine .bind <| secures_initialValues (by decide) (by omega) (by omega) hcovers hcells
      fun own noted hown => .bind <| .shift [_] <| ?_
    rw [Nat.zero_add]
    refine secures_fillZeros _ hcells (by omega) fun zeros hzeros => ?_
    rw [append_assoc]
    exact h _ noted (by simp) (bind_eq_some_of hfound (bind_eq_some_of hsize (bind_eq_some_of htext
      (bind_eq_some_of hown (bind_eq_some_of hzeros rfl)))))

end Values

end Generate

/-! ### Declarators -/

/-- What is to hold behind some declarations that lead to a site and take a number of cells. -/
def Site.Continues (after : Site) (granted : Prop) (code : Option Declared) (count : Nat)
    (start : Int) (lines : List CodeLine) (m : Marks) (st : Generator) (up : List Label)
    (post : Int → View → Prop) : Prop :=
  ∀ ⦃scopes : Scopes⦄ ⦃own total : List CodeLine⦄ ⦃cells size : Int⦄ ⦃noted : List (Nat × Warning)⦄,
    code = some ⟨scopes, own, cells⟩ → (granted → cells = count ∧ after.Fits scopes) →
    size = start + cells → total = lines ++ own → post size ⟨up, total, noted, m, st.within scopes⟩

namespace Generate

variable {granted : Prop} {limit : Nat} {next : Label} {up rest : List Label}
  {lines : List CodeLine} {noted : List (Nat × Warning)} {m : Marks} {st : Generator} {site : Site}

variable {post : Int → View → Prop} {count : Nat}

theorem secures_declare {name : String} {category : Category} {size : Int}
    {post : Unit → View → Prop} (hfits : granted → site.Fits st.scopes)
    (htakes : granted → category.Takes size count ∧ count ≤ site.room)
    (h : ∀ scopes, st.scopes.enter? name category size "" = some scopes →
      (granted → (site.declare name count).Fits scopes) →
      post () ⟨up, lines, noted, m, st.within scopes⟩) :
    Secures (Blames granted) (declare name category size) ⟨up, lines, noted, m, st⟩ post := by
  have henter := fun hg => (hfits hg).enter? (htakes hg).1 (htakes hg).2 name
  refine .declare (fun hnone fault hg => ?_) fun scopes hscopes => h scopes hscopes fun hg => ?_
  · obtain ⟨scopes, hscopes, -⟩ := henter hg
    exact absurd (hnone.symm.trans hscopes) (by simp)
  · obtain ⟨scopes', hscopes', hafter⟩ := henter hg
    rwa [Option.some.inj (hscopes.symm.trans hscopes')]

/-- The cell of a variable that has been declared. -/
theorem secures_cell {α : Type} {name : String} {f : String → Generate α} {post : α → View → Prop}
    (hfits : granted → site.Fits st.scopes) (hname : granted → name ∈ site.known.vars)
    (h : ∀ entry text, st.scopes.find? name = some entry → entry.address.text? = some text →
      Secures (Blames granted) (f text) ⟨up, lines, noted, m, st⟩ post) :
    Secures (Blames granted) (entry name >>= fun found => addressText found.address >>= f)
      ⟨up, lines, noted, m, st⟩ post := by
  have htext := fun hg => (hfits hg).text? (hname hg)
  refine .bind <| .entry (fun hnone fault hg => ?_) fun found hfound => .bind <|
    .addressText (fun hnone fault hg => ?_) fun text htext => h found text hfound htext
  · obtain ⟨_, _, hentry, -⟩ := htext hg
    exact absurd (hnone.symm.trans hentry) (by simp)
  · obtain ⟨_, _, hentry, htext⟩ := htext hg
    obtain rfl := Option.some.inj (hfound.symm.trans hentry)
    exact absurd (hnone.symm.trans htext) (by simp)

/-- **The declaration of one name is written, or the program is rejected.** -/
theorem secures_declarator {d : Declarator} (hnext : next = .word "," ∨ next = .word ";")
    (hlimit : d.labels.length ≤ limit) (hfits : granted → site.Fits st.scopes)
    (hadmits : granted → d.Regular site.inFrame site.held ∧ d.length ≤ site.room ∧
      ∀ use ∈ d.uses, Occurrence.Proper ⟨use, site.known⟩)
    (h : (site.declare d.name d.length).Continues granted (d.code st.scopes) d.length 0 lines m st
      (next :: rest) post) :
    Secures (Blames granted) (declarator limit) ⟨d.labels ++ next :: rest, lines, noted, m, st⟩
      post := by
  have hequals : (next == .word "=") = false := by rcases hnext with rfl | rfl <;> rfl
  have hbracket : (next == .word "[") = false := by rcases hnext with rfl | rfl <;> rfl
  have hends : next.endsExpr = true := by rcases hnext with rfl | rfl <;> decide
  -- the name is declared before its value is computed
  have hcovers : ∀ {scopes : Scopes} {count : Nat}, (granted → (site.declare d.name count).Fits
    scopes) →
      granted → scopes.Covers d.uses :=
    fun hafter hg => (hafter hg).models.covers fun use huse =>
      ((hadmits hg).2.2 use huse).declare d.name
  cases d with
  | plain name =>
    refine .bind <| .enter [] <| .bind <| .argument rfl <| .bind <| .shift [_] <| .bind <|
      .atWord <| .ifNeg (by simp [hequals]) <| .bind <| .atWord <| .ifNeg (by simp [hbracket]) <|
      .bind <| secures_declare hfits (fun hg => ⟨.ofVariable, (hadmits hg).2.1⟩)
        fun scopes henter hafter => .pure ?_
    have hcode : (Declarator.plain name).code st.scopes = some ⟨scopes, [], 1⟩ := by
      rw [Declarator.code, henter]
      rfl
    exact h hcode (fun hg => ⟨rfl, hafter hg⟩) rfl (by simp)
  | initial name value =>
    simp only [Declarator.labels, length_cons] at hlimit
    refine .bind <| .enter [] <| .bind <| .argument rfl <| .bind <| .shift [_] <| .bind <|
      .atWord <| .ifPos rfl <| .bind <| secures_declare hfits
        (fun hg => ⟨.ofVariable, (hadmits hg).2.1⟩) fun scopes henter hafter => .bind <|
      .shift [_] <| .bind <| secures_logical hends (by omega) (hcovers hafter) fun own hown => ?_
    exact secures_cell hafter (fun _ => mem_cons_self) fun entry text hentry htext => .bind <|
      .perform <| .bind <| .act <| .pure <| h (bind_eq_some_of henter (bind_eq_some_of hown
        (bind_eq_some_of hentry (bind_eq_some_of htext rfl)))) (fun hg => ⟨rfl, hafter hg⟩) rfl
        (by simp)
  | array name length =>
    have hread := fun hg => readInteger_numeral.2 ⟨(hadmits hg).1.2, rfl⟩
    refine .bind <| .enter [] <| .bind <| .argument rfl <| .bind <| .shift [_] <| .bind <|
      .atWord <| .ifNeg (by decide) <| .bind <| .atWord <| .ifPos rfl <| .bind <| .shift [_] <|
      .bind <| .argument rfl <| .bind <| .ofInteger ?_ fun size hsize => ?_
    · rintro ⟨fault, hfault⟩ _ hg
      exact absurd (hfault.symm.trans (hread hg)) (by simp)
    have hlength := fun hg => Except.ok.inj (hsize.symm.trans (hread hg))
    exact .bind <| secures_declare hfits
      (fun hg => ⟨hlength hg ▸ .array (hadmits hg).1.1, (hadmits hg).2.1⟩)
      fun scopes henter hafter => .bind <| .shift [_, _] <| .bind <| .atWord <|
        .ifNeg (by simp [hequals]) <| .pure <| h (bind_eq_some_of (toOption_eq_some.2 hsize)
          (Option.map_eq_some_iff.2 ⟨scopes, henter, rfl⟩)) (fun hg => ⟨hlength hg, hafter hg⟩)
          (by simp) (by simp)
  | filled name length values =>
    have hread := fun hg => readInteger_numeral.2 ⟨(hadmits hg).1.2.1, rfl⟩
    simp only [Declarator.labels, length_cons, length_append, length_tail] at hlimit
    simp only [Declarator.labels, cons_append, append_assoc, nil_append]
    refine .bind <| .enter [] <| .bind <| .argument rfl <| .bind <| .shift [_] <| .bind <|
      .atWord <| .ifNeg (by decide) <| .bind <| .atWord <| .ifPos rfl <| .bind <| .shift [_] <|
      .bind <| .argument rfl <| .bind <| .ofInteger ?_ fun size hsize => ?_
    · rintro ⟨fault, hfault⟩ _ hg
      exact absurd (hfault.symm.trans (hread hg)) (by simp)
    have hlength := fun hg => Except.ok.inj (hsize.symm.trans (hread hg))
    refine .bind <| secures_declare hfits
      (fun hg => ⟨hlength hg ▸ .array (hadmits hg).1.1, (hadmits hg).2.1⟩)
      fun scopes henter hafter => .bind <| .shift [_, _] <| .bind <| .atWord <| .ifPos rfl <|
      .bind <| .shift [_] <| .bind <| secures_initializer (by omega) (fun hg =>
        (hadmits hg).1.2.2.1) (hcovers hafter) (fun hg => ?_) fun own noted hvalues hown => .pure <|
        h (bind_eq_some_of (toOption_eq_some.2 hsize) (bind_eq_some_of henter
          ((if_neg hvalues).trans (bind_eq_some_of hown rfl)))) (fun hg => ⟨hlength hg, hafter hg⟩)
          (by simp) rfl
    obtain ⟨hpos, -, -, hnew, hframe⟩ := (hadmits hg).1
    rw [hlength hg] at henter
    obtain ⟨cell, hcell, hentry⟩ := (hfits hg).find?_array hpos (hadmits hg).2.1 hnew henter
    obtain ⟨text, htext, hcells⟩ := Site.addressable hcell hpos hframe
    obtain ⟨scope, hscopes, hscope⟩ := (hafter hg).head
    have hinFrame : scopes.inFrame = site.inFrame := by
      rw [hscopes]
      exact hscope.relative
    exact ⟨_, _, text, hentry, htext, hinFrame ▸ hcells⟩

/-! ### Declarations -/

/-- The names of a declaration after the first one. -/
theorem exists_head_declaratorLabels (declarators : List Declarator) (rest : List Label) :
    ∃ next more, declaratorLabels declarators ++ .word ";" :: rest = next :: more ∧
      (next = .word "," ∨ next = .word ";") := by
  cases declarators with
  | nil => exact ⟨_, _, rfl, .inr rfl⟩
  | cons second declarators => exact ⟨_, _, rfl, .inl rfl⟩

theorem secures_furtherDeclarators {ds : List Declarator} {start : Int}
    (hlimit : (declaratorLabels ds).length ≤ limit) (hcount : ds.length ≤ count)
    (hfits : granted → site.Fits st.scopes) (hadmits : granted → site.Admits ds)
    (h : (site.declareAll ds).Continues granted (declared? st.scopes ds) (cellCount ds) start
    lines m st
      (.word ";" :: rest) post) :
    Secures (Blames granted) (repeatWhile (return !(← atWord? ";")) (fun size => do
        shift 1
        return size + (← declarator limit)) count start)
      ⟨declaratorLabels ds ++ .word ";" :: rest, lines, noted, m, st⟩ post := by
  induction ds generalizing start count site lines noted st with
  | nil =>
    exact .repeatWhile_stop (.bind <| .atWord <| .pure ⟨rfl, rfl⟩) <|
      h rfl (fun hg => ⟨rfl, hfits hg⟩) (by simp) (by simp)
  | cons d ds ih =>
    have hcons : declaratorLabels (d :: ds) = .word "," :: (d.labels ++ declaratorLabels ds) := rfl
    rw [hcons, length_cons, length_append] at hlimit
    rw [hcons, cons_append, append_assoc]
    rw [length_cons] at hcount
    obtain ⟨count, rfl⟩ : ∃ less, count = less + 1 := ⟨count - 1, by omega⟩
    obtain ⟨next, more, hmore, hnext⟩ := exists_head_declaratorLabels ds rest
    refine .repeatWhile_go (.bind <| .atWord <| .pure ⟨rfl, rfl⟩) <| .bind <| .shift [_] <|
      .bind ?_
    rw [hmore]
    refine secures_declarator hnext (by omega) hfits (fun hg => (hadmits hg).1)
      fun scopes own total cells size noted hown hafter hsize htotal => ?_
    rw [← hmore]
    refine .pure <| ih (by omega) (by omega) (fun hg => (hafter hg).2) (fun hg => (hadmits hg).2)
      fun scopes' own' total' cells' size' noted' hown' hafter' hsize' htotal' => ?_
    exact h (bind_eq_some_of hown (bind_eq_some_of hown' rfl))
      (fun hg => ⟨by simp [(hafter hg).1, (hafter' hg).1, cellCount], (hafter' hg).2⟩)
      (by rw [hsize', hsize]; simp; omega) (by simp [htotal, htotal'])

theorem secures_declaration {declaration : Declaration} (hlimit : declaration.labels.length ≤ limit)
    (hfits : granted → site.Fits st.scopes)
    (hadmits : granted → site.Admits (declaration.first :: declaration.rest))
    (h : (site.declareAll (declaration.first :: declaration.rest)).Continues granted
      (declared? st.scopes (declaration.first :: declaration.rest))
      (cellCount (declaration.first :: declaration.rest)) 0 lines m st rest post) :
    Secures (Blames granted) (Generate.declaration limit)
      ⟨declaration.labels ++ rest, lines, noted, m, st⟩ post := by
  have hcount : declaration.rest.length ≤ (declaratorLabels declaration.rest).length :=
    length_le_length_flatMap (fun _ => cons_ne_nil _ _) declaration.rest
  simp only [Declaration.labels, length_cons, length_append] at hlimit
  simp only [Declaration.labels, cons_append, append_assoc, nil_append]
  obtain ⟨next, more, hmore, hnext⟩ := exists_head_declaratorLabels declaration.rest rest
  refine .bind <| .enter [_] <| .bind ?_
  rw [hmore]
  refine secures_declarator hnext (by omega) hfits (fun hg => (hadmits hg).1)
    fun scopes own total cells size noted hown hafter hsize htotal => ?_
  rw [← hmore]
  refine .bind <| secures_furtherDeclarators (by omega) (by omega) (fun hg => (hafter hg).2)
    (fun hg => (hadmits hg).2)
    fun scopes' own' total' cells' size' noted' hown' hafter' hsize' htotal' => .bind <|
      .shift [_] <| .pure ?_
  exact h (bind_eq_some_of hown (bind_eq_some_of hown' rfl))
    (fun hg => ⟨by simp [(hafter hg).1, (hafter' hg).1, cellCount], (hafter' hg).2⟩)
    (by rw [hsize', hsize]; simp) (by simp [htotal, htotal'])

theorem secures_furtherDeclarations {declarations : List Declaration} {start : Int}
    (hnext : next ≠ .rule .declaration)
    (hlimit : (declarations.flatMap Declaration.labels).length ≤ limit)
    (hcount : declarations.length ≤ count) (hfits : granted → site.Fits st.scopes)
    (hadmits : granted → site.Admits (declarators declarations))
    (h : (site.declareAll (declarators declarations)).Continues granted
      (declared? st.scopes (declarators declarations)) (cellCount (declarators declarations)) start
      lines m st (next :: rest) post) :
    Secures (Blames granted)
      (repeatWhile (atRule? .declaration) (fun size => return size + (← declaration limit))
      count start)
      ⟨declarations.flatMap Declaration.labels ++ next :: rest, lines, noted, m, st⟩ post := by
  induction declarations generalizing start count site lines noted st with
  | nil =>
    exact .repeatWhile_stop (.atRule ⟨by simpa using hnext, rfl⟩) <|
      h rfl (fun hg => ⟨rfl, hfits hg⟩) (by simp) (by simp)
  | cons declaration declarations ih =>
    have hcons : declarators (declaration :: declarations)
        = (declaration.first :: declaration.rest) ++ declarators declarations := by
      simp [declarators]
    rw [hcons, declared?_append, cellCount_append, Site.declareAll_append] at h
    simp only [hcons, Site.admits_append] at hadmits
    rw [flatMap_cons, length_append] at hlimit
    rw [flatMap_cons, append_assoc]
    rw [length_cons] at hcount
    obtain ⟨count, rfl⟩ : ∃ less, count = less + 1 := ⟨count - 1, by omega⟩
    refine .repeatWhile_go (.atRule ⟨rfl, rfl⟩) <| .bind <|
      secures_declaration (by omega) hfits (fun hg => (hadmits hg).1)
      fun scopes own total cells size noted hown hafter hsize htotal => .pure <|
      ih (by omega) (by omega) (fun hg => (hafter hg).2) (fun hg => (hadmits hg).2)
      fun scopes' own' total' cells' size' noted' hown' hafter' hsize' htotal' => ?_
    exact h (bind_eq_some_of hown (Option.map_eq_some_iff.2 ⟨_, hown', rfl⟩))
      (fun hg => ⟨by simp [(hafter hg).1, (hafter' hg).1], (hafter' hg).2⟩)
      (by rw [hsize', hsize]; simp; omega) (by simp [htotal, htotal'])

/-- **Declarations are written, or the program is rejected.** -/
theorem secures_declarations {declarations : List Declaration} (hnext : next ≠ .rule .declaration)
    (hlimit : (declarationsLabels declarations).length ≤ limit)
    (hfits : granted → site.Fits st.scopes)
    (hadmits : granted → site.Admits (declarators declarations))
    (h : (site.declareAll (declarators declarations)).Continues granted
      (declared? st.scopes (declarators declarations)) (cellCount (declarators declarations)) 0
      lines m st (next :: rest) post) :
    Secures (Blames granted) (Generate.declarations limit)
      ⟨declarationsLabels declarations ++ next :: rest, lines, noted, m, st⟩ post := by
  have hcount : declarations.length ≤ (declarations.flatMap Declaration.labels).length :=
    length_le_length_flatMap (fun _ => cons_ne_nil _ _) declarations
  rw [declarationsLabels, length_cons] at hlimit
  rw [declarationsLabels, cons_append]
  have hmore : ∀ noted, Secures (Blames granted) (repeatWhile (atRule? .declaration)
      (fun size => return size + (← declaration limit)) limit 0)
      ⟨declarations.flatMap Declaration.labels ++ next :: rest, lines, noted, m, st⟩ post :=
        fun _ =>
    secures_furtherDeclarations hnext (by omega) (by omega) hfits hadmits h
  refine .bind <| .enter [] ?_
  cases declarations with
  | nil => exact .bind <| .atRule <| .ifPos (by simpa using hnext) <| .bind <| .warn hmore
  | cons declaration declarations => exact .bind <| .atRule <| .ifNeg (by decide) (hmore noted)

end Generate

end ScoreLang
