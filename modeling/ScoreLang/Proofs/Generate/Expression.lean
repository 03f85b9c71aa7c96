import ScoreLang.Proofs.Code.Expression
import ScoreLang.Proofs.Generate.Logic
import ScoreLang.Proofs.Generate.Names

/-!
# The Walk through Expressions

The generator writes the code of an expression and walks past it. If there is no code, it fails, and
the program is at fault as long as the names in the expression are known. Both hold for every
expression, wherever it stands in the tree.
-/

namespace ScoreLang

open List Text

/-! ### What follows an expression -/

namespace Label

/-- Whether an operand ends before a label: a bracket would belong to it. -/
def endsFactor (label : Label) : Bool := label != .word "["

/-- Whether a product ends before a label. -/
def endsProduct (label : Label) : Bool := label.endsFactor && !(["*", "/"].contains label.text)

/-- Whether a sum ends before a label. -/
def endsSum (label : Label) : Bool := label.endsProduct && !(["+", "-"].contains label.text)

/-- Whether an expression ends before a label. -/
def endsExpr (label : Label) : Bool := label.endsSum && !Kind.opensLogic label.text

theorem endsSum_of_endsExpr {label : Label} (h : label.endsExpr = true) :
    label.endsSum = true := (Bool.and_eq_true_iff.1 h).1

end Label

/-! ### Faults -/

/-- The faults of an expression without code are among given ones. -/
def Expr.FaultsIn (err : CodeFault → Prop) (scopes : Scopes) {level : Level} (e : Expr level) :
    Prop :=
  ∀ fault, e.code scopes = none → (scopes.Covers e.uses → fault.IsError) → err fault

/-- The faults of a part are faults of the whole. -/
theorem Expr.FaultsIn.sub {err : CodeFault → Prop} {scopes : Scopes} {inner outer : Level}
    {whole : Expr outer} {part : Expr inner} (h : whole.FaultsIn err scopes)
    (hcode : part.code scopes = none → whole.code scopes = none)
    (huses : scopes.Covers whole.uses → scopes.Covers part.uses) : part.FaultsIn err scopes :=
  fun fault hnone hcovers => h fault (hcode hnone) fun hwhole => hcovers (huses hwhole)

namespace Generate

open Generator

variable {err : CodeFault → Prop} {next : Label} {rest : List Label} {lines : List CodeLine}
  {noted : List (Nat × Warning)} {m : Marks} {st : Generator}

/-! ### Variables -/

/-- The place of an element is found by its index. -/
theorem secures_elementPlace {target : Reference} {found : Entry} {post : Int → View → Prop}
    (hnext : next ≠ .word "[")
    (hfail : ∀ fault, found.offset? target.index = none →
      (found.Sound → found.category ≠ .function → target.Short → fault.IsError) → err fault)
    (h : ∀ place, found.offset? target.index = some place →
      post place ⟨next :: rest, lines, noted, m, st⟩) :
    Secures err (elementPlace target.name found)
      ⟨target.labels.drop 2 ++ next :: rest, lines, noted, m, st⟩ post := by
  obtain ⟨name, index⟩ := target
  cases index with
  | none => exact .bind <| .atWord <| .ifNeg (by simpa using hnext) <| .pure (h 0 rfl)
  | some index =>
    refine .bind <| .atWord <| .ifPos rfl <| .bind <| .shift [_] <| .bind <| .argument rfl <|
      .bind <|
      .ofInteger ?_ fun offset hread => .ite (fun hcategory => .bind <| .fail fun error => ?_)
      fun hcategory => .bind <| .part ?_ fun size hsize => .ite (fun hrange => ?_) fun hrange => ?_
    · rintro ⟨fault, hread⟩ other
      refine hfail other (by simp [Entry.offset?, hread]) fun _ _ hshort => ?_
      rw [readInteger_numeral.2 ⟨hshort index rfl, rfl⟩] at hread
      cases hread
    · exact hfail _ (by cases hsize : found.size <;> simp [Entry.offset?, hread, hsize, hcategory])
        fun _ _ _ => ⟨error, rfl⟩
    · intro hsize fault
      refine hfail fault (by simp [Entry.offset?, hread, hsize]) fun hsound hfunction _ => ?_
      obtain ⟨hlabel, -, -⟩ | ⟨-, -, -, -, harray⟩ := hsound
      · exact absurd hlabel hfunction
      · exact absurd (hsize.symm.trans (harray (not_not.1 hcategory))) (by simp)
    · -- the index is out of range; the numbers in the message can be written
      have hnone : found.offset? (some index) = none := by
        simp only [Entry.offset?, hread, hsize]
        exact if_neg fun hlt => absurd hlt.2 (by omega)
      have hwritten : ∀ {value : Int}, value = size - 1 ∨ value = offset →
          (∃ fault, writeInteger value = .error fault) → ∀ fault, err fault := by
        rintro value hvalue ⟨fault, hwrite⟩ other
        refine hfail other hnone fun hsound hfunction hshort => ?_
        obtain ⟨hlabel, -, -⟩ | @⟨cell, count, -, -, hpos, hlimit, harray⟩ := hsound
        · exact absurd hlabel hfunction
        have hcount := Option.some.inj (hsize.symm.trans (harray (not_not.1 hcategory)))
        obtain ⟨hdigits, rfl⟩ := readInteger_numeral.1 hread
        have hindex := Numeral.value_lt hdigits
        have hvalue : ∃ n : Nat, n < writeLimit ∧ value = n := by
          rcases hvalue with rfl | rfl
          · exact ⟨count - 1, by omega, by omega⟩
          · exact ⟨_, hindex, rfl⟩
        obtain ⟨n, hn, rfl⟩ := hvalue
        rw [writeInteger_of_lt hn] at hwrite
        cases hwrite
      exact .bind <| .ofInteger (hwritten (.inl rfl)) fun _ _ => .bind <|
        .ofInteger (hwritten (.inr rfl)) fun _ _ => .bind <| .fail fun error =>
          hfail _ hnone fun _ _ _ => ⟨error, rfl⟩
    · refine .bind <| .shift [_, _] <| .pure (h offset ?_)
      simp only [Entry.offset?, hread, hsize]
      exact if_pos ⟨not_not.1 hcategory, by omega⟩

/-- The cell of a variable is found. -/
theorem secures_cellOf {target : Reference} {post : String → View → Prop} (hnext : next ≠ .word "[")
    (hfail : ∀ fault, target.cell? st.scopes = none →
      (st.scopes.Sound → (Use.variable target).Known st.scopes → fault.IsError) → err fault)
    (h : ∀ cell, target.cell? st.scopes = some cell → post cell ⟨next :: rest, lines, noted,
    m, st⟩) :
    Secures err cellOf ⟨target.labels ++ next :: rest, lines, noted, m, st⟩ post := by
  have hlabels : target.labels = [.rule .variable, .name target.name] ++ target.labels.drop 2 := by
    obtain ⟨name, index⟩ := target
    cases index <;> rfl
  rw [hlabels]
  refine .bind <| .enter [] <| .bind <| .argument rfl <| .bind <|
    .pass [] ?_ (beginsWith_name target.name)
  refine .bind <| .entry (fun hnone fault => ?_) fun found hfound => .bind <|
    .cellAfter (fun hnone fault => ?_) fun start hstart => .bind <|
    secures_elementPlace hnext (fun fault hnone hfaults => ?_) fun place hplace => ?_
  · refine hfail fault (by simp [Reference.cell?, hnone]) ?_
    rintro - ⟨-, found, hfound, -⟩
    exact absurd (hnone.symm.trans hfound) (by simp)
  · have hlabel : ∀ offset, found.address.moved? offset = none := by
      cases haddress : found.address <;> simp_all [Address.moved?]
    refine hfail fault ?_ ?_
    · cases hoffset : found.offset? target.index <;> simp [Reference.cell?, hfound, hoffset, hlabel]
    · rintro hsound ⟨-, entry, hentry, hcategory⟩
      obtain rfl := Option.some.inj (hfound.symm.trans hentry)
      obtain ⟨moved, -, hmoved, -⟩ :=
        (hsound.find? hfound).exists_text? hcategory (rfl : found.offset? none = some 0)
      exact absurd (hnone.symm.trans hmoved) (by simp)
  · refine hfail fault (by simp [Reference.cell?, hfound, hnone]) ?_
    rintro hsound ⟨hshort, entry, hentry, hcategory⟩
    obtain rfl := Option.some.inj (hfound.symm.trans hentry)
    exact hfaults (hsound.find? hfound) hcategory hshort
  · obtain rfl : start = found.address := by
      cases haddress : found.address <;> simp_all [Address.moved?]
    have hcell : target.cell? st.scopes = (found.address.moved? place).bind Address.text? := by
      simp [Reference.cell?, hfound, hplace]
    have hnone : target.cell? st.scopes = none → ∀ fault, err fault := by
      refine fun hnone fault => hfail fault hnone ?_
      rintro hsound ⟨-, entry, hentry, hcategory⟩
      obtain rfl := Option.some.inj (hfound.symm.trans hentry)
      obtain ⟨moved, text, hmoved, htext⟩ := (hsound.find? hfound).exists_text? hcategory hplace
      rw [hcell, hmoved, Option.bind_some, htext] at hnone
      cases hnone
    exact .bind <| .cellAfter (fun hmoved => hnone (by rw [hcell, hmoved]; rfl)) fun moved hmoved =>
      .addressText (fun htext => hnone (by rw [hcell, hmoved]; exact htext)) fun text htext =>
        h text (by rw [hcell, hmoved]; exact htext)

/-! ### Chains -/

/-- A chain of operands is at its end. -/
theorem secures_further_stop {signs : List String} {operand : Generate Unit} {limit : Nat}
    {post : Unit → View → Prop} (hnext : signs.contains next.text = false)
    (h : post () ⟨next :: rest, lines, noted, m, st⟩) :
    Secures err (further signs operand limit) ⟨next :: rest, lines, noted, m, st⟩ post :=
  .repeatWhile_stop (.bind <| .label <| .pure ⟨hnext, rfl⟩) h

theorem secures_operate {up : List Label} {sign : String} {operation : Operation}
    {post : Unit → View → Prop} (hsign : Operation.ofSign? sign = some operation)
    (h : post () ⟨up, lines ++ [operation.line ""], noted, m, st⟩) :
    Secures err (operate sign) ⟨up, lines, noted, m, st⟩ post := by
  rw [operate, hsign]
  exact .act h

/-- The action, whose parameters bound the depth and the length of what it walks through, writes the
code of an expression and walks past it, provided that the label after it is of the right kind. -/
def Crosses (action : Nat → Nat → Generate Unit) (ends : Label → Bool) {level : Level}
    (e : Expr level) : Prop :=
  ∀ ⦃depth limit : Nat⦄ ⦃next : Label⦄ ⦃rest : List Label⦄ ⦃lines : List CodeLine⦄
    ⦃noted : List (Nat × Warning)⦄ ⦃m : Marks⦄ ⦃st : Generator⦄ ⦃err : CodeFault → Prop⦄
    ⦃post : Unit → View → Prop⦄, ends next = true → e.labels.length ≤ depth → depth ≤ limit →
    e.FaultsIn err st.scopes →
    (∀ own, e.code st.scopes = some own → post () ⟨next :: rest, lines ++ own, noted, m, st⟩) →
    Secures err (action depth limit) ⟨e.labels ++ next :: rest, lines, noted, m, st⟩ post

/-- The same for a chain of operands, whatever follows the expression in the chain. -/
def CrossesChain (operand : Nat → Nat → Generate Unit) (ends : Label → Bool) (signs : List String)
    {level : Level} (e : Expr level) : Prop :=
  ∀ ⦃depth limit : Nat⦄ ⦃next : Label⦄ ⦃rest : List Label⦄ ⦃lines : List CodeLine⦄
    ⦃noted : List (Nat × Warning)⦄ ⦃m : Marks⦄ ⦃st : Generator⦄ ⦃err : CodeFault → Prop⦄
    ⦃post : Unit → View → Prop⦄, ends next = true → e.inside.length ≤ depth → depth ≤ limit →
    e.FaultsIn err st.scopes →
    (∀ rounds own, limit ≤ rounds + e.inside.length → e.code st.scopes = some own →
      Secures err (further signs (operand depth limit) rounds)
        ⟨next :: rest, lines ++ own, noted, m, st⟩ post) →
    Secures err (joined signs (operand depth limit) limit)
      ⟨e.inside ++ next :: rest, lines, noted, m, st⟩ post

section Chains

variable {operand : Nat → Nat → Generate Unit} {ends : Label → Bool} {signs : List String}
  {inner outer : Level}

theorem crossesChain_single {only : Expr inner} {e : Expr outer} (honly : Crosses operand ends only)
    (hinside : e.inside = only.labels) (hcode : ∀ scopes, e.code scopes = only.code scopes)
    (huses : e.uses = only.uses) : CrossesChain operand ends signs e := by
  intro depth limit next rest lines noted m st err post hnext hdepth hlimit hfail hrest
  rw [hinside] at hdepth ⊢
  refine .bind <| honly hnext hdepth hlimit (hfail.sub (hcode _).trans fun h => huses ▸ h)
    fun own hown => hrest limit own (Nat.le_add_right _ _) ((hcode _).trans hown)

theorem crossesChain_more {left e : Expr outer} {right : Expr inner} {sign : String}
    {operation : Operation} (hleft : CrossesChain operand ends signs left)
    (hright : Crosses operand ends right)
    (hinside : e.inside = left.inside ++ .word sign :: right.labels)
    (hcode : ∀ scopes, e.code scopes = (left.code scopes).bind fun first =>
      (right.code scopes).bind fun second => some (first ++ second ++ [operation.line ""]))
    (hmem : signs.contains sign = true) (hsign : Operation.ofSign? sign = some operation)
    (hword : ends (.word sign) = true) (huses : e.uses = left.uses ++ right.uses) :
    CrossesChain operand ends signs e := by
  intro depth limit next rest lines noted m st err post hnext hdepth hlimit hfail hrest
  have hlength : e.inside.length = left.inside.length + (right.labels.length + 1) := by
    rw [hinside, length_append, length_cons]
  rw [hinside, append_assoc]
  refine hleft hword (by omega) hlimit
    (hfail.sub (fun hnone => by rw [hcode, hnone]; rfl) fun h => (huses ▸ h).left)
    fun rounds first hrounds hfirst => ?_
  obtain ⟨rounds, rfl⟩ : ∃ n, rounds = n + 1 := ⟨rounds - 1, by omega⟩
  refine .repeatWhile_go (.bind <| .label <| .pure ⟨hmem, rfl⟩) <| .bind <| .label <| .bind <|
    .shift [_] <| .bind <| hright hnext (by omega) hlimit
      (hfail.sub (fun hnone => by rw [hcode, hfirst, hnone]; rfl) fun h => (huses ▸ h).right)
      fun second hsecond => secures_operate hsign ?_
  rw [append_assoc, append_assoc, ← append_assoc first]
  exact hrest rounds _ (by omega) (by rw [hcode, hfirst, hsecond]; rfl)

theorem crosses_chain {e : Expr outer} {last : Label → Bool} (hchain : CrossesChain operand ends
    signs e)
    (hends : ∀ next, last next = true → ends next = true ∧ signs.contains next.text = false) :
    Crosses (fun depth limit => do
      enter outer.rule 1
      joined signs (operand depth limit) limit) last e := by
  intro depth limit next rest lines noted m st err post hnext hdepth hlimit hfail h
  obtain ⟨hnext, hsign⟩ := hends next hnext
  exact .bind <| .enter [] <| hchain hnext (Nat.le_of_succ_le hdepth) hlimit hfail
    fun _ own _ hown => secures_further_stop hsign (h own hown)

end Chains

/-! ### Operands -/

theorem beginsWith_number (digits : String) : (Label.number digits).beginsWith "NUM" = true := by
  simp [Label.beginsWith, Label.text, Label.numberMark, String.toList_append]

theorem crosses_number (value : Numeral) :
    Crosses (fun depth limit => factor (expression depth) limit) Label.endsFactor
    (.number value) := by
  intro depth limit next rest lines noted m st err post _ _ _ _ h
  rw [Expr.labels, Expr.inside_number]
  exact .bind <| .enter [] <| .bind <| .label <| .ifNeg (by simp) <| .ifPos (beginsWith_number _) <|
    .bind <| .argument rfl <| .bind <| .perform <| .shift [_] <| h _ rfl

/-- A variable is loaded. -/
theorem secures_variable {expression : Generate Unit} {limit : Nat} {target : Reference}
    {post : Unit → View → Prop} (hnext : next ≠ .word "[")
    (hfail : ∀ fault, target.cell? st.scopes = none →
      (st.scopes.Sound → (Use.variable target).Known st.scopes → fault.IsError) → err fault)
    (h : ∀ cell, target.cell? st.scopes = some cell →
      post () ⟨next :: rest, lines ++ [Operation.load.line cell], noted, m, st⟩) :
    Secures err (factor expression limit)
      ⟨.rule .factor :: target.labels ++ next :: rest, lines, noted, m, st⟩ post :=
  .bind <| .enter [] <| .bind <| .label <| .ifNeg (by simp) <| .ifNeg (by decide) <|
    .ifNeg (by simp) <| .ifPos rfl <| .bind <| secures_cellOf hnext hfail fun cell hcell =>
      .perform (h cell hcell)

theorem crosses_variable (target : Reference) :
    Crosses (fun depth limit => factor (expression depth) limit) Label.endsFactor
      (.variable target) := by
  intro depth limit next rest lines noted m st err post hnext _ _ hfail h
  rw [Expr.labels, Expr.inside_variable]
  exact secures_variable (by simpa [Label.endsFactor] using hnext)
    (fun fault hnone hfaults => hfail fault (by simp [Expr.code, hnone]) fun hcovers =>
      hfaults hcovers.sound hcovers.head) fun cell hcell => h _ (by simp [Expr.code, hcell])

theorem crosses_group {inner : Expr .expression}
    (hinner : Crosses (fun depth _ => expression depth) Label.endsExpr inner) :
    Crosses (fun depth limit => factor (expression depth) limit) Label.endsFactor
      (.group inner) := by
  intro depth limit next rest lines noted m st err post _ hdepth hlimit hfail h
  rw [Expr.labels, Expr.inside_group] at hdepth ⊢
  simp only [length_append, length_cons] at hdepth
  simp only [cons_append, append_assoc, nil_append]
  exact .bind <| .enter [] <| .bind <| .label <| .ifPos rfl <| .bind <| .shift [_] <| .bind <|
    hinner rfl (by omega) hlimit hfail fun own hown => .pass [] (h own hown) (by decide)

/-! ### Calls -/

theorem callee?_eq_some {scopes : Scopes} {name target : String} {count : Nat} :
    callee? scopes name count = some target ↔
      ∃ found, scopes.find? name = some found ∧ found.category = .function ∧
        found.size = some (count : Int) ∧ count ≤ maxArguments ∧ found.address.text? = some
        target := by
  simp only [callee?, bind_eq_some]
  refine exists_congr fun found => and_congr_right fun _ => ?_
  split
  · simp_all
  · simp only [reduceCtorEq, false_iff]
    rintro ⟨hcategory, hsize, hcount, -⟩
    simp_all

/-- A call is written if what stands in the parentheses is, and if the number of arguments is that
of the parameters. -/
theorem secures_call {expression : Generate Unit} {limit : Nat} {name : String}
    {post : Unit → View → Prop} (given : List Label) (code : Option (List CodeLine)) (count : Nat)
    (hfail : ∀ fault, callee? st.scopes name count = none →
      (st.scopes.Sound → (Use.call name).Known st.scopes → fault.IsError) → err fault)
    (hgiven : ∀ {post : Unit → View → Prop} (parameters : Int),
      (parameters ≠ count ∨ maxArguments < count → ∀ error, err (.error error)) →
      (∀ own, code = some own → parameters = count → count ≤ maxArguments →
        post () ⟨.word ")" :: rest, lines ++ own, noted, m, st⟩) →
      Secures err (givenArguments expression limit parameters)
        ⟨given ++ .word ")" :: rest, lines, noted, m, st⟩ post)
    (h : ∀ own label, code = some own → callee? st.scopes name count = some label →
      post () ⟨rest, lines ++ own ++ [Operation.call.line label], noted, m, st⟩) :
    Secures err (call expression limit)
      ⟨.rule .call :: .word "call" :: .name name :: .word "(" :: (given ++ .word ")" ::
      rest), lines,
        noted, m, st⟩ post := by
  refine .bind <| .enter [_] <| .bind <| .argument rfl <| .bind <|
    .entry (fun hentry fault => ?_) fun found hfound => ?_
  · refine hfail fault (by simp [callee?, hentry]) ?_
    rintro - ⟨found, hfound⟩
    exact absurd (hentry.symm.trans hfound) (by simp)
  -- there is no label unless all that is asked of the entry holds
  have hcallee : ∀ target, callee? st.scopes name count = some target → found.category = .function ∧
      found.size = some (count : Int) ∧ count ≤ maxArguments ∧ found.address.text? = some
      target := by
    intro target htarget
    obtain ⟨other, hother, hasked⟩ := callee?_eq_some.1 htarget
    obtain rfl := Option.some.inj (hother.symm.trans hfound)
    exact hasked
  refine .ite (fun hcategory => .bind <| .fail fun error => ?_) fun hcategory => .bind <|
    .part (fun hsize fault => ?_) fun parameters hsize => .bind <| .shift [_, _] <| .bind <|
    hgiven parameters (fun hcount error => ?_) fun own hown hcount hmost => .bind <|
    .pass [] (.bind <| .addressText (fun htext fault => ?_) fun text htext => .perform ?_)
      (by decide)
  · refine hfail _ (Option.eq_none_iff_forall_ne_some.2 fun target htarget => ?_)
      fun _ _ => ⟨error, rfl⟩
    exact hcategory (hcallee target htarget).1
  · refine hfail fault (Option.eq_none_iff_forall_ne_some.2 fun target htarget => ?_) fun hsound
      _ => ?_
    · exact absurd (hsize.symm.trans (hcallee target htarget).2.1) (by simp)
    · obtain ⟨-, -, hsome⟩ | ⟨hother, -, -, -, -⟩ := hsound.find? hfound
      · exact absurd (hsize.symm.trans hsome) (by simp)
      · exact absurd (not_not.1 hcategory) hother
  · refine hfail _ (Option.eq_none_iff_forall_ne_some.2 fun target htarget => ?_)
      fun _ _ => ⟨error, rfl⟩
    obtain ⟨-, hcall, hmost, -⟩ := hcallee target htarget
    rcases hcount with hcount | hcount
    · exact hcount (Option.some.inj (hsize.symm.trans hcall))
    · omega
  · refine hfail fault (Option.eq_none_iff_forall_ne_some.2 fun target htarget => ?_) fun hsound
      _ => ?_
    · exact absurd (htext.symm.trans (hcallee target htarget).2.2.2) (by simp)
    · obtain ⟨-, haddress, -⟩ | ⟨hother, -, -, -, -⟩ := hsound.find? hfound
      · rw [haddress] at htext
        cases htext
      · exact absurd (not_not.1 hcategory) hother
  · exact h own text hown (callee?_eq_some.2
      ⟨found, hfound, not_not.1 hcategory, by rw [hsize, hcount], hmost, htext⟩)

theorem crosses_plainCall (name : String) :
    Crosses (fun depth limit => factor (expression depth) limit) Label.endsFactor
      (.plainCall name) := by
  intro depth limit next rest lines noted m st err post _ _ _ hfail h
  rw [Expr.labels, Expr.inside_plainCall]
  refine .bind <| .enter [] <| .bind <| .label <| .ifNeg (by simp) <| .ifNeg (by decide) <|
    .ifPos rfl <| secures_call [] (some []) 0
      (fun fault hnone hfaults => hfail fault (by simp [Expr.code, hnone]) fun hcovers =>
        hfaults hcovers.sound hcovers.head)
      (fun parameters herr hpost => .bind <| .atWord <| .ifPos rfl <|
        .ite (fun hcount => .fail (herr (.inl hcount))) fun hcount => .pure ?_)
      fun own label hown hlabel => ?_
  · simpa using hpost [] rfl (not_not.1 hcount) (Nat.zero_le _)
  · obtain rfl := Option.some.inj hown
    rw [append_nil]
    exact h _ (by simp [Expr.code, hlabel])

/-- The arguments of a call are written, whatever follows them. -/
def CrossesArguments (e : Expr .arguments) : Prop :=
  ∀ ⦃depth limit : Nat⦄ ⦃next : Label⦄ ⦃rest : List Label⦄ ⦃lines : List CodeLine⦄
    ⦃noted : List (Nat × Warning)⦄ ⦃m : Marks⦄ ⦃st : Generator⦄ ⦃err : CodeFault → Prop⦄
    ⦃post : Nat → View → Prop⦄, next.endsExpr = true → e.inside.length ≤ depth → depth ≤ limit →
    e.FaultsIn err st.scopes →
    (∀ rounds own, limit ≤ rounds + e.inside.length → e.code st.scopes = some own →
      Secures err (furtherArguments (expression depth) rounds e.count)
        ⟨next :: rest, lines ++ own, noted, m, st⟩ post) →
    Secures err (expression depth) ⟨e.inside ++ next :: rest, lines, noted, m, st⟩ fun _ w =>
      Secures err (furtherArguments (expression depth) limit 1) w post

theorem crossesArguments_argument {only : Expr .expression}
    (honly : Crosses (fun depth _ => expression depth) Label.endsExpr only) :
    CrossesArguments (.argument only) := by
  intro depth limit next rest lines noted m st err post hnext hdepth hlimit hfail hrest
  rw [Expr.inside_argument] at hdepth ⊢
  exact honly hnext hdepth hlimit hfail fun own hown => hrest limit own (Nat.le_add_right _ _) hown

theorem crossesArguments_further {before : Expr .arguments} {last : Expr .expression}
    (hbefore : CrossesArguments before)
    (hlast : Crosses (fun depth _ => expression depth) Label.endsExpr last) :
    CrossesArguments (.further before last) := by
  intro depth limit next rest lines noted m st err post hnext hdepth hlimit hfail hrest
  have hlength : (Expr.further before last).inside.length
      = before.inside.length + (last.labels.length + 1) := by
    rw [Expr.inside_further, length_append, length_cons]
  rw [Expr.inside_further, append_assoc]
  refine hbefore rfl (by omega) hlimit
    (hfail.sub (fun hnone => by simp [Expr.code, hnone]) Scopes.Covers.left)
    fun rounds first hrounds hfirst => ?_
  obtain ⟨rounds, rfl⟩ : ∃ n, rounds = n + 1 := ⟨rounds - 1, by omega⟩
  refine .repeatWhile_go (.atWord ⟨rfl, rfl⟩) <| .bind <| .shift [_] <| .bind <|
    hlast hnext (by omega) hlimit
      (hfail.sub (fun hnone => by simp [Expr.code, hfirst, hnone]) Scopes.Covers.right)
      fun second hsecond => .pure ?_
  rw [append_assoc]
  exact hrest rounds _ (by omega) (by simp [Expr.code, hfirst, hsecond])

theorem crosses_call {given : Expr .arguments} (name : String) (hgiven : CrossesArguments given) :
    Crosses (fun depth limit => factor (expression depth) limit) Label.endsFactor
      (.call name given) := by
  intro depth limit next rest lines noted m st err post _ hdepth hlimit hfail h
  rw [Expr.labels, Expr.inside_call] at hdepth ⊢
  simp only [Expr.labels, length_append, length_cons] at hdepth
  simp only [cons_append, append_assoc, nil_append]
  refine .bind <| .enter [] <| .bind <| .label <| .ifNeg (by simp) <| .ifNeg (by decide) <|
    .ifPos rfl <| secures_call _ (given.code st.scopes) given.count
      (fun fault hnone hfaults => hfail fault ?_ fun hcovers => hfaults hcovers.sound hcovers.head)
      (fun parameters herr hpost => .bind <| .atWord <| .ifNeg (by decide) <| .bind <| .enter [] <|
        .bind <| (hgiven rfl (by omega) hlimit ?_ fun rounds own _ hown => ?_).imp fun _ _ h =>
        .bind h)
      fun own label hown hlabel => ?_
  · cases hcode : given.code st.scopes <;> simp [Expr.code, hcode, hnone]
  · rw [append_assoc]
    exact h _ (by simp [Expr.code, hown, hlabel])
  · exact hfail.sub (fun hnone => by simp [Expr.code, hnone]) Scopes.Covers.tail
  · refine .repeatWhile_stop (.atWord ⟨rfl, rfl⟩) <| .ite (fun hcount => .fail (herr hcount))
      fun hcount => .pure ?_
    obtain ⟨hcount, hmost⟩ := not_or.1 hcount
    exact hpost own hown (not_not.1 hcount) (Nat.le_of_not_lt hmost)

/-! ### Whole expressions -/

theorem crosses_sum {only : Expr .sum}
    (honly : Crosses (fun depth limit => sum (expression depth) limit) Label.endsSum only) :
    Crosses (fun depth limit => logical (expression depth) limit) Label.endsExpr (.sum only) := by
  intro depth limit next rest lines noted m st err post hnext hdepth hlimit hfail h
  have hlogic : Kind.opensLogic next.text = false := by
    simpa using (Bool.and_eq_true_iff.1 hnext).2
  rw [Expr.labels, Expr.inside_sum] at hdepth ⊢
  exact .bind <| .enter [] <| .bind <|
    honly (Label.endsSum_of_endsExpr hnext) (Nat.le_of_succ_le hdepth) hlimit hfail fun own hown =>
      .bind <| .label <| .ifNeg (by simp [hlogic]) <| .pure (h own hown)

theorem crosses_compare {left right : Expr .sum} (sign : LogicSign)
    (hleft : Crosses (fun depth limit => sum (expression depth) limit) Label.endsSum left)
    (hright : Crosses (fun depth limit => sum (expression depth) limit) Label.endsSum right) :
    Crosses (fun depth limit => logical (expression depth) limit) Label.endsExpr
      (.compare left sign right) := by
  intro depth limit next rest lines noted m st err post hnext hdepth hlimit hfail h
  have hword : (Label.word sign.text).endsSum = true := by cases sign <;> decide
  have hlogic : Kind.opensLogic sign.text = true := by cases sign <;> decide
  have hsign : Operation.ofSign? sign.text = some sign.operation := by cases sign <;> rfl
  rw [Expr.labels, Expr.inside_compare] at hdepth ⊢
  simp only [length_append, length_cons] at hdepth
  simp only [cons_append, append_assoc]
  refine .bind <| .enter [] <| .bind <| hleft hword (by omega) hlimit
    (hfail.sub (fun hnone => by simp [Expr.code, hnone]) Scopes.Covers.left) fun first hfirst =>
    .bind <| .label <| .ifPos hlogic <| .bind <| .shift [_] <| .bind <|
    hright (Label.endsSum_of_endsExpr hnext) (by omega) hlimit
      (hfail.sub (fun hnone => by simp [Expr.code, hfirst, hnone]) Scopes.Covers.right)
      fun second hsecond => secures_operate hsign ?_
  rw [append_assoc, append_assoc]
  exact h _ (by simp [Expr.code, hfirst, hsecond])

theorem crosses_logical {only : Expr .logical}
    (honly : Crosses (fun depth limit => logical (expression depth) limit) Label.endsExpr only) :
    Crosses (fun depth _ => expression depth) Label.endsExpr (.logical only) := by
  intro depth limit next rest lines noted m st err post hnext hdepth hlimit hfail h
  rw [Expr.labels, Expr.inside_logical] at hdepth ⊢
  obtain ⟨below, rfl⟩ : ∃ n, depth = n + 1 := ⟨depth - 1, by simp at hdepth; omega⟩
  exact .bind <| .enter [] <| .bind <| .atRule <| .ifNeg (by decide) <|
    honly hnext (Nat.le_of_succ_le_succ hdepth) (Nat.le_succ below) hfail h

theorem crosses_assign {value : Expr .logical} (target : Reference)
    (hvalue : Crosses (fun depth limit => logical (expression depth) limit) Label.endsExpr value) :
    Crosses (fun depth _ => expression depth) Label.endsExpr (.assign target value) := by
  intro depth limit next rest lines noted m st err post hnext hdepth hlimit hfail h
  rw [Expr.labels, Expr.inside_assign] at hdepth ⊢
  simp only [length_append, length_cons] at hdepth
  simp only [cons_append, append_assoc]
  obtain ⟨below, rfl⟩ : ∃ n, depth = n + 1 := ⟨depth - 1, by omega⟩
  refine .bind <| .enter [] <| .bind <| .atRule <| .ifPos rfl <| .bind <| secures_cellOf (by decide)
    (fun fault hnone hfaults => hfail fault (by simp [Expr.code, hnone]) fun hcovers =>
      hfaults hcovers.sound hcovers.head) fun cell hcell => .bind <| .atWord <| .ifPos rfl <|
        .bind <|
    .shift [_] <| .bind <| hvalue hnext (by omega) (Nat.le_succ below)
      (hfail.sub (fun hnone => by simp [Expr.code, hcell, hnone]) Scopes.Covers.tail)
      fun own hown => .perform ?_
  rw [append_assoc]
  exact h _ (by simp [Expr.code, hcell, hown])

/-- What holds of the expressions of each level. -/
def CrossesLevel : {level : Level} → Expr level → Prop
  | .factor, e => Crosses (fun depth limit => factor (expression depth) limit) Label.endsFactor e
  | .product, e =>
    CrossesChain (fun depth limit => factor (expression depth) limit) Label.endsFactor ["*", "/"] e
  | .sum, e =>
    CrossesChain (fun depth limit => product (expression depth) limit) Label.endsProduct
      ["+", "-"] e
  | .logical, e => Crosses (fun depth limit => logical (expression depth) limit) Label.endsExpr e
  | .expression, e => Crosses (fun depth _ => expression depth) Label.endsExpr e
  | .arguments, e => CrossesArguments e

theorem crosses_product {e : Expr .product} (h : CrossesLevel e) :
    Crosses (fun depth limit => product (expression depth) limit) Label.endsProduct e :=
  crosses_chain h fun next hnext => by simpa [Label.endsProduct] using hnext

theorem crosses_whole_sum {e : Expr .sum} (h : CrossesLevel e) :
    Crosses (fun depth limit => sum (expression depth) limit) Label.endsSum e :=
  crosses_chain h fun next hnext => by simpa [Label.endsSum] using hnext

theorem crossesLevel : {level : Level} → (e : Expr level) → CrossesLevel e
  | _, .number value => crosses_number value
  | _, .variable target => crosses_variable target
  | _, .group inner => crosses_group (crossesLevel inner)
  | _, .plainCall name => crosses_plainCall name
  | _, .call name given => crosses_call name (crossesLevel given)
  | _, .factor only =>
    crossesChain_single (crossesLevel only) (Expr.inside_factor only) (fun _ => rfl) rfl
  | _, .times left sign right =>
    crossesChain_more (crossesLevel left) (crossesLevel right) (Expr.inside_times left sign right)
      (fun _ => rfl) (by cases sign <;> decide) (by cases sign <;> rfl)
      (by cases sign <;> decide) rfl
  | _, .product only =>
    crossesChain_single (crosses_product (crossesLevel only)) (Expr.inside_product only)
      (fun _ => rfl) rfl
  | _, .plus left sign right =>
    crossesChain_more (crossesLevel left) (crosses_product (crossesLevel right))
      (Expr.inside_plus left sign right) (fun _ => rfl) (by cases sign <;> decide)
      (by cases sign <;> rfl) (by cases sign <;> decide) rfl
  | _, .sum only => crosses_sum (crosses_whole_sum (crossesLevel only))
  | _, .compare left sign right =>
    crosses_compare sign (crosses_whole_sum (crossesLevel left))
      (crosses_whole_sum (crossesLevel right))
  | _, .logical only => crosses_logical (crossesLevel only)
  | _, .assign target value => crosses_assign target (crossesLevel value)
  | _, .argument only => crossesArguments_argument (crossesLevel only)
  | _, .further before last => crossesArguments_further (crossesLevel before) (crossesLevel last)

/-! ### What the walk knows of expressions -/

section Granted

variable {granted : Prop} {depth : Nat} {post : Unit → View → Prop}

/-- The generator writes the code of an expression, or the program is at fault, as long as the names
are known. -/
theorem secures_expression {e : Expr .expression} (hnext : next.endsExpr = true)
    (hdepth : e.labels.length ≤ depth) (hcovers : granted → st.scopes.Covers e.uses)
    (h : ∀ own, e.code st.scopes = some own → post () ⟨next :: rest, lines ++ own, noted, m, st⟩) :
    Secures (Blames granted) (expression depth) ⟨e.labels ++ next :: rest, lines, noted, m, st⟩
      post :=
  crossesLevel e hnext hdepth (Nat.le_refl depth) (fun _ _ hfaults hg => hfaults (hcovers hg)) h

/-- The same for an expression that is not an assignment. -/
theorem secures_logical {e : Expr .logical} (hnext : next.endsExpr = true)
    (hdepth : e.labels.length ≤ depth) (hcovers : granted → st.scopes.Covers e.uses)
    (h : ∀ own, e.code st.scopes = some own → post () ⟨next :: rest, lines ++ own, noted, m, st⟩) :
    Secures (Blames granted) (logical (expression depth) depth)
      ⟨e.labels ++ next :: rest, lines, noted, m, st⟩ post :=
  crossesLevel e hnext hdepth (Nat.le_refl depth) (fun _ _ hfaults hg => hfaults (hcovers hg)) h

end Granted

/-- The same for the cell of a variable. -/
theorem ends_cellOf {g g' : Generator} {target : Reference} {text : String}
    (hup : g.upcoming = target.labels ++ next :: rest) (hnext : next ≠ .word "[") :
    Ends cellOf g text g' ↔
      target.cell? g.scopes = some text ∧ g' = g.skip target.labels.length := by
  have hiff : Ends cellOf g text g' ↔ ∃ lines, (target.cell? g.scopes = some text ∧ lines = []) ∧
      g' = (g.skip target.labels.length).emitLines lines := by
    refine Secures.ends_iff (fun cell lines => target.cell? g.scopes = some cell ∧ lines = [])
      hup ?_ <| secures_cellOf hnext ?_ fun cell hcell => ⟨[], ⟨hcell, rfl⟩, rfl⟩
    · rintro _ _ _ _ ⟨hfirst, rfl⟩ ⟨hsecond, rfl⟩
      exact ⟨Option.some.inj (hfirst.symm.trans hsecond), rfl⟩
    · exact fun _ hnone _ _ _ hcell => absurd (hnone.symm.trans hcell.1) (by simp)
  simpa [and_assoc] using hiff

/-- The same for a variable that is loaded. -/
theorem ends_factor_variable {g g' : Generator} {target : Reference} {expression : Generate Unit}
    {limit : Nat} (hup : g.upcoming = .rule .factor :: target.labels ++ next :: rest)
    (hnext : next ≠ .word "[") :
    Ends (factor expression limit) g () g' ↔ ∃ text, target.cell? g.scopes = some text ∧
      g' = (g.skip (target.labels.length + 1)).write [Operation.load.line text] := by
  have hiff : Ends (factor expression limit) g () g' ↔ ∃ lines,
      (∃ text, target.cell? g.scopes = some text ∧ lines = [Operation.load.line text]) ∧
      g' = (g.skip (.rule .factor :: target.labels).length).emitLines lines := by
    refine Secures.ends_iff (fun _ lines => ∃ text, target.cell? g.scopes = some text ∧
      lines = [Operation.load.line text]) hup ?_ <|
      secures_variable hnext ?_ fun cell hcell => ⟨_, ⟨cell, hcell, rfl⟩, rfl⟩
    · rintro _ _ _ _ ⟨text, hfirst, rfl⟩ ⟨other, hsecond, rfl⟩
      rw [Option.some.inj (hfirst.symm.trans hsecond)]
      exact ⟨rfl, rfl⟩
    · rintro _ hnone - - _ ⟨text, hcell, -⟩
      exact absurd (hnone.symm.trans hcell) (by simp)
  rw [hiff]
  constructor
  · rintro ⟨_, ⟨text, hcell, rfl⟩, rfl⟩
    exact ⟨text, hcell, rfl⟩
  · rintro ⟨text, hcell, rfl⟩
    exact ⟨_, ⟨text, hcell, rfl⟩, rfl⟩

end Generate

end ScoreLang
