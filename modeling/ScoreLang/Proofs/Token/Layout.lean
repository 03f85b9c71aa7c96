import Mathlib.Data.List.Chain
import ScoreLang.Proofs.Token.Comment

/-!
# The Lexer Inverts the Spelling of Tokens

A text of tokens is laid out by what stands between them: blanks, and comments without others in
them. If every token is followed by a character that ends it, then the lexer finds the tokens
again. The line marks are written where the line ends are, except that the mark of a line end
directly behind a token that waits for its end is written before the token (`itemLines`).

Between two tokens nothing at all need stand, unless their spellings would merge. There is one
exception: a number is lost if a slash or the end of the text stands directly behind it.

## Main results

* `Lexer.feed_items`: what the lexer does with tokens and the text between them;
* `tokenize_itemsText`: the token list of a text of tokens with blanks between them;
* `tokenize_loose_iff`: the token list of a text of tokens that need not have blanks between them.
-/

namespace ScoreLang

open List

/-- A text of tokens, each with some blanks behind it. -/
def itemsText (items : List (Token × List Char)) : List Char :=
  items.flatMap fun item => item.1.spelling.toList ++ item.2

/-- The lines that the lexer writes for a token and the text behind it. -/
def itemLines (item : Token × List Char) : List TokenLine :=
  if item.1.kind.waits = true ∧ item.2.head? = some '\n' then
    .enter :: .token item.1 :: List.replicate (item.2.tail.count '\n') .enter
  else .token item.1 :: List.replicate (item.2.count '\n') .enter

namespace Lexer

/-! ### Between tokens -/

/-- A text that may stand between tokens: blanks, and comments without others in them. -/
inductive Filler : List Char → Prop where
  | nil : Filler []
  | blank {c : Char} {rest : List Char} : IsSeparator c → Filler rest → Filler (c :: rest)
  | comment {body rest : List Char} : ¬ ['*', '/'] <:+: body → ¬ NestedComment body → Filler rest →
      Filler ('/' :: '*' :: (body ++ '*' :: '/' :: rest))

theorem Filler.of_blanks {blanks : List Char} (h : ∀ c ∈ blanks, IsSeparator c) :
    Filler blanks := by
  induction blanks with
  | nil => exact .nil
  | cons c blanks ih =>
    exact .blank (h c mem_cons_self) (ih fun d hd => h d (mem_cons_of_mem _ hd))

theorem step_separator {c : Char} (hc : IsSeparator c) {s : State} (hmode : s.mode = .between) :
    step s c = s.reach .between ([c].count '\n') := by
  obtain ⟨mode, line, written, faults⟩ := s
  obtain rfl : mode = .between := hmode
  rcases hc with rfl | rfl | rfl <;> rfl

theorem feed_filler {gap : List Char} (hgap : Filler gap) {s : State} (hmode : s.mode = .between)
    (rest : List Char) : feed s (gap ++ rest) = feed (s.reach .between (gap.count '\n')) rest := by
  induction hgap generalizing s with
  | nil => rw [nil_append, count_nil, State.reach_zero hmode]
  | @blank c gap hc _ ih =>
    rw [cons_append, feed_cons, step_separator hc hmode, ih rfl, State.reach_reach,
      ← count_append]
    rfl
  | @comment body gap hbody hnested _ ih =>
    have hcount : ('/' :: '*' :: (body ++ '*' :: '/' :: gap)).count '\n' =
        body.count '\n' + gap.count '\n' := by
      simp
    have htext : '/' :: '*' :: (body ++ '*' :: '/' :: gap) ++ rest =
        '/' :: '*' :: (body ++ '*' :: '/' :: (gap ++ rest)) := by
      simp
    rw [htext, feed_comment hbody hmode, if_neg hnested, ih rfl, State.reach_reach, hcount]

/-! ### Tokens and the text between them -/

/-- Every token is followed by a character that ends it; `rest` stands behind the last item. -/
def Apart (rest : List Char) : List (Token × List Char) → Prop
  | [] => True
  | item :: items =>
    item.1.kind.allows ((item.2 ++ (itemsText items ++ rest)).headD '\x00') = true ∧
      Apart rest items

/-- The state behind some tokens and the text between them. -/
def State.after (s : State) (items : List (Token × List Char)) : State :=
  ⟨.between, s.line + (items.flatMap (·.2)).count '\n',
    (items.flatMap itemLines).reverse ++ s.written, s.faults⟩

theorem State.after_nil {s : State} (h : s.mode = .between) : s.after [] = s := by
  obtain ⟨mode, line, written, faults⟩ := s
  obtain rfl : mode = .between := h
  rfl

theorem State.after_cons (s : State) (item : Token × List Char) (items : List (Token × List Char)) :
    s.after (item :: items) = (s.after [item]).after items := by
  simp [State.after, Nat.add_assoc]

end Lexer

variable {c : Char} {token : Token}

/-- The spelling of a token is neither empty nor has a line end in it. -/
theorem Token.Spelled.exists_cons (h : token.Spelled) :
    ∃ c cs, token.spelling.toList = c :: cs ∧ '\n' ∉ c :: cs := by
  obtain ⟨-, ⟨hne, hsolid⟩, -⟩ := h.tidy
  obtain ⟨c, cs, hspelling⟩ :=
    exists_cons_of_ne_nil (show token.spelling.toList ≠ [] by simpa using hne)
  refine ⟨c, cs, hspelling, fun hmem => ?_⟩
  exact absurd (hsolid '\n' (hspelling ▸ hmem)) (by decide)

namespace Lexer

theorem head?_itemsText {items : List (Token × List Char)} (hitems : ∀ item ∈ items, item.1.Spelled)
    {rest : List Char} (hrest : rest.head? ≠ some '\n') :
    (itemsText items ++ rest).head? ≠ some '\n' := by
  cases items with
  | nil => exact hrest
  | cons item items =>
    obtain ⟨c, cs, hspelling, hline⟩ := (hitems item mem_cons_self).exists_cons
    rw [itemsText, flatMap_cons, hspelling]
    rintro hhead
    exact hline (Option.some.inj hhead ▸ mem_cons_self)

/-- **A token and the text behind it.** -/
theorem feed_item {item : Token × List Char} (hspelled : item.1.Spelled) (hgap : Filler item.2)
    {rest : List Char} (hne : rest ≠ []) (hrest : rest.head? ≠ some '\n')
    (hends : item.1.kind.allows ((item.2 ++ rest).headD '\x00') = true) {s : State}
    (hmode : s.mode = .between) :
    feed s (item.1.spelling.toList ++ (item.2 ++ rest)) = feed (s.after [item]) rest := by
  obtain ⟨token, gap⟩ := item
  obtain ⟨c, tail, htail⟩ := exists_cons_of_ne_nil (show gap ++ rest ≠ [] by simp [hne])
  rw [htail, headD_cons] at hends
  rw [htail, feed_token hspelled hmode hends]
  split
  · rename_i hlate
    obtain ⟨hwaits, rfl⟩ := hlate
    -- the line end is the first character of the gap
    cases hgap with
    | nil => exact absurd (congrArg List.head? htail) hrest
    | comment => exact absurd (List.cons.inj htail).1 (by decide)
    | @blank d gap hd hgap =>
      rw [cons_append] at htail
      obtain ⟨rfl, rfl⟩ := List.cons.inj htail
      rw [feed_filler hgap rfl]
      simp [State.after, itemLines, hwaits, State.reach, State.emit, State.enterLine,
        Nat.add_assoc, Nat.add_comm 1]
  · rename_i hprompt
    have hlines : itemLines (token, gap) = .token token :: List.replicate (gap.count '\n')
      .enter := by
      refine if_neg fun hlate => hprompt ⟨hlate.1, ?_⟩
      obtain ⟨gap, rfl⟩ := List.head?_eq_some_iff.1 hlate.2
      exact (List.cons.inj htail).1.symm
    rw [← htail, feed_filler hgap rfl]
    simp [State.after, hlines, State.reach, State.emit]

theorem itemsText_cons (item : Token × List Char) (items : List (Token × List Char))
    (rest : List Char) :
    itemsText (item :: items) ++ rest =
      item.1.spelling.toList ++ (item.2 ++ (itemsText items ++ rest)) := by
  simp [itemsText]

/-- **Tokens and the text between them.** -/
theorem feed_items {items : List (Token × List Char)}
    (hitems : ∀ item ∈ items, item.1.Spelled ∧ Filler item.2) {rest : List Char} (hne : rest ≠ [])
    (hrest : rest.head? ≠ some '\n') (hapart : Apart rest items) {s : State}
    (hmode : s.mode = .between) : feed s (itemsText items ++ rest) = feed (s.after items) rest := by
  induction items generalizing s with
  | nil => rw [State.after_nil hmode]; rfl
  | cons item items ih =>
    have hothers : ∀ other ∈ items, other.1.Spelled ∧ Filler other.2 :=
      fun other hother => hitems other (mem_cons_of_mem _ hother)
    obtain ⟨hspelled, hgap⟩ := hitems item mem_cons_self
    have hhead := head?_itemsText (fun other hother => (hothers other hother).1) hrest
    rw [itemsText_cons, feed_item hspelled hgap (by simp [hne]) hhead hapart.1 hmode,
      ih hothers hapart.2 rfl, ← State.after_cons]

/-- The end of the text behind the tokens. -/
theorem feed_after_nul (s : State) (items : List (Token × List Char)) (rest : List Char) :
    feed (s.after items) ('\x00' :: rest) = { s.after items with mode := .stopped } := by
  have hstep : step (s.after items) '\x00' = { s.after items with mode := .stopped } := rfl
  rw [feed_cons, hstep, feed_stopped rfl]

end Lexer

/-! ### Token lists -/

theorem filterMap_replicate_enter (count : Nat) :
    (List.replicate count TokenLine.enter).filterMap TokenLine.token? = [] :=
  filterMap_replicate_of_none rfl

theorem filterMap_itemLines (item : Token × List Char) :
    (itemLines item).filterMap TokenLine.token? = [item.1] := by
  unfold itemLines
  split <;> exact congrArg (item.1 :: ·) (filterMap_replicate_enter _)

theorem count_itemLines (item : Token × List Char) :
    (itemLines item).count .enter = item.2.count '\n' := by
  unfold itemLines
  split
  · rename_i hlate
    obtain ⟨gap, hgap⟩ := List.head?_eq_some_iff.1 hlate.2
    simp [hgap]
  · simp

theorem filterMap_flatMap_itemLines (items : List (Token × List Char)) :
    (items.flatMap itemLines).filterMap TokenLine.token? = items.map (·.1) := by
  induction items with
  | nil => rfl
  | cons item items ih =>
    rw [flatMap_cons, filterMap_append, filterMap_itemLines, ih]
    rfl

theorem count_flatMap_itemLines (items : List (Token × List Char)) :
    (items.flatMap itemLines).count .enter = (items.flatMap (·.2)).count '\n' := by
  induction items with
  | nil => rfl
  | cons item items ih =>
    rw [flatMap_cons, count_append, count_itemLines, ih, flatMap_cons,
      count_append]

theorem mem_itemLines {item : Token × List Char} {line : TokenLine} (h : line ∈ itemLines item) :
    line = .enter ∨ line = .token item.1 := by
  unfold itemLines at h
  split at h <;> simp only [mem_cons, mem_replicate] at h <;> tauto

/-- The line ends of such a text stand in its blanks. -/
theorem count_itemsText {items : List (Token × List Char)}
    (hitems : ∀ item ∈ items, item.1.Spelled) :
    (itemsText items).count '\n' = (items.flatMap (·.2)).count '\n' := by
  induction items with
  | nil => rfl
  | cons item items ih =>
    obtain ⟨c, cs, hspelling, hline⟩ := (hitems item mem_cons_self).exists_cons
    have hrest := ih fun other hother => hitems other (mem_cons_of_mem _ hother)
    rw [itemsText] at hrest ⊢
    simp only [flatMap_cons, count_append, hspelling, count_eq_zero.2 hline, hrest,
      Nat.zero_add]

/-- **The token list of a text of tokens.** -/
theorem tokenize_items {items : List (Token × List Char)}
    (hitems : ∀ item ∈ items, item.1.Spelled ∧ Lexer.Filler item.2)
    (hapart : Lexer.Apart ['\x00'] items) :
    tokenize (itemsText items) =
      ⟨items.flatMap itemLines, 1 + (itemsText items).count '\n', [], true⟩ := by
  have hnul : Lexer.feed .initial (itemsText items ++ ['\x00']) =
      { Lexer.State.initial.after items with mode := .stopped } := by
    rw [Lexer.feed_items hitems (by simp) (by simp) hapart rfl, Lexer.feed_after_nul]
  have hrun : Lexer.run patience (itemsText items) = _ :=
    Lexer.run_of_stops (by rw [hnul]) 49
  rw [tokenize, hrun, hnul, count_itemsText fun item hitem => (hitems item hitem).1]
  simp [Lexer.State.after, Lexer.State.initial]

/-- **The lexer inverts the spelling of tokens**: if tokens are written one after the other, each
with blanks behind it, then no fault is found, and the token list, written to a file and read back,
holds these tokens in order, a mark for each line end, and nothing else. -/
theorem tokenize_itemsText (items : List (Token × List Char))
    (hitems : ∀ item ∈ items,
      item.1.Spelled ∧ item.2 ≠ [] ∧ ∀ c ∈ item.2, c = ' ' ∨ c = '\t' ∨ c = '\n') :
    (tokenize (itemsText items)).complete = true ∧ (tokenize (itemsText items)).report = "" ∧
      (tokenize (itemsText items)).lastLine = 1 + (itemsText items).count '\n' ∧
      ∃ lines, TokenLine.ofText (TokenLine.listText (tokenize (itemsText items)).lines) = lines ∧
        lines.filterMap TokenLine.token? = items.map (·.1) ∧
        lines.count .enter = (itemsText items).count '\n' ∧
        ∀ line ∈ lines, line = .enter ∨ ∃ token, line = .token token := by
  have hapart : Lexer.Apart ['\x00'] items := by
    induction items with
    | nil => trivial
    | cons item items ih =>
      obtain ⟨-, hne, hblanks⟩ := hitems item mem_cons_self
      obtain ⟨c, cs, hgap⟩ := exists_cons_of_ne_nil hne
      refine ⟨?_, ih fun other hother => hitems other (mem_cons_of_mem _ hother)⟩
      rw [hgap]
      exact item.1.kind.allows_separator (hblanks c (hgap ▸ mem_cons_self))
  have htokens := tokenize_items (fun item hitem => ⟨(hitems item hitem).1,
    .of_blanks (hitems item hitem).2.2⟩) hapart
  have hkinds : ∀ line ∈ items.flatMap itemLines,
      line = .enter ∨ ∃ item ∈ items, line = .token item.1 := by
    intro line hline
    obtain ⟨item, hitem, hline⟩ := mem_flatMap.1 hline
    exact (mem_itemLines hline).imp_right fun hline => ⟨item, hitem, hline⟩
  have htidy : ∀ line ∈ items.flatMap itemLines, line.Tidy := by
    intro line hline
    rcases hkinds line hline with rfl | ⟨item, hitem, rfl⟩
    · exact trivial
    · exact (hitems item hitem).1.tidy
  have hcount := count_itemsText fun item hitem => (hitems item hitem).1
  rw [htokens]
  refine ⟨rfl, rfl, rfl, items.flatMap itemLines, TokenLine.ofText_listText htidy,
    filterMap_flatMap_itemLines items, (count_flatMap_itemLines items).trans hcount.symm, ?_⟩
  intro line hline
  exact (hkinds line hline).imp_right fun ⟨item, _, hline⟩ => ⟨item.1, hline⟩

/-- A reserved word in mixed case, a name that begins like one, a number with leading zeros, signs
that begin like longer ones, and line ends behind tokens of every sort. -/
theorem tokenize_itemsText_sample :
    (tokenize "WhIle\n\t( whiles1 \n<= < 007\n/\n\n&& ".toList).report = "" ∧
      (tokenize "WhIle\n\t( whiles1 \n<= < 007\n/\n\n&& ".toList).lastLine = 6 ∧
      (TokenLine.ofText (TokenLine.listText
        (tokenize "WhIle\n\t( whiles1 \n<= < 007\n/\n\n&& ".toList).lines)).filterMap
          TokenLine.token?
        = [⟨.kwWhile, "WhIle"⟩, ⟨.leftParen, "("⟩, ⟨.name, "whiles1"⟩, ⟨.lessEqual, "<="⟩,
          ⟨.less, "<"⟩, ⟨.number, "007"⟩, ⟨.slash, "/"⟩, ⟨.both, "&&"⟩] := by
  have hname : Token.Spelled ⟨.name, "whiles1"⟩ := by
    have hrest : "hiles1".toList.all (fun c => c.isAlpha || c.isDigit) = true := rfl
    refine @Token.Spelled.name 'w' "hiles1".toList rfl (fun c hc => ?_) ?_
    · exact Bool.or_eq_true_iff.1 (all_eq_true.1 hrest c hc)
    · intro kind hkind
      cases kind <;> first | exact Bool.noConfusion hkind | decide
  have hnumber : Token.Spelled ⟨.number, "007"⟩ := by
    have hdigits : "007".toList.all Char.isDigit = true := rfl
    exact @Token.Spelled.number "007".toList (by decide) (all_eq_true.1 hdigits)
  have hread := tokenize_itemsText
    [(⟨.kwWhile, "WhIle"⟩, ['\n', '\t']), (⟨.leftParen, "("⟩, [' ']), (⟨.name, "whiles1"⟩,
    [' ', '\n']),
      (⟨.lessEqual, "<="⟩, [' ']), (⟨.less, "<"⟩, [' ']), (⟨.number, "007"⟩, ['\n']),
      (⟨.slash, "/"⟩, ['\n', '\n']), (⟨.both, "&&"⟩, [' '])] ?_
  · obtain ⟨-, hreport, hline, lines, hlines, htokens, -⟩ := hread
    subst hlines
    exact ⟨hreport, hline, htokens⟩
  · simp only [forall_mem_cons, not_mem_nil, false_implies, implies_true, and_true]
    exact ⟨⟨.reserved rfl (by decide), by decide⟩, ⟨.sign (by decide), by decide⟩,
      ⟨hname, by decide⟩, ⟨.sign (by decide), by decide⟩, ⟨.sign (by decide), by decide⟩,
      ⟨hnumber, by decide⟩, ⟨.sign (by decide), by decide⟩, ⟨.sign (by decide), by decide⟩⟩

/-! ### Tokens without blanks between them -/

/-- A spelling and the character behind it merge: together they begin a longer token or a comment,
or the character and the one before it are both letters or digits. -/
def Merges (spelling : List Char) (c : Char) : Prop :=
  (∃ token : Token, token.Spelled ∧ spelling ++ [c] <+: token.spelling.toList) ∨
    spelling ++ [c] <+: ['/', '*'] ∨
    ∃ last, spelling.getLast? = some last ∧ (last.isAlpha || last.isDigit) = true ∧
      (c.isAlpha || c.isDigit) = true

/-- No number stands directly before a slash or before the end of the text. -/
def NumbersEnd : List (Token × List Char) → Prop
  | [] => True
  | item :: items =>
    (item.1.kind = .number → item.2 = [] → ∃ next ∈ items.head?, next.1.kind ≠ .slash) ∧
      NumbersEnd items

theorem merges_of_letters {spelling : List Char} (hne : spelling ≠ [])
    (hspelling : ∀ c ∈ spelling, (c.isAlpha || c.isDigit) = true)
    (hc : (c.isAlpha || c.isDigit) = true) : Merges spelling c :=
  .inr (.inr ⟨_, List.getLast?_eq_some_getLast hne, hspelling _ (getLast_mem hne), hc⟩)

/-- A token is an operator, or it consists of letters and digits. -/
theorem Token.Spelled.letters_or_sign (h : token.Spelled) :
    (token.spelling.toList ≠ [] ∧
      (∀ c ∈ token.spelling.toList, (c.isAlpha || c.isDigit) = true) ∧
      (token.kind = .number ∨ ∀ c, token.kind.allows c = !(c.isAlpha || c.isDigit))) ∨
      token.kind ∈ Kind.signs ∧ token.spelling = token.kind.text := by
  cases h with
  | reserved hkind hlower =>
    obtain ⟨hne, hletters⟩ := Lexer.letters_of_reserved hkind hlower
    exact .inl ⟨by simpa using hne, fun c hc => by simp [hletters c hc],
      .inr (Kind.waits_and_allows_of_isReserved hkind).2⟩
  | @name first rest hfirst hrest _ =>
    refine .inl ⟨by simp, fun c hc => ?_, .inr fun _ => rfl⟩
    rw [String.toList_ofList] at hc
    rcases mem_cons.1 hc with rfl | hc
    · simp [hfirst]
    · simpa using hrest c hc
  | number hne hdigits =>
    refine .inl ⟨by simpa using hne, fun c hc => ?_, .inl rfl⟩
    rw [String.toList_ofList] at hc
    simp [hdigits c hc]
  | sign hkind => exact .inr ⟨hkind, rfl⟩

/-- Every operator but the slash begins with a character that may stand behind a number. -/
theorem endsNumber_head_sign : ∀ kind ∈ Kind.signs, kind ≠ .slash →
    kind.text.toList.head?.all Lexer.endsNumber = true := by
  decide +kernel

/-- A character that cannot stand behind an operator continues it. -/
theorem merges_sign {kind : Kind} (h : kind ∈ Kind.signs) (hc : kind.allows c = false) :
    Merges kind.text.toList c := by
  have hlonger : ∀ {longer : Kind}, longer ∈ Kind.signs →
      longer.text.toList = kind.text.toList ++ ['='] → c = '=' → Merges kind.text.toList c := by
    rintro longer hsign htext rfl
    exact .inl ⟨⟨longer, longer.text⟩, .sign hsign, htext ▸ prefix_rfl⟩
  cases kind with
  | slash =>
    obtain rfl : c = '*' := by simpa [Kind.allows] using hc
    exact .inr (.inl prefix_rfl)
  | assign => exact @hlonger .equal (by decide) rfl (by simpa [Kind.allows] using hc)
  | less => exact @hlonger .lessEqual (by decide) rfl (by simpa [Kind.allows] using hc)
  | greater => exact @hlonger .greaterEqual (by decide) rfl (by simpa [Kind.allows] using hc)
  | bang => exact @hlonger .notEqual (by decide) rfl (by simpa [Kind.allows] using hc)
  | _ => first | exact Bool.noConfusion hc | simp [Kind.signs] at h

/-- A character that does not merge with a token can stand behind it, unless it is a slash behind a
number. -/
theorem Token.Spelled.allows {next : Token} (h : token.Spelled) (hnext : next.Spelled)
    (hc : c ∈ next.spelling.toList.head?) (hmerges : ¬ Merges token.spelling.toList c)
    (hnumber : token.kind = .number → next.kind ≠ .slash) : token.kind.allows c = true := by
  by_contra hnot
  rw [Bool.not_eq_true] at hnot
  rcases h.letters_or_sign with ⟨hne, hletters, hkind⟩ | ⟨hsign, hspelling⟩
  · refine hmerges (merges_of_letters hne hletters ?_)
    rcases hkind with hkind | hkind
    · rcases hnext.letters_or_sign with ⟨-, hletters', -⟩ | ⟨hsign, hspelling⟩
      · exact hletters' c (mem_of_mem_head? hc)
      · have hends := endsNumber_head_sign _ hsign (hnumber hkind)
        rw [hspelling] at hc
        rw [Option.mem_def.1 hc, Option.all_some] at hends
        rw [hkind] at hnot
        simp [Kind.allows, hends] at hnot
    · rwa [hkind, Bool.not_eq_false'] at hnot
  · rw [hspelling] at hmerges
    exact hmerges (merges_sign hsign hnot)

theorem Kind.allows_nul {kind : Kind} (h : kind ≠ .number) : kind.allows '\x00' = true := by
  cases kind <;> first | rfl | exact absurd rfl h

/-- A number before a character that neither continues nor ends it is a fault. -/
theorem Lexer.faults_number (h : token.Spelled) (hkind : token.kind = .number) {s : State}
    (hmode : s.mode = .between) (hdigit : c.isDigit = false) (hc : token.kind.allows c = false)
    (rest : List Char) :
    (feed s (token.spelling.toList ++ c :: rest)).faults ≠ s.faults := by
  cases h with
  | @reserved kind _ hreserved =>
    obtain rfl : kind = .number := hkind
    exact Bool.noConfusion hreserved
  | name => cases hkind
  | @sign kind hsign =>
    obtain rfl : kind = .number := hkind
    exact absurd hsign (by decide)
  | @number digits hne hdigits =>
    obtain ⟨hline, hends⟩ : c ≠ '\n' ∧ endsNumber c = false := by
      simpa [Kind.allows] using hc
    have hfault : step { s with mode := .number digits.reverse } c =
        s.complain (.afterNumber c) := by
      rw [step_of_ne (by simp) hline]
      simp [advance, isDigit, hdigit, hends, State.complain]
    rw [String.toList_ofList, feed_append, feed_digits hne hdigits hmode, feed_cons, hfault]
    exact faults_complain s _ rest

section Loose

variable {item : Token × List Char} {items : List (Token × List Char)}

/-- A gap may be empty if the tokens on its sides do not merge. -/
theorem allows_headD (hitem : item.1.Spelled ∧ ∀ c ∈ item.2, Lexer.IsSeparator c)
    (hitems : ∀ other ∈ items, other.1.Spelled)
    (hloose : ∀ next ∈ items.head?, item.2 = [] →
      ∀ c ∈ next.1.spelling.toList.head?, ¬ Merges item.1.spelling.toList c)
    (hnumber : item.1.kind = .number → item.2 = [] → ∃ next ∈ items.head?, next.1.kind ≠ .slash) :
    item.1.kind.allows ((item.2 ++ (itemsText items ++ ['\x00'])).headD '\x00') = true := by
  obtain ⟨token, gap⟩ := item
  cases gap with
  | cons c gap => exact token.kind.allows_separator (hitem.2 c mem_cons_self)
  | nil =>
    cases items with
    | nil =>
      refine Kind.allows_nul fun hkind => ?_
      obtain ⟨next, hnext, -⟩ := hnumber hkind rfl
      simp at hnext
    | cons next items =>
      have hnext := hitems next mem_cons_self
      obtain ⟨c, cs, hspelling, -⟩ := hnext.exists_cons
      have hhead : ([] ++ (itemsText (next :: items) ++ ['\x00'])).headD '\x00' = c := by
        rw [Lexer.itemsText_cons, hspelling]
        rfl
      have hc : c ∈ next.1.spelling.toList.head? := by simp [hspelling]
      rw [hhead]
      refine hitem.1.allows hnext hc (hloose next (by simp) rfl c hc) fun hkind => ?_
      obtain ⟨other, hother, hslash⟩ := hnumber hkind rfl
      obtain rfl : next = other := by simpa using hother
      exact hslash

/-- Tokens that do not merge are apart if their numbers end. -/
theorem apart_of_numbersEnd
    (hitems : ∀ item ∈ items, item.1.Spelled ∧ ∀ c ∈ item.2, Lexer.IsSeparator c)
    (hloose : items.IsChain fun item next => item.2 = [] →
      ∀ c ∈ next.1.spelling.toList.head?, ¬ Merges item.1.spelling.toList c)
    (hnumbers : NumbersEnd items) : Lexer.Apart ['\x00'] items := by
  induction items with
  | nil => trivial
  | cons item items ih =>
    have hothers := fun other hother => hitems other (mem_cons_of_mem _ hother)
    rw [isChain_cons] at hloose
    exact ⟨allows_headD (hitems item mem_cons_self) (fun other hother =>
      (hothers other hother).1) hloose.1 hnumbers.1, ih hothers hloose.2 hnumbers.2⟩

/-- If no fault is found in tokens that do not merge, then their numbers end. -/
theorem numbersEnd_of_faults
    (hitems : ∀ item ∈ items, item.1.Spelled ∧ ∀ c ∈ item.2, Lexer.IsSeparator c)
    (hloose : items.IsChain fun item next => item.2 = [] →
      ∀ c ∈ next.1.spelling.toList.head?, ¬ Merges item.1.spelling.toList c)
    {s : Lexer.State} (hmode : s.mode = .between)
    (hfaults : (Lexer.feed s (itemsText items ++ ['\x00'])).faults = s.faults) :
    NumbersEnd items := by
  induction items generalizing s with
  | nil => trivial
  | cons item items ih =>
    have hothers := fun other hother => hitems other (mem_cons_of_mem _ hother)
    have hitem := hitems item mem_cons_self
    have hspelled := fun other hother => (hothers other hother).1
    rw [isChain_cons] at hloose
    rw [Lexer.itemsText_cons] at hfaults
    have hnumber : item.1.kind = .number → item.2 = [] →
        ∃ next ∈ items.head?, next.1.kind ≠ .slash := by
      intro hkind hgap
      by_contra hnone
      rw [hgap, nil_append] at hfaults
      cases items with
      | nil => exact Lexer.faults_number hitem.1 hkind hmode rfl (hkind ▸ rfl) [] hfaults
      | cons next items =>
        have hslash : next.1.kind = .slash := by simpa using hnone
        have hspelling : next.1.spelling.toList = ['/'] := by
          rcases (hspelled next mem_cons_self).letters_or_sign with ⟨-, -, hkinds⟩ | ⟨-, htext⟩
          · rw [hslash] at hkinds
            exact absurd (hkinds.resolve_left (by decide) 'a') (by decide)
          · rw [htext, hslash]
            rfl
        rw [Lexer.itemsText_cons, hspelling] at hfaults
        exact Lexer.faults_number hitem.1 hkind hmode rfl (hkind ▸ rfl) _ hfaults
    refine ⟨hnumber, ih hothers hloose.2 (s := s.after [item]) rfl ?_⟩
    rwa [Lexer.feed_item hitem.1 (.of_blanks hitem.2) (by simp)
      (Lexer.head?_itemsText hspelled (by simp)) (allows_headD hitem hspelled hloose.1 hnumber)
      hmode] at hfaults

end Loose

/-- **Blanks are optional where nothing merges.** Tokens are written one after the other, with
blanks between them that may be missing where a spelling does not merge with the character behind
it. They are found again without a fault if and only if no number stands directly before a slash or
before the end of the text. -/
theorem tokenize_loose_iff (items : List (Token × List Char))
    (hitems : ∀ item ∈ items, item.1.Spelled ∧ ∀ c ∈ item.2, c = ' ' ∨ c = '\t' ∨ c = '\n')
    (hloose : items.IsChain fun item next => item.2 = [] →
      ∀ c ∈ next.1.spelling.toList.head?, ¬ Merges item.1.spelling.toList c) :
    (tokenize (itemsText items)).complete = true ∧ (tokenize (itemsText items)).faults = [] ∧
        (tokenize (itemsText items)).lines.filterMap TokenLine.token? = items.map (·.1) ↔
      NumbersEnd items := by
  constructor
  · rintro ⟨hcomplete, hfaults, -⟩
    exact numbersEnd_of_faults hitems hloose rfl (feed_of_tokenize hcomplete hfaults).2.1
  · intro hnumbers
    rw [tokenize_items (fun item hitem => ⟨(hitems item hitem).1, .of_blanks (hitems item hitem).2⟩)
      (apart_of_numbersEnd hitems hloose hnumbers)]
    exact ⟨rfl, rfl, filterMap_flatMap_itemLines items⟩

/-- A number before a semicolon. -/
theorem tokenize_loose_semicolon :
    (tokenize "write 1;".toList).faults = [] ∧
      (tokenize "write 1;".toList).lines.filterMap TokenLine.token?
        = [⟨.kwWrite, "write"⟩, ⟨.number, "1"⟩, ⟨.semicolon, ";"⟩] := by
  have hnumber : Token.Spelled ⟨.number, "1"⟩ :=
    @Token.Spelled.number ['1'] (cons_ne_nil _ _) fun c hc => by
      rw [mem_singleton.1 hc]
      rfl
  have hsigns : ∀ kind ∈ Kind.signs, ¬ ['1', ';'] <+: kind.text.toList := by decide +kernel
  have hapart : ¬ Merges ['1'] ';' := by
    rintro (⟨token, hspelled, hlonger⟩ | hcomment | ⟨last, -, -, hletter⟩)
    · rcases hspelled.letters_or_sign with ⟨-, hletters, -⟩ | ⟨hsign, htext⟩
      · exact absurd (hletters ';' (hlonger.subset (by simp))) (by decide)
      · rw [htext] at hlonger
        exact hsigns _ hsign hlonger
    · exact absurd hcomment (by decide)
    · exact absurd hletter (by decide)
  have hread := (tokenize_loose_iff
    [(⟨.kwWrite, "write"⟩, [' ']), (⟨.number, "1"⟩, []), (⟨.semicolon, ";"⟩, [])] ?_ ?_).2 ?_
  · exact hread.2
  · simp only [forall_mem_cons, not_mem_nil, false_implies, implies_true, and_true]
    exact ⟨⟨.reserved rfl (by decide), by decide⟩, hnumber, .sign (by decide)⟩
  · refine .cons_cons (fun h => absurd h (by decide)) (.cons_cons (fun _ c hc => ?_) (.singleton _))
    obtain rfl : ';' = c := Option.some.inj hc
    exact hapart
  · exact ⟨fun h => absurd h (by decide), fun _ _ => ⟨_, rfl, by decide⟩, fun h =>
      absurd h (by decide), trivial⟩

/-- A number before a slash and one before the end of the text are lost. -/
example :
    tokenize "1/2".toList = ⟨[], 1, [⟨1, .afterNumber '/'⟩, ⟨1, .afterNumber '\x00'⟩], true⟩ := by
  decide +kernel

end ScoreLang
