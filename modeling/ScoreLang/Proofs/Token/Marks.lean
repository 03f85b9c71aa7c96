import ScoreLang.Proofs.Token.Layout

/-!
# Where the Line Marks Stand

A text in which no fault is found is laid out as tokens with blanks and comments between them, up
to its end or to a NUL. So its token list is known line by line: as many marks stand before a token
as there are line ends before it in the text, and one more if the token waits for its end and is
directly followed by a line end.

## Main results

* `Lexer.laid_of_clean`: a text without faults is laid out;
* `count_enter_before_token`: how many marks stand before a token.
-/

namespace ScoreLang

open List

namespace Lexer

/-! ### Layouts -/

/-- A text is laid out as tokens, with blanks and comments before and behind them, up to a NUL or
to the end of the text. -/
structure Layout (text lead : List Char) (items : List (Token × List Char)) (rest : List Char) :
    Prop where
  text_eq : text = lead ++ (itemsText items ++ rest)
  /-- Blanks and comments stand before the first token. -/
  lead_filler : Filler lead
  /-- The tokens are spelled as tokens are, and blanks and comments stand behind each of them. -/
  items_spelled : ∀ item ∈ items, item.1.Spelled ∧ Filler item.2
  /-- Every token is followed by a character that ends it. -/
  items_apart : Apart rest items
  rest_end : rest.headD '\x00' = '\x00'

/-- A text that is laid out. -/
def Laid (text : List Char) : Prop := ∃ lead items rest, Layout text lead items rest

theorem laid_of_headD {text : List Char} (h : text.headD '\x00' = '\x00') : Laid text :=
  ⟨[], [], text, rfl, .nil, by simp, trivial, h⟩

namespace Laid

variable {text : List Char}

theorem blank (h : Laid text) {c : Char} (hc : IsSeparator c) : Laid (c :: text) := by
  obtain ⟨lead, items, rest, rfl, hlead, hitems, hapart, hrest⟩ := h
  exact ⟨c :: lead, items, rest, rfl, .blank hc hlead, hitems, hapart, hrest⟩

theorem comment (h : Laid text) {body : List Char} (hbody : ¬ ['*', '/'] <:+: body)
    (hnested : ¬ NestedComment body) : Laid ('/' :: '*' :: (body ++ '*' :: '/' :: text)) := by
  obtain ⟨lead, items, rest, rfl, hlead, hitems, hapart, hrest⟩ := h
  exact ⟨_, items, rest, by simp, .comment hbody hnested hlead, hitems, hapart, hrest⟩

theorem token (h : Laid text) {token : Token} (hspelled : token.Spelled)
    (hends : token.kind.allows (text.headD '\x00') = true) :
    Laid (token.spelling.toList ++ text) := by
  obtain ⟨lead, items, rest, rfl, hlead, hitems, hapart, hrest⟩ := h
  refine ⟨[], (token, lead) :: items, rest, ?_, .nil, ?_, ⟨hends, hapart⟩, hrest⟩
  · rw [itemsText_cons, nil_append]
  · exact forall_mem_cons.2 ⟨⟨hspelled, hlead⟩, hitems⟩

end Laid

/-! ### Texts without faults -/

/-- No fault is found in a text, and a NUL behind it ends the lexer. -/
def Clean (s : State) (text : List Char) : Prop :=
  (feed s (text ++ ['\x00'])).mode = .stopped ∧ (feed s (text ++ ['\x00'])).faults = s.faults

theorem Clean.of_feed_eq {s s' : State} {text rest : List Char} (h : Clean s text)
    (hfeed : feed s (text ++ ['\x00']) = feed s' (rest ++ ['\x00']))
    (hfaults : s'.faults = s.faults) :
    Clean s' rest := by
  rw [Clean, ← hfeed, hfaults]
  exact h

/-- The character behind a part of a text and a NUL. -/
theorem exists_headD (rest : List Char) : ∃ tail, rest ++ ['\x00'] = rest.headD '\x00' :: tail := by
  cases rest with
  | nil => exact ⟨[], rfl⟩
  | cons c rest => exact ⟨rest ++ ['\x00'], rfl⟩

theorem headD_dropWhile {p : Char → Bool} (h : p '\x00' = false) (text : List Char) :
    p ((text.dropWhile p).headD '\x00') = false := by
  induction text with
  | nil => exact h
  | cons c text ih =>
    rw [dropWhile_cons]
    split
    · exact ih
    · rename_i hc
      simpa using hc

/-- An operator is ended by any character that does not continue it. -/
theorem allows_operator {signs : List Char} (hsigns : signs ∈ operators) {d : Char}
    (hslash : signs = ['/'] → d ≠ '*')
    (hequal : ∀ c, signs = [c] → isComparison c = true → d ≠ '=') :
    (Kind.ofText (String.ofList signs)).allows d = true := by
  simp only [operators, mem_cons, not_mem_nil, or_false] at hsigns
  rcases hsigns with rfl | rfl | rfl | rfl | rfl | rfl | rfl | rfl | rfl | rfl | rfl | rfl | rfl
    | rfl | rfl | rfl | rfl | rfl | rfl | rfl | rfl | rfl | rfl
  all_goals first
    | rfl
    | exact decide_eq_true (hslash rfl)
    | exact decide_eq_true (hequal _ rfl rfl)

section Clean

variable {text : List Char}
  (ih : ∀ rest : List Char, rest.length < text.length → ∀ s : State, s.mode = .between →
  Clean s rest →
    Laid rest)
  {s : State} (hmode : s.mode = .between) (h : Clean s text)
include ih hmode h

variable {c : Char} {rest : List Char}

theorem laid_token {token : Token} (hspelled : token.Spelled)
    (htext : text = token.spelling.toList ++ rest)
    (hends : token.kind.allows (rest.headD '\x00') = true) : Laid text := by
  obtain ⟨first, others, hspelling, -⟩ := hspelled.exists_cons
  have hshort : rest.length < text.length := by
    rw [htext, hspelling, length_append, length_cons]
    omega
  subst htext
  refine Laid.token ?_ hspelled hends
  cases rest with
  | nil => exact laid_of_headD rfl
  | cons c rest =>
    have hfeed := feed_token hspelled hmode hends (rest ++ ['\x00'])
    rw [← cons_append, ← append_assoc] at hfeed
    split at hfeed
    · rename_i hlate
      obtain ⟨-, rfl⟩ := hlate
      exact (ih rest (by simp at hshort ⊢; omega) _ rfl (h.of_feed_eq hfeed rfl)).blank
        (.inr (.inr rfl))
    · exact ih (c :: rest) hshort _ rfl (h.of_feed_eq hfeed rfl)

theorem laid_operator {signs : List Char} (hsigns : signs ∈ operators)
    (htext : text = signs ++ rest)
    (hends : (Kind.ofText (String.ofList signs)).allows (rest.headD '\x00') = true) :
    Laid text := by
  obtain ⟨hkind, hspelling⟩ := ofText_operator signs hsigns
  refine laid_token ih hmode h (.sign hkind) ?_ hends
  rw [hspelling, String.toList_ofList, htext]

variable (htext : text = c :: rest)

include htext

theorem laid_blank (hc : IsSeparator c) :
    Laid text := by
  subst htext
  refine Laid.blank (ih rest (by simp) (s.reach .between ([c].count '\n')) rfl ?_) hc
  refine h.of_feed_eq ?_ rfl
  rw [cons_append, feed_cons, step_separator hc hmode]

theorem laid_word (hc : c.isAlpha = true) :
    Laid text := by
  have hletters : LetterWord (c :: rest.takeWhile fun d => d.isAlpha || d.isDigit) :=
    ⟨hc, fun d hd => Bool.or_eq_true_iff.1 (all_eq_true.1 all_takeWhile d hd)⟩
  have hsplit : text = (wordToken (c :: rest.takeWhile fun d => d.isAlpha ||
    d.isDigit)).spelling.toList
      ++ rest.dropWhile fun d => d.isAlpha || d.isDigit := by
    rw [wordToken, String.toList_ofList, cons_append, takeWhile_append_dropWhile, htext]
  refine laid_token ih hmode h (spelled_wordToken hletters) hsplit ?_
  rw [(waits_and_allows_wordToken _).2, Bool.not_eq_true']
  exact headD_dropWhile (p := fun d => d.isAlpha || d.isDigit) rfl rest

theorem laid_number (hc : c.isDigit = true) :
    Laid text := by
  have hspelled : Token.Spelled ⟨.number, String.ofList (text.takeWhile Char.isDigit)⟩ := by
    refine .number ?_ (all_eq_true.1 all_takeWhile)
    rw [htext, takeWhile_cons_of_pos hc]
    exact cons_ne_nil _ _
  have hsplit : text = (String.ofList (text.takeWhile Char.isDigit)).toList ++
      text.dropWhile Char.isDigit := by
    rw [String.toList_ofList, takeWhile_append_dropWhile]
  refine laid_token ih hmode h hspelled hsplit ?_
  by_contra hends
  obtain ⟨tail, htail⟩ := exists_headD (text.dropWhile Char.isDigit)
  refine faults_number hspelled rfl hmode (headD_dropWhile rfl text) (by simpa using hends) tail ?_
  rw [← htail, ← append_assoc, ← hsplit]
  exact h.2

theorem laid_comparison (hc : isComparison c = true) : Laid text := by
  obtain ⟨hshort, hlong⟩ := comparison_mem_operators hc
  by_cases hequal : rest.headD '\x00' = '='
  · cases rest with
    | nil => exact absurd hequal (by decide)
    | cons d rest =>
      obtain rfl : d = '=' := hequal
      exact laid_operator ih hmode h hlong htext (allows_operator hlong (by simp) (by simp))
  · refine laid_operator ih hmode h hshort htext (allows_operator hshort ?_ fun _ _ _ => hequal)
    intro hslash
    obtain rfl : c = '/' := by simpa using hslash
    exact Bool.noConfusion hc

theorem laid_single (hc : isSingle c = true) (hcomparison : ¬ isComparison c = true) :
    Laid text := by
  have hmem := single_mem_operators hc
  refine laid_operator ih hmode h hmem htext (allows_operator hmem ?_ ?_)
  · intro hslash
    obtain rfl : c = '/' := by simpa using hslash
    exact Bool.noConfusion hc
  · intro d hd hother
    obtain rfl : c = d := by simpa using hd
    exact absurd hother hcomparison

theorem laid_twin (hc : isTwin c = true) :
    Laid text := by
  have hsign : c = '&' ∨ c = '|' := by simpa [isTwin] using hc
  by_cases hsame : rest.headD '\x00' = c
  · have hpair := twin_mem_operators hc
    cases rest with
    | nil => rw [← hsame] at hc; exact Bool.noConfusion hc
    | cons d rest =>
      obtain rfl : d = c := hsame
      exact laid_operator ih hmode h hpair htext (allows_operator hpair (by simp) (by simp))
  · exfalso
    obtain ⟨tail, htail⟩ := exists_headD rest
    have hfirst : step s c = { s with mode := .twin c } := by
      obtain ⟨mode, line, written, faults⟩ := s
      obtain rfl : mode = .between := hmode
      rcases hsign with rfl | rfl <;> rfl
    have hother : seenAs (rest.headD '\x00') ≠ c := by
      rwa [Ne, seenAs_eq_iff]
      · rcases hsign with rfl | rfl <;> decide
      · rcases hsign with rfl | rfl <;> decide
    have hfault := h.2
    rw [htext, cons_append, htail, feed_cons, feed_cons, hfirst, step_eq (by simp), advance,
      State.reach] at hfault
    simp only [if_neg hother] at hfault
    exact faults_complain _ _ tail hfault

omit htext

theorem laid_comment {body after : List Char} (hbody : ¬ ['*', '/'] <:+: body)
    (htext : text = '/' :: '*' :: (body ++ '*' :: '/' :: after)) : Laid text := by
  have hfeed := feed_comment hbody hmode (after ++ ['\x00'])
  have hjoin : '/' :: '*' :: (body ++ '*' :: '/' :: (after ++ ['\x00'])) = text ++ ['\x00'] := by
    simp [htext]
  rw [hjoin] at hfeed
  by_cases hnested : NestedComment body
  · rw [if_pos hnested] at hfeed
    exact absurd (hfeed ▸ h.2) (faults_complain _ _ _)
  · rw [if_neg hnested] at hfeed
    have hafter := ih after (by simp [htext]; omega) _ rfl (h.of_feed_eq hfeed rfl)
    exact htext ▸ hafter.comment hbody hnested

theorem laid_slash (htext : text = '/' :: rest) : Laid text := by
  by_cases hstar : rest.headD '\x00' = '*'
  · cases rest with
    | nil => exact absurd hstar (by decide)
    | cons d rest =>
      obtain rfl : d = '*' := hstar
      by_cases hclosed : ['*', '/'] <:+: rest
      · obtain ⟨body, after, rfl, hbody⟩ := exists_first_pair hclosed
        exact laid_comment ih hmode h hbody htext
      · -- the comment is never closed, so that the lexer does not stop
        have hopen : ¬ ['*', '/'] <:+: rest ++ ['\x00'] := by
          rw [← countPairs_pos_iff] at hclosed ⊢
          simpa [countPairs_append, countPairs] using hclosed
        have hslash : (step s '/').mode = .slash := by
          rw [step_of_ne (by simp [hmode]) (by decide), advance, hmode]
          rfl
        obtain ⟨seen, hseen⟩ := feed_open hopen hslash
        have hstop := h.1
        rw [htext, cons_append, cons_append, feed_cons, hseen] at hstop
        cases hstop
  · have hmem : ['/'] ∈ operators := by decide
    refine laid_operator ih hmode h hmem htext (allows_operator hmem (fun _ => hstar) ?_)
    intro c hc hcomparison
    obtain rfl : '/' = c := by simpa using hc
    exact Bool.noConfusion hcomparison

end Clean

/-- **A text without faults is laid out.** -/
theorem laid_of_clean {text : List Char} {s : State} (hmode : s.mode = .between)
    (h : Clean s text) : Laid text := by
  induction hlength : text.length using Nat.strong_induction_on generalizing text s with
  | _ n ih =>
    subst hlength
    have ih' : ∀ rest : List Char, rest.length < text.length → ∀ s : State, s.mode = .between →
        Clean s rest → Laid rest :=
      fun rest hrest s hmode hclean => ih rest.length hrest hmode hclean rfl
    cases htext : text with
    | nil => exact laid_of_headD rfl
    | cons c rest =>
      rw [← htext]
      -- the cases are those of a character between two tokens
      by_cases hblank : IsSeparator c
      · exact laid_blank ih' hmode h htext hblank
      by_cases hletter : c.isAlpha = true
      · exact laid_word ih' hmode h htext hletter
      by_cases hcomparison : isComparison c = true
      · exact laid_comparison ih' hmode h htext hcomparison
      by_cases htwin : isTwin c = true
      · exact laid_twin ih' hmode h htext htwin
      by_cases hsingle : isSingle c = true
      · exact laid_single ih' hmode h htext hsingle hcomparison
      by_cases hdigit : c.isDigit = true
      · exact laid_number ih' hmode h htext hdigit
      by_cases hslash : c = '/'
      · exact laid_slash ih' hmode h (hslash ▸ htext)
      by_cases hnul : c = '\x00'
      · exact laid_of_headD (by rw [htext, hnul]; rfl)
      · have hfault : step s c = s.complain (.strayCharacter c) := by
          simp only [IsSeparator, not_or] at hblank
          rw [step_of_ne (by simp [hmode]) hblank.2.2, advance, hmode]
          simp [begin, isLetter, isDigit, hblank, hletter, hcomparison, htwin, hsingle, hdigit,
            hslash, hnul]
        have hfaults := h.2
        rw [htext, cons_append, feed_cons, hfault] at hfaults
        exact absurd hfaults (faults_complain _ _ _)

/-! ### Line marks -/

theorem Apart.congr {rest rest' : List Char} {items : List (Token × List Char)}
    (h : Apart rest items) (hhead : rest.headD '\x00' = rest'.headD '\x00') :
    Apart rest' items := by
  have happend : ∀ text : List Char, (text ++ rest).headD '\x00' = (text ++ rest').headD
    '\x00' := by
    intro text
    cases text with
    | nil => exact hhead
    | cons c text => rfl
  induction items with
  | nil => trivial
  | cons item items ih =>
    refine ⟨?_, ih h.2⟩
    rw [← append_assoc, ← happend, append_assoc]
    exact h.1

/-- **A text that is laid out.** -/
theorem feed_layout {text lead rest : List Char} {items : List (Token × List Char)}
    (h : Layout text lead items rest) {s : State} (hmode : s.mode = .between) :
    feed s (text ++ ['\x00']) =
      { (s.reach .between (lead.count '\n')).after items with mode := .stopped } := by
  obtain ⟨rfl, hlead, hitems, hapart, hrest⟩ := h
  obtain ⟨tail, htail⟩ := exists_headD rest
  rw [hrest] at htail
  have happart : Apart ('\x00' :: tail) items := hapart.congr hrest
  rw [append_assoc, append_assoc, htail, feed_filler hlead hmode,
    feed_items hitems (by simp) (by simp) happart rfl, feed_after_nul]

end Lexer

/-- The lines of a text without faults. -/
theorem exists_layout {text : List Char} (hcomplete : (tokenize text).complete = true)
    (hfaults : (tokenize text).faults = []) :
    ∃ lead items rest, Lexer.Layout text lead items rest ∧
      (tokenize text).lines = List.replicate (lead.count '\n') .enter ++ items.flatMap
      itemLines := by
  obtain ⟨hstop, hnone, hlines⟩ := feed_of_tokenize hcomplete hfaults
  obtain ⟨lead, items, rest, hlayout⟩ := @Lexer.laid_of_clean text .initial rfl ⟨hstop, hnone⟩
  refine ⟨lead, items, rest, hlayout, ?_⟩
  rw [← hlines, Lexer.feed_layout hlayout rfl]
  simp [Lexer.State.after, Lexer.State.reach, Lexer.State.initial]

/-- The line of a token among the lines for it and the text behind it. -/
theorem itemLines_eq (token : Token) (gap : List Char) :
    ∃ ends, itemLines (token, gap) =
      List.replicate (if token.kind.waits = true ∧ gap.head? = some '\n' then 1 else 0) .enter ++
        .token token :: List.replicate ends .enter := by
  unfold itemLines
  split
  · exact ⟨_, rfl⟩
  · exact ⟨_, rfl⟩

/-- **How many marks stand before a token.** A text in which no fault is found is laid out as
tokens with blanks and comments between them. There is a line for each token, in order, and before
it there are as many line marks as there are line ends before the token in the text; there is one
more if and only if the token is one that waits for its end and a line end stands directly behind
it. -/
theorem count_enter_before_token {text : List Char} (hcomplete : (tokenize text).complete = true)
    (hfaults : (tokenize text).faults = []) :
    ∃ lead items rest, Lexer.Layout text lead items rest ∧
      (tokenize text).lines.filterMap TokenLine.token? = items.map (·.1) ∧
      ∀ before token gap after, items = before ++ (token, gap) :: after →
        ∃ front back, (tokenize text).lines = front ++ .token token :: back ∧
          front.filterMap TokenLine.token? = before.map (·.1) ∧
          front.count .enter = (lead ++ itemsText before).count '\n' +
            if token.kind.waits = true ∧ gap.head? = some '\n' then 1 else 0 := by
  obtain ⟨lead, items, rest, hlayout, hlines⟩ := exists_layout hcomplete hfaults
  refine ⟨lead, items, rest, hlayout, ?_, ?_⟩
  · rw [hlines, filterMap_append, filterMap_replicate_enter, filterMap_flatMap_itemLines,
      nil_append]
  · rintro before token gap after rfl
    obtain ⟨ends, hitem⟩ := itemLines_eq token gap
    have hspelled : ∀ item ∈ before, item.1.Spelled :=
      fun item hitem => (hlayout.items_spelled item (mem_append_left _ hitem)).1
    refine ⟨List.replicate (lead.count '\n') .enter ++ before.flatMap itemLines ++ List.replicate
      (if token.kind.waits = true ∧ gap.head? = some '\n' then 1 else 0) .enter,
      List.replicate ends .enter ++ after.flatMap itemLines, ?_, ?_, ?_⟩
    · rw [hlines, flatMap_append, flatMap_cons, hitem]
      simp
    · rw [filterMap_append, filterMap_append, filterMap_replicate_enter,
        filterMap_replicate_enter, filterMap_flatMap_itemLines, nil_append, append_nil]
    · rw [count_append, count_append, count_append, count_itemsText hspelled,
        count_flatMap_itemLines, count_replicate_self, count_replicate_self]

/-- A reserved word directly before a line end, a parenthesis before one, and a comment over two
lines. -/
theorem count_enter_before_token_main :
    (tokenize "main\n(\n/*\n*/)".toList).faults = [] ∧
      (tokenize "main\n(\n/*\n*/)".toList).lines =
        [.enter, .token ⟨.kwMain, "main"⟩, .token ⟨.leftParen, "("⟩, .enter, .enter,
          .token ⟨.rightParen, ")"⟩] ∧
      ∃ lead items rest, Lexer.Layout "main\n(\n/*\n*/)".toList lead items rest ∧
        items.map (·.1) = [⟨.kwMain, "main"⟩, ⟨.leftParen, "("⟩, ⟨.rightParen, ")"⟩] := by
  have htokens : tokenize "main\n(\n/*\n*/)".toList =
      ⟨[.enter, .token ⟨.kwMain, "main"⟩, .token ⟨.leftParen, "("⟩, .enter, .enter,
        .token ⟨.rightParen, ")"⟩], 4, [], true⟩ := by
    decide +kernel
  obtain ⟨lead, items, rest, hlayout, hitems, -⟩ :=
    @count_enter_before_token "main\n(\n/*\n*/)".toList (by rw [htokens]) (by rw [htokens])
  refine ⟨by rw [htokens], by rw [htokens], lead, items, rest, hlayout, ?_⟩
  rw [← hitems, htokens]
  rfl

end ScoreLang
