import ScoreLang.Proofs.Token.Lexeme

/-!
# Reserved Words and Names

A word of letters and digits is a reserved word or a name, and the search for its lower-case form
in the table of reserved words decides which. No other token is taken for a name: there is no
letter in a number or in a sign.

A line that the lexer has written stays in the token list. So every word that begins between two
tokens and does not go on behind its end has its line there, whatever else the text holds.

## Main results

* `Token.text_kind_eq_iff`: the tokens that are names;
* `mem_tokenize_word`: the token of a word in a text;
* `reserved_search_and_names`: both, with the search that tells the words apart.
-/

namespace ScoreLang

open List

/-! ### The kinds of words -/

theorem LetterWord.any_isAlpha {letters : List Char} (h : LetterWord letters) :
    letters.any Char.isAlpha = true := by
  cases letters with
  | nil => exact h.elim
  | cons first rest => exact any_eq_true.2 ⟨first, mem_cons_self, h.1⟩

/-- **The tokens that are names** are the words that are not reserved. -/
theorem Token.text_kind_eq_iff {token : Token} (h : token.Spelled) :
    token.kind.text = "ID" ↔
      LetterWord token.spelling.toList ∧ lowerCase token.spelling ∉ reserved := by
  cases h with
  | @reserved kind spelling hkind hlower =>
    have hmem : kind.text ∈ reserved := (isReserved_iff _).1 (Lexer.isReserved_text hkind).1
    have hother : "ID" ∉ reserved := by decide +kernel
    rw [hlower]
    exact iff_of_false (fun htext => hother (htext ▸ hmem)) fun hfree => hfree.2 hmem
  | @name first rest hfirst hrest hfree =>
    rw [String.toList_ofList]
    refine iff_of_true rfl ⟨⟨hfirst, hrest⟩, fun hmem => ?_⟩
    obtain ⟨hkind, htext⟩ := Lexer.ofText_of_isReserved ((isReserved_iff _).2 hmem)
    exact hfree _ hkind htext.symm
  | @number digits _ hdigits =>
    have hother : Kind.number.text ≠ "ID" := by decide
    refine iff_of_false hother fun hword => ?_
    have hletter := hword.1.any_isAlpha
    rw [String.toList_ofList] at hletter
    obtain ⟨c, hc, hletter⟩ := any_eq_true.1 hletter
    exact Bool.false_ne_true ((Text.isAlpha_of_isDigit (hdigits c hc)).symm.trans hletter)
  | @sign kind hkind =>
    have hsigns : ∀ kind ∈ Kind.signs,
        kind.text ≠ "ID" ∧ kind.text.toList.any Char.isAlpha = false := by
      decide +kernel
    obtain ⟨hother, hletters⟩ := hsigns kind hkind
    exact iff_of_false hother fun hword =>
      Bool.false_ne_true (hletters.symm.trans hword.1.any_isAlpha)

namespace Lexer

theorem text_kind_wordToken (letters : List Char) :
    (wordToken letters).kind.text =
      if lowerCase (String.ofList letters) ∈ reserved then lowerCase (String.ofList letters)
      else "ID" := by
  simp only [wordToken]
  by_cases hfound : isReserved (lowerCase (String.ofList letters)) = true
  · rw [if_pos hfound, if_pos ((isReserved_iff _).1 hfound), (ofText_of_isReserved hfound).2]
  · rw [if_neg hfound, if_neg (mt (isReserved_iff _).2 hfound), Kind.text]

/-! ### Written lines -/

variable {s : State} {line : TokenLine}

theorem State.Reacts.mem_written {s' : State} (h : s.Reacts s') (hmem : line ∈ s.written) :
    line ∈ s'.written := by
  obtain ⟨mode, tokens, causes, rfl⟩ := h
  exact mem_append_right _ hmem

theorem mem_written_emit (s : State) (token : Token) :
    .token token ∈ (s.emit token.kind token.spelling).written :=
  mem_cons_self

/-- A character takes no line back. -/
theorem mem_written_step (h : line ∈ s.written) (c : Char) :
    line ∈ (step s c).written := by
  by_cases hmode : s.mode = .stopped
  · rwa [step, if_pos hmode]
  · exact (step_reacts hmode c).mem_written (mem_append_right _ h)

theorem mem_written_settle (h : line ∈ s.written) :
    line ∈ s.settle.written := by
  unfold State.settle
  split <;> exact h

/-- What is written behind the first part of a text is in the token list of the text. -/
theorem mem_written_run {before : List Char} (h : line ∈ (feed .initial before).written)
    (rest : List Char) (reads : Nat) :
    line ∈ (run reads (before ++ rest)).written := by
  induction reads with
  | zero =>
    change line ∈ (feed .initial (before ++ rest)).settle.written
    rw [feed_append]
    exact mem_written_settle (feed_induct (P := fun s => line ∈ s.written)
      (fun _ c hs => mem_written_step hs c) h rest)
  | succ reads ih => exact mem_written_settle (mem_written_step ih _)

/-- The token of a word is written when the character behind the word is read. -/
theorem mem_written_word {seen : List Char} (hmode : s.mode = .word seen) {c : Char}
    (hc : ¬ (c.isAlpha = true ∨ c.isDigit = true)) :
    .token (wordToken seen.reverse) ∈ (step s c).written := by
  have hready : Ready (s.reach s.mode ([c].count '\n')).mode (wordToken seen.reverse) :=
    hmode ▸ Ready.word seen
  have hline : seenAs c ≠ '\n' := by
    unfold seenAs
    split
    · decide
    · assumption
  have hends : (wordToken seen.reverse).kind.allows (seenAs c) = true := by
    rw [(waits_and_allows_wordToken _).2, Bool.not_eq_true', seenAs]
    split
    · decide
    · simpa using hc
  rw [step_eq (by simp [hmode]), advance_ready hready hline hends]
  exact (begin_reacts _ _).mem_written (mem_written_emit _ _)

end Lexer

/-- **The token of a word in a text.** The word begins between two tokens or after a fault, and no
letter or digit stands directly behind it. -/
theorem mem_tokenize_word {before letters after : List Char}
    (hbefore : (Lexer.feed .initial before).mode = .between ∨
      (Lexer.feed .initial before).mode = .faulted)
    (hletters : LetterWord letters)
    (hafter : ∀ c ∈ after.head?, ¬ (c.isAlpha = true ∨ c.isDigit = true)) :
    .token (Lexer.wordToken letters) ∈ (tokenize (before ++ letters ++ after)).lines := by
  have hword : (Lexer.feed .initial (before ++ letters)).mode = .word letters.reverse := by
    rw [Lexer.feed_append, Lexer.feed_letters hletters hbefore]
  have hbehind : ∀ c : Char, ¬ (c.isAlpha = true ∨ c.isDigit = true) →
      .token (Lexer.wordToken letters) ∈
        (Lexer.feed .initial (before ++ letters ++ [c])).written := by
    intro c hc
    have hmem := Lexer.mem_written_word hword hc
    rw [reverse_reverse] at hmem
    rw [Lexer.feed_append]
    exact hmem
  simp only [tokenize, mem_reverse]
  cases after with
  | nil =>
    -- the word goes to the end of the text, which is taken for a NUL
    have hstop : (Lexer.feed .initial (before ++ letters ++ ['\x00'])).mode = .stopped := by
      rw [Lexer.feed_append]
      exact Lexer.mode_step_nul (by rw [hword]; rfl)
    have hrun : Lexer.run patience (before ++ letters) = _ := Lexer.run_of_stops hstop 49
    rw [append_nil, hrun]
    exact hbehind _ (by decide)
  | cons c after =>
    rw [append_cons]
    exact Lexer.mem_written_run (hbehind c (hafter c rfl)) after patience

/-- **Reserved words and names.** Six looks at the table of reserved words are enough for the
search to find out of any word whether it is in the table, and none of them falls outside of it. So
a token of a text is a name if and only if it is spelled as a letter with letters and digits behind
it and its lower-case form is not in the table; and every such word that the lexer comes to has its
token in the token list, a name or the reserved word of the table. -/
theorem reserved_search_and_names :
    (∀ (word : String) (more : Nat),
      reservedWithin word (6 + more) 0 (reserved.size - 1) = some (decide (word ∈ reserved))) ∧
    (∀ (text : List Char) (token : Token), .token token ∈ (tokenize text).lines →
      (token.kind.text = "ID" ↔
        LetterWord token.spelling.toList ∧ lowerCase token.spelling ∉ reserved)) ∧
    ∀ before letters after : List Char,
      ((Lexer.feed .initial before).mode = .between ∨
        (Lexer.feed .initial before).mode = .faulted) →
      LetterWord letters → (∀ c ∈ after.head?, ¬ (c.isAlpha = true ∨ c.isDigit = true)) →
      ∃ token : Token, .token token ∈ (tokenize (before ++ letters ++ after)).lines ∧
        token.spelling = String.ofList letters ∧
        token.kind.text = if lowerCase (String.ofList letters) ∈ reserved
          then lowerCase (String.ofList letters) else "ID" := by
  refine ⟨?_, ?_, ?_⟩
  · intro word more
    have henough : reserved.size ≤ 2 ^ (5 + more) :=
      Nat.le_trans (by decide : reserved.size ≤ 2 ^ 5)
        (Nat.pow_le_pow_right (by decide) (Nat.le_add_right 5 more))
    have hsearch := reservedWithin_size word henough
    rwa [Nat.add_right_comm] at hsearch
  · intro text token hmem
    exact Token.text_kind_eq_iff (spelled_of_mem_tokenize hmem)
  · intro before letters after hbefore hletters hafter
    exact ⟨Lexer.wordToken letters, mem_tokenize_word hbefore hletters hafter, rfl,
      Lexer.text_kind_wordToken letters⟩

/-- The entry that stands twice, a word that falls between two entries, a reserved word in capitals
after a fault, and a name that begins like it. -/
theorem reserved_search_and_names_while :
    reservedWithin "call" 6 0 (reserved.size - 1) = some true ∧
      reservedWithin "calm" 6 0 (reserved.size - 1) = some false ∧
      (∃ token : Token, .token token ∈ (tokenize "$WHILE whiles1(".toList).lines ∧
        token.spelling = "WHILE" ∧ token.kind.text = "while") ∧
      ∃ token : Token, .token token ∈ (tokenize "$WHILE whiles1(".toList).lines ∧
        token.spelling = "whiles1" ∧ token.kind.text = "ID" ∧ lowerCase token.spelling ∉
        reserved := by
  obtain ⟨hsearch, htokens, hwords⟩ := reserved_search_and_names
  refine ⟨?_, ?_, ?_, ?_⟩
  · have htable : decide ("call" ∈ reserved) = true := by decide +kernel
    rw [← htable]
    exact hsearch "call" 0
  · have htable : decide ("calm" ∈ reserved) = false := by decide +kernel
    rw [← htable]
    exact hsearch "calm" 0
  · obtain ⟨token, hmem, hspelling, htext⟩ := hwords ['$'] "WHILE".toList
      (' ' :: "whiles1(".toList) (.inr (by decide)) (by decide) (by rintro c ⟨⟩; decide)
    refine ⟨token, hmem, hspelling, htext.trans ?_⟩
    decide +kernel
  · obtain ⟨token, hmem, hspelling, htext⟩ := hwords "$WHILE ".toList "whiles1".toList ['(']
      (.inl (by decide)) (by decide) (by rintro c ⟨⟩; decide)
    have hname : token.kind.text = "ID" := by
      refine htext.trans ?_
      decide +kernel
    exact ⟨token, hmem, hspelling, hname, ((htokens _ _ hmem).1 hname).2⟩

end ScoreLang
