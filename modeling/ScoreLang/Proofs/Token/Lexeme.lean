import ScoreLang.Proofs.Text.Decimal
import ScoreLang.Proofs.Token.Listing

/-!
# Tokens and Their Spelling

What the lexer does with the spelling of a token, and with the character behind it. Some tokens are
written with their last character. Of the others the lexer knows the end only from the character
behind them: a word, a number, a slash and a sign that can be followed by an equality sign *wait*
for it. If that character is a line end, then its mark is written before the token.

Not every character can stand behind a token (`Kind.allows`). Behind a word it must not be a letter
or a digit, since the word would go on. A number is more particular: it must be followed by a blank
or by an operator other than the slash, and not by the end of the text.
-/

namespace ScoreLang

open List

/-- The token in a line, if there is one. -/
def TokenLine.token? : TokenLine → Option Token
  | .token word => some word
  | _ => none

namespace Kind

/-- Whether the lexer knows the end of a token only from the character behind it. -/
def waits (kind : Kind) : Bool :=
  kind.isReserved || [.name, .number, .slash, .assign, .less, .greater, .bang].contains kind

/-- Whether the lexer takes a character behind a token for the end of the token. -/
def allows (kind : Kind) (c : Char) : Bool :=
  match kind with
  | .number => c = '\n' || Lexer.endsNumber c
  | .slash => c ≠ '*'
  | .assign | .less | .greater | .bang => c ≠ '='
  | kind => !(kind.waits && (c.isAlpha || c.isDigit))

/-- A blank or a line end may follow any token. -/
theorem allows_separator {c : Char} (h : c = ' ' ∨ c = '\t' ∨ c = '\n') (kind : Kind) :
    kind.allows c = true := by
  rcases h with rfl | rfl | rfl <;> cases kind <;> rfl

/-- A reserved word waits for its end, like a name. -/
theorem waits_and_allows_of_isReserved {kind : Kind} (h : kind.isReserved = true) :
    kind.waits = true ∧ ∀ c, kind.allows c = !(c.isAlpha || c.isDigit) := by
  cases kind <;> first | exact Bool.noConfusion h | exact ⟨rfl, fun _ => rfl⟩

end Kind

/-! ### Letters -/

namespace Text

/-- The letters, by their codes. -/
theorem isAlpha_iff {c : Char} :
    c.isAlpha = true ↔ (65 ≤ c.toNat ∧ c.toNat ≤ 90) ∨ 97 ≤ c.toNat ∧ c.toNat ≤ 122 := by
  change (decide (c.val ≥ 'A'.val ∧ c.val ≤ 'Z'.val) ||
    (decide (c.val ≥ 'a'.val) && decide (c.val ≤ 'z'.val))) = true ↔ _
  rw [Bool.or_eq_true_iff, Bool.and_eq_true_iff, decide_eq_true_iff, decide_eq_true_iff,
    decide_eq_true_iff]
  rfl

theorem isBlank_of_isAlpha {c : Char} (h : c.isAlpha = true) : isBlank c = false := by
  rw [isAlpha_iff] at h
  simp only [isBlank, Bool.or_eq_false_iff, Bool.and_eq_false_iff, decide_eq_false_iff_not,
    beq_eq_false_iff_ne]
  omega

theorem isAlpha_of_isDigit {c : Char} (h : c.isDigit = true) : c.isAlpha = false := by
  rw [Bool.eq_false_iff]
  intro hletter
  rw [isAlpha_iff] at hletter
  simp only [Char.isDigit, Bool.and_eq_true, decide_eq_true_eq] at h
  change 48 ≤ c.toNat ∧ c.toNat ≤ 57 at h
  omega

/-- A letter in lower case is a letter in either case. -/
theorem isAlpha_of_toLower {c : Char} (h : c.toLower.isAlpha = true) : c.isAlpha = true := by
  by_cases hupper : c.isUpper = true
  · exact Bool.or_eq_true_iff.2 (.inl hupper)
  · have hsame : c.toLower = c := dif_neg fun hrange => hupper (decide_eq_true hrange)
    rwa [hsame] at h

end Text

namespace Lexer

/-! ### Words -/

variable {c : Char} {kind : Kind} {s : State} {spelling : String} {token : Token}

/-- A reserved word is a single word of letters. -/
theorem isWord_text (h : kind.isReserved = true) :
    Text.IsWord kind.text ∧ kind.text.toList.all Char.isAlpha = true := by
  cases kind <;> first | exact Bool.noConfusion h | decide +kernel

/-- A word waits for a character that is not a letter or a digit. -/
theorem waits_and_allows_wordToken (letters : List Char) :
    (wordToken letters).kind.waits = true ∧
      ∀ c, (wordToken letters).kind.allows c = !(c.isAlpha || c.isDigit) := by
  rw [wordToken]
  split
  · rename_i hfound
    exact Kind.waits_and_allows_of_isReserved (ofText_of_isReserved hfound).1
  · exact ⟨rfl, fun _ => rfl⟩

/-- A reserved word is spelled with letters. -/
theorem letters_of_reserved (hkind : kind.isReserved = true) (h : lowerCase spelling = kind.text) :
    spelling ≠ "" ∧ ∀ c ∈ spelling.toList, c.isAlpha = true := by
  obtain ⟨hword, hletters⟩ := isWord_text hkind
  constructor
  · rintro rfl
    exact hword.1 (h.symm.trans (by decide))
  · intro c hc
    apply Text.isAlpha_of_toLower
    apply all_eq_true.1 hletters
    rw [← h, lowerCase, String.toList_ofList]
    exact mem_map_of_mem hc

/-- A reserved word is a word of letters. -/
theorem letterWord_of_reserved (hkind : kind.isReserved = true)
    (h : lowerCase spelling = kind.text) : LetterWord spelling.toList := by
  obtain ⟨hne, hletters⟩ := letters_of_reserved hkind h
  obtain ⟨first, rest, hspelling⟩ := exists_cons_of_ne_nil (mt String.toList_eq_nil_iff.1 hne)
  rw [hspelling] at hletters ⊢
  exact ⟨hletters first mem_cons_self, fun c hc =>
    .inl (hletters c (mem_cons_of_mem _ hc))⟩

/-! ### Characters -/

/-- The characters that may stand between tokens. -/
def IsSeparator (c : Char) : Prop := c = ' ' ∨ c = '\t' ∨ c = '\n'

instance (c : Char) : Decidable (IsSeparator c) :=
  inferInstanceAs (Decidable (c = ' ' ∨ c = '\t' ∨ c = '\n'))

/-- A text is read in two parts. -/
theorem feed_append (s : State) (first second : List Char) :
    feed s (first ++ second) = feed (feed s first) second :=
  foldl_append

theorem feed_cons (s : State) (c : Char) (cs : List Char) : feed s (c :: cs) = feed (step s c) cs :=
  rfl

/-- A character that is not a line end. -/
theorem step_of_ne (hmode : s.mode ≠ .stopped) (hc : c ≠ '\n') :
    step s c = advance s c := by
  rw [step, if_neg hmode, if_neg hc]

/-- A character as the lexer looks at it: a line end is taken for a space. -/
def seenAs (c : Char) : Char := if c = '\n' then ' ' else c

/-- The state in a mode that is reached with some line ends and no token on the way. -/
def State.reach (s : State) (mode : Mode) (ends : Nat) : State :=
  ⟨mode, s.line + ends, List.replicate ends .enter ++ s.written, s.faults⟩

/-- A line end is counted, and then read as a blank. -/
theorem step_eq (h : s.mode ≠ .stopped) (c : Char) :
    step s c = advance (s.reach s.mode ([c].count '\n')) (seenAs c) := by
  by_cases hline : c = '\n'
  · subst hline
    rw [step, if_neg h, if_pos rfl]
    rfl
  · have hcount : [c].count '\n' = 0 := by simp [hline]
    rw [step_of_ne h hline, hcount, seenAs, if_neg hline]
    rfl

/-- A state that a character leads to, its line end apart: it may have written tokens and noted
faults. -/
def State.Reacts (s s' : State) : Prop :=
  ∃ (mode : Mode) (tokens : List Token) (causes : List LexicalCause),
    s' = ⟨mode, s.line, tokens.map .token ++ s.written, causes.map (⟨s.line, ·⟩) ++ s.faults⟩

theorem State.Reacts.withMode (s : State) (mode : Mode) : s.Reacts { s with mode := mode } :=
  ⟨mode, [], [], rfl⟩

theorem State.Reacts.emit (s : State) (kind : Kind) (spelling : String) :
    s.Reacts (s.emit kind spelling) :=
  ⟨.between, [⟨kind, spelling⟩], [], rfl⟩

theorem State.Reacts.complain (s : State) (cause : LexicalCause) : s.Reacts (s.complain cause) :=
  ⟨.faulted, [], [cause], rfl⟩

theorem State.Reacts.of_emit {s' : State} (h : (s.emit kind spelling).Reacts s') : s.Reacts s' := by
  obtain ⟨mode, tokens, causes, rfl⟩ := h
  exact ⟨mode, tokens ++ [⟨kind, spelling⟩], causes, by simp [State.emit]⟩

/-- The first character of a token. -/
theorem begin_reacts (s : State) (c : Char) : s.Reacts (begin s c) := by
  unfold begin
  split_ifs
  case neg => exact .complain s _
  all_goals first | exact .withMode s _ | exact .emit s _ _

/-- **What a character can do.** -/
theorem advance_reacts (s : State) (c : Char) : s.Reacts (advance s c) := by
  unfold advance
  split
  · exact .withMode s _
  · exact begin_reacts s c
  · exact begin_reacts s c
  · split
    · exact .withMode s _
    · exact (begin_reacts _ c).of_emit
  · split_ifs
    · exact .withMode s _
    · exact (begin_reacts _ c).of_emit
    · exact .complain s _
  · split
    · exact .emit s _ _
    · exact (begin_reacts _ c).of_emit
  · split
    · exact .emit s _ _
    · exact .complain s _
  · split
    · exact .withMode s _
    · exact (begin_reacts _ c).of_emit
  · split_ifs
    · exact .complain s _
    · exact .withMode s _
    · exact .withMode s _

/-- What a character does to the state. -/
theorem step_reacts (h : s.mode ≠ .stopped) (c : Char) :
    (s.reach s.mode ([c].count '\n')).Reacts (step s c) := by
  rw [step_eq h]
  exact advance_reacts _ _

/-- Nothing is read after the end. -/
theorem feed_stopped (h : s.mode = .stopped) (text : List Char) : feed s text = s := by
  induction text with
  | nil => rfl
  | cons c text ih => rw [feed_cons, step, if_pos h, ih]

/-- Faults are never forgotten. -/
theorem faults_feed (s : State) (text : List Char) : s.faults <:+ (feed s text).faults := by
  induction text generalizing s with
  | nil => exact suffix_rfl
  | cons c text ih =>
    by_cases hmode : s.mode = .stopped
    · have hfeed := feed_stopped hmode (c :: text)
      exact ⟨[], by rw [hfeed, nil_append]⟩
    · obtain ⟨mode, tokens, causes, hstep⟩ := step_reacts hmode c
      refine List.IsSuffix.trans ?_ (ih (step s c))
      rw [hstep]
      exact suffix_append ..

/-- A fault is not taken back. -/
theorem faults_complain (s : State) (cause : LexicalCause) (text : List Char) :
    (feed (s.complain cause) text).faults ≠ s.faults := by
  intro heq
  have hlength := (faults_feed (s.complain cause) text).length_le
  rw [heq] at hlength
  exact absurd hlength (Nat.not_succ_le_self _)

theorem begin_letter (h : c.isAlpha = true) (s : State) :
    begin s c = { s with mode := .word [c] } := by
  have hspace : c ≠ ' ' := by rintro rfl; exact absurd h (by decide)
  have htab : c ≠ '\t' := by rintro rfl; exact absurd h (by decide)
  simp [begin, hspace, htab, isLetter, h]

theorem begin_digit (h : c.isDigit = true) (s : State) :
    begin s c = { s with mode := .number [c] } := by
  have hother : ∀ signs : List Char, signs.any Char.isDigit = false → c ∉ signs := by
    intro signs hsigns hmem
    exact Bool.false_ne_true (hsigns.symm.trans (any_eq_true.2 ⟨c, hmem, h⟩))
  have hblank : c ∉ [' ', '\t'] := hother _ rfl
  have hletter := Text.isAlpha_of_isDigit h
  have hcomparison : isComparison c = false := by
    simpa [isComparison] using hother ['<', '>', '!', '='] rfl
  have htwin : isTwin c = false := by simpa [isTwin] using hother ['&', '|'] rfl
  have hsingle : isSingle c = false := by
    simpa [isSingle] using hother
      ['+', '-', '*', '=', '(', ')', '{', '}', ':', ';', ',', '<', '>', '!', '[', ']'] rfl
  simp only [mem_cons, not_mem_nil, or_false, not_or] at hblank
  simp [begin, hblank, isLetter, hletter, hcomparison, htwin, hsingle, isDigit, h]

/-! ### Spellings -/

/-- Letters and digits go on with a word. -/
theorem feed_word {cs : List Char} (hcs : ∀ c ∈ cs, c.isAlpha = true ∨ c.isDigit = true)
    {seen : List Char} (hmode : s.mode = .word seen) :
    feed s cs = { s with mode := .word (cs.reverse ++ seen) } := by
  induction cs generalizing s seen with
  | nil => rw [reverse_nil, nil_append, ← hmode]; rfl
  | cons c cs ih =>
    have hc := hcs c mem_cons_self
    have hne : c ≠ '\n' := by rintro rfl; exact absurd hc (by decide)
    have hstep : step s c = { s with mode := .word (c :: seen) } := by
      rw [step_of_ne (by simp [hmode]) hne, advance, hmode]
      simp [isLetter, isDigit, hc]
    rw [feed_cons, hstep, ih (fun d hd => hcs d (mem_cons_of_mem _ hd)) rfl]
    simp

/-- Digits go on with a number. -/
theorem feed_number {cs : List Char} (hcs : ∀ c ∈ cs, c.isDigit = true) {seen : List Char}
    (hmode : s.mode = .number seen) :
    feed s cs = { s with mode := .number (cs.reverse ++ seen) } := by
  induction cs generalizing s seen with
  | nil => rw [reverse_nil, nil_append, ← hmode]; rfl
  | cons c cs ih =>
    have hc := hcs c mem_cons_self
    have hne : c ≠ '\n' := by rintro rfl; exact absurd hc (by decide)
    have hstep : step s c = { s with mode := .number (c :: seen) } := by
      rw [step_of_ne (by simp [hmode]) hne, advance, hmode]
      simp [isDigit, hc]
    rw [feed_cons, hstep, ih (fun d hd => hcs d (mem_cons_of_mem _ hd)) rfl]
    simp

/-- The modes in which the lexer has seen the whole of a token and waits for its end. -/
inductive Ready : Mode → Token → Prop where
  | word (seen : List Char) : Ready (.word seen) (wordToken seen.reverse)
  | number (seen : List Char) : Ready (.number seen) ⟨.number, String.ofList seen.reverse⟩
  /-- After a sign that can be followed by an equality sign. -/
  | comparison {sign : Char} : isComparison sign = true →
      Ready (.comparison sign) ⟨.ofText (String.ofList [sign]), String.ofList [sign]⟩
  | slash : Ready .slash ⟨.ofText "/", "/"⟩

/-- The lexer has seen the whole of a token: it waits for its end, or has written it. -/
def Seen (s : State) (token : Token) (s' : State) : Prop :=
  (token.kind.waits = true ∧ ∃ mode, Ready mode token ∧ s' = { s with mode := mode }) ∨
    token.kind.waits = false ∧ s' = s.emit token.kind token.spelling

/-- A word is read from its first letter on. -/
theorem feed_letters {letters : List Char} (h : LetterWord letters)
    (hmode : s.mode = .between ∨ s.mode = .faulted) :
    feed s letters = { s with mode := .word letters.reverse } := by
  cases letters with
  | nil => exact h.elim
  | cons c cs =>
    have hline : c ≠ '\n' := by rintro rfl; exact absurd h.1 (by decide)
    have hstep : step s c = { s with mode := .word [c] } := by
      rcases hmode with hmode | hmode
      all_goals
        rw [step_of_ne (by simp [hmode]) hline, advance, hmode]
        exact begin_letter h.1 s
    rw [feed_cons, hstep, feed_word h.2 rfl, reverse_cons]

/-- The token of a word is seen. -/
theorem seen_letters {letters : List Char} (h : LetterWord letters) (hmode : s.mode = .between) :
    Seen s (wordToken letters) (feed s letters) :=
  .inl ⟨(waits_and_allows_wordToken _).1, _, by simpa using Ready.word letters.reverse,
    feed_letters h (.inl hmode)⟩

/-- A number is read from its first digit on. -/
theorem feed_digits {digits : List Char} (hne : digits ≠ [])
    (hdigits : ∀ c ∈ digits, c.isDigit = true) (hmode : s.mode = .between) :
    feed s digits = { s with mode := .number digits.reverse } := by
  obtain ⟨c, cs, rfl⟩ := exists_cons_of_ne_nil hne
  have hc : c.isDigit = true := hdigits c mem_cons_self
  have hline : c ≠ '\n' := by rintro rfl; exact absurd hc (by decide)
  have hstep : step s c = { s with mode := .number [c] } := by
    rw [step_of_ne (by simp [hmode]) hline, advance, hmode]
    exact begin_digit hc s
  rw [feed_cons, hstep, feed_number (fun d hd => hdigits d (mem_cons_of_mem _ hd)) rfl,
    reverse_cons]

/-- The token of a number is seen. -/
theorem seen_digits {digits : List Char} (hne : digits ≠ [])
    (hdigits : ∀ c ∈ digits, c.isDigit = true) (hmode : s.mode = .between) :
    Seen s ⟨.number, String.ofList digits⟩ (feed s digits) :=
  .inl ⟨rfl, _, by simpa using Ready.number digits.reverse, feed_digits hne hdigits hmode⟩

/-- An operator is written with its last character, unless a longer one begins like it or, for the
slash, a comment does. -/
theorem seen_sign (h : kind ∈ Kind.signs) (hmode : s.mode = .between) :
    Seen s ⟨kind, kind.text⟩ (feed s kind.text.toList) := by
  obtain ⟨mode, line, written, faults⟩ := s
  obtain rfl : mode = .between := hmode
  simp only [Kind.signs, mem_cons, not_mem_nil, or_false] at h
  rcases h with rfl | rfl | rfl | rfl | rfl | rfl | rfl | rfl | rfl | rfl | rfl | rfl | rfl | rfl |
    rfl | rfl | rfl | rfl | rfl | rfl | rfl | rfl | rfl
  case inr.inr.inr.inl => exact .inl ⟨rfl, _, .slash, rfl⟩
  all_goals first
    | exact .inr ⟨rfl, rfl⟩
    | exact .inl ⟨rfl, _, .comparison rfl, rfl⟩

/-- **What the lexer does with the spelling of a token.** -/
theorem feed_spelled (h : token.Spelled) (hmode : s.mode = .between) :
    Seen s token (feed s token.spelling.toList) := by
  cases h with
  | @reserved kind spelling hkind hlower =>
    have hword : wordToken spelling.toList = ⟨kind, spelling⟩ := by
      rw [wordToken_reserved hkind (by simpa using hlower), String.ofList_toList]
    have hseen := seen_letters (letterWord_of_reserved hkind hlower) hmode
    rwa [hword] at hseen
  | @name first rest hfirst hrest hfree =>
    have hletters : LetterWord (first :: rest) := ⟨hfirst, hrest⟩
    have hseen := seen_letters hletters hmode
    rw [wordToken_name hfree] at hseen
    rwa [String.toList_ofList]
  | number hne hdigits =>
    rw [String.toList_ofList]
    exact seen_digits hne hdigits hmode
  | sign hkind => exact seen_sign hkind hmode

/-! ### Behind a token -/

theorem begin_blank (hc : c = ' ' ∨ c = '\t') (s : State) :
    begin s c = { s with mode := .between } := by
  rw [begin, if_pos (by simpa using hc)]

theorem isDigit_of_endsNumber (h : endsNumber c = true) : isDigit c = false := by
  simp only [endsNumber, isSingle, isTwin, contains_eq_mem, mem_cons, not_mem_nil,
    or_false, Bool.or_eq_true, decide_eq_true_eq] at h
  rcases h with ((rfl | rfl) | rfl | rfl | rfl | rfl | rfl | rfl | rfl | rfl | rfl | rfl | rfl
    | rfl | rfl | rfl | rfl | rfl) | rfl | rfl <;> rfl

/-- The token that the lexer waits for is written when the character behind it is read. -/
theorem advance_ready (hready : Ready s.mode token) (hline : c ≠ '\n')
    (hc : token.kind.allows c = true) :
    advance s c = begin (s.emit token.kind token.spelling) c := by
  obtain ⟨mode, line, written, faults⟩ := s
  cases hready with
  | word seen =>
    rw [(waits_and_allows_wordToken _).2, Bool.not_eq_true'] at hc
    simp only [advance, isLetter, isDigit, hc, Bool.false_eq_true, if_false, emitWord_eq]
  | number seen =>
    have hends : endsNumber c = true := by simpa [Kind.allows, hline] using hc
    simp [advance, isDigit_of_endsNumber hends, hends]
  | @comparison sign hsign =>
    have hequal : c ≠ '=' := by
      simp only [isComparison, contains_eq_mem, mem_cons, not_mem_nil, or_false,
        decide_eq_true_eq] at hsign
      rcases hsign with rfl | rfl | rfl | rfl <;> exact of_decide_eq_true hc
    simp [advance, hequal, State.emitOperator]
  | slash =>
    have hstar : c ≠ '*' := of_decide_eq_true hc
    simp [advance, hstar, State.emitOperator]

/-- **A token and the character behind it.** The token is as good as written when its last character
has been read, unless it waits and the next character is a line end. -/
theorem feed_token (h : token.Spelled) (hmode : s.mode = .between) (hc : token.kind.allows c = true)
    (rest : List Char) :
    feed s (token.spelling.toList ++ c :: rest) =
      if token.kind.waits = true ∧ c = '\n' then
        feed (s.enterLine.emit token.kind token.spelling) rest
      else feed (s.emit token.kind token.spelling) (c :: rest) := by
  rw [feed_append, feed_cons, feed_cons]
  rcases feed_spelled h hmode with ⟨hwaits, mode, hready, heq⟩ | ⟨hwaits, heq⟩
  · have hreads : mode ≠ .stopped := by
      rintro rfl
      cases hready
    rw [heq]
    by_cases hline : c = '\n'
    · have hspace : advance (State.enterLine { s with mode := mode }) ' ' = _ :=
        advance_ready hready (by decide) (token.kind.allows_separator (.inl rfl))
      rw [if_pos ⟨hwaits, hline⟩, step, if_neg hreads, if_pos hline, hspace, begin_blank (.inl rfl)]
      rfl
    · rw [if_neg fun hboth => hline hboth.2, step_of_ne hreads hline, advance_ready hready hline hc,
        step_of_ne (by simp [State.emit]) hline]
      rfl
  · rw [heq, if_neg fun hboth => Bool.false_ne_true (hwaits.symm.trans hboth.1)]

/-! ### The end of a text -/

/-- Whether a NUL ends the text in some mode of the lexer. In a number and after the first of two
signs it is a stray character, and in a comment it is a character of the comment. -/
def Mode.endsAtNul : Mode → Bool
  | .number _ | .twin _ | .comment _ => false
  | _ => true

/-- A NUL ends the text. -/
theorem mode_step_nul (h : s.mode.endsAtNul) : (step s '\x00').mode = .stopped := by
  cases hmode : s.mode with
  | between | faulted | word | comparison | slash =>
    rw [step_of_ne (by simp [hmode]) (by decide), advance, hmode]
    rfl
  | stopped => rw [step, if_pos hmode, hmode]
  | number | twin | comment => simp [hmode, Mode.endsAtNul] at h

/-- A second NUL does nothing. -/
theorem readNul_stopped (h : s.mode = .stopped) : readNul s = s := by
  rw [readNul, step, if_pos h, State.settle, if_neg (by simp [h])]

/-- **The end of a text.** If a NUL behind the text stops the lexer, then so does the end of the
text. -/
theorem run_of_stops {text : List Char} (h : (feed .initial (text ++ ['\x00'])).mode = .stopped)
    (reads : Nat) : run (reads + 1) text = feed .initial (text ++ ['\x00']) := by
  rw [feed_append] at h ⊢
  induction reads with
  | zero =>
    change (step (feed .initial text) '\x00').mode = .stopped at h
    change readNul (feed .initial text).settle = step (feed .initial text) '\x00'
    by_cases hfaulted : (feed .initial text).mode = .faulted
    · rw [State.settle, if_pos hfaulted, readNul_stopped rfl,
        step_of_ne (by simp [hfaulted]) (by decide), advance, hfaulted]
      rfl
    · rw [State.settle, if_neg hfaulted, readNul, State.settle, if_neg (by simp [h])]
  | succ reads ih =>
    change readNul (run (reads + 1) text) = _
    rw [ih, readNul_stopped h]

end Lexer

/-! ### Token lists -/

/-- The line of a token that a text can spell is read back as it was written. -/
theorem Token.Spelled.tidy {token : Token} (h : token.Spelled) : (TokenLine.token token).Tidy := by
  cases h with
  | reserved hkind hlower =>
    obtain ⟨hword, -⟩ := Lexer.isWord_text hkind
    obtain ⟨hne, hletters⟩ := Lexer.letters_of_reserved hkind hlower
    exact ⟨hword, ⟨hne, fun c hc => Text.isBlank_of_isAlpha (hletters c hc)⟩,
      (Lexer.isReserved_text hkind).2⟩
  | @name first rest hfirst hrest hfree =>
    have hkind : Text.IsWord Kind.name.text ∧ Kind.ofText Kind.name.text = .name := by decide
    refine ⟨hkind.1, ⟨by simp, ?_⟩, hkind.2⟩
    intro c hc
    rw [String.toList_ofList] at hc
    rcases mem_cons.1 hc with rfl | hc
    · exact Text.isBlank_of_isAlpha hfirst
    · exact (hrest c hc).elim Text.isBlank_of_isAlpha Text.isBlank_of_isDigit
  | @number digits hne hdigits =>
    have hkind : Text.IsWord Kind.number.text ∧ Kind.ofText Kind.number.text = .number := by
      decide
    refine ⟨hkind.1, ⟨by simpa using hne, ?_⟩, hkind.2⟩
    intro c hc
    rw [String.toList_ofList] at hc
    exact Text.isBlank_of_isDigit (hdigits c hc)
  | sign hkind =>
    have hall : ∀ kind ∈ Kind.signs, Text.IsWord kind.text ∧ Kind.ofText kind.text = kind := by
      decide +kernel
    obtain ⟨hword, hof⟩ := hall _ hkind
    exact ⟨hword, hword, hof⟩

end ScoreLang
