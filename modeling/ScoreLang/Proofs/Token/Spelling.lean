import Mathlib.Tactic.Common
import ScoreLang.Proofs.Syntax.Basic
import ScoreLang.Proofs.Token.Keyword
import ScoreLang.Token.Lexer

/-!
# The Spelling of Tokens

A token list is a text, and a hand-written one may name a kind and spell it in any way. The lexer
does not do that: a number that it writes is a run of digits, a sign is spelled like its kind, a
reserved word like its kind up to the case of its letters, and a name is any other word of letters
and digits. `spelled_of_mem_tokenize` says so for every text, also for one with lexical faults.

What the parser needs of it can be tested on the token alone, which a name always passes
(`isWellSpelled_tokenize`).
-/

namespace ScoreLang

open List

/-- Whether a kind is that of a reserved word. -/
def Kind.isReserved : Kind → Bool
  | .kwIf | .kwElse | .kwFor | .kwWhile | .kwDo | .kwInt | .kwWrite | .kwRead | .kwSwitch
  | .kwCase | .kwDefault | .kwCall | .kwFunction | .kwMain | .kwReturn | .kwBreak
  | .kwContinue => true
  | _ => false

/-- The kinds of operators and punctuation. -/
def Kind.signs : List Kind :=
  [.plus, .minus, .times, .slash, .assign, .leftParen, .rightParen, .leftBrace, .rightBrace, .colon,
    .semicolon, .comma, .less, .greater, .bang, .leftBracket, .rightBracket, .lessEqual,
    .greaterEqual, .notEqual, .equal, .both, .either]

/-- The tokens as a text spells them. -/
inductive Token.Spelled : Token → Prop where
  /-- A reserved word, in letters of either case. -/
  | reserved {kind : Kind} {spelling : String} : kind.isReserved = true →
      lowerCase spelling = kind.text → Spelled ⟨kind, spelling⟩
  /-- A letter and then letters and digits that are not a reserved word. -/
  | name {first : Char} {rest : List Char} : first.isAlpha = true →
      (∀ c ∈ rest, c.isAlpha = true ∨ c.isDigit = true) →
      (∀ kind : Kind, kind.isReserved = true → lowerCase (String.ofList (first :: rest)) ≠
        kind.text) →
      Spelled ⟨.name, String.ofList (first :: rest)⟩
  | number {digits : List Char} : digits ≠ [] → (∀ c ∈ digits, c.isDigit = true) →
      Spelled ⟨.number, String.ofList digits⟩
  | sign {kind : Kind} : kind ∈ Kind.signs → Spelled ⟨kind, kind.text⟩

/-- A letter and then letters and digits. -/
def LetterWord : List Char → Prop
  | [] => False
  | first :: rest => first.isAlpha = true ∧ ∀ c ∈ rest, c.isAlpha = true ∨ c.isDigit = true

instance : DecidablePred LetterWord
  | [] => .isFalse id
  | first :: rest =>
    decidable_of_iff (first.isAlpha = true ∧ (rest.all fun c => c.isAlpha || c.isDigit) = true)
      (by simp [LetterWord])

theorem LetterWord.concat {letters : List Char} (h : LetterWord letters) {c : Char}
    (hc : c.isAlpha = true ∨ c.isDigit = true) : LetterWord (letters ++ [c]) := by
  cases letters with
  | nil => exact h.elim
  | cons first rest =>
    refine ⟨h.1, fun d hd => ?_⟩
    rcases mem_append.1 hd with hd | hd
    · exact h.2 d hd
    · exact mem_singleton.1 hd ▸ hc

/-- Whether a token is spelled as its kind demands. -/
def Token.isWellSpelled (token : Token) : Bool :=
  match token.kind with
  | .name => true
  | .number => !token.spelling.toList.isEmpty && token.spelling.toList.all Char.isDigit
  | .other _ => false
  | kind =>
    if kind.isReserved then lowerCase token.spelling == kind.text
    else token.spelling == kind.text

/-- Whether the token in a line of a token list, if there is one, is spelled as its kind demands. -/
def TokenLine.isWellSpelled : TokenLine → Bool
  | .token word => word.isWellSpelled
  | _ => true

namespace Lexer

/-! ### Words -/

/-- A word that is found in the table names a kind of reserved word. -/
theorem ofText_of_isReserved {word : String} (h : isReserved word = true) :
    (Kind.ofText word).isReserved = true ∧ (Kind.ofText word).text = word := by
  have htable : ∀ word ∈ reserved.toList,
      (Kind.ofText word).isReserved = true ∧ (Kind.ofText word).text = word := by
    decide +kernel
  exact htable word (Array.mem_toList_iff.2 ((isReserved_iff word).1 h))

/-- Every reserved word is found in the table, and it names its kind. -/
theorem isReserved_text {kind : Kind} (h : kind.isReserved = true) :
    isReserved kind.text = true ∧ Kind.ofText kind.text = kind := by
  cases kind <;> first | exact Bool.noConfusion h | decide +kernel

/-- The token of a word. -/
def wordToken (letters : List Char) : Token :=
  let lower := lowerCase (String.ofList letters)
  ⟨if isReserved lower then .ofText lower else .name, String.ofList letters⟩

theorem emitWord_eq (s : State) (seen : List Char) :
    s.emitWord seen = s.emit (wordToken seen.reverse).kind (wordToken seen.reverse).spelling := by
  simp [State.emitWord, wordToken, lowerCase]

variable {c : Char} {letters : List Char} {state : State}

theorem wordToken_reserved {kind : Kind} (hkind : kind.isReserved = true)
    (h : lowerCase (String.ofList letters) = kind.text) :
    wordToken letters = ⟨kind, String.ofList letters⟩ := by
  obtain ⟨hfound, hof⟩ := isReserved_text hkind
  simp [wordToken, h, hfound, hof]

theorem wordToken_name
    (h : ∀ kind : Kind, kind.isReserved = true → lowerCase (String.ofList letters) ≠ kind.text) :
    wordToken letters = ⟨.name, String.ofList letters⟩ := by
  have hfree : isReserved (lowerCase (String.ofList letters)) = false := by
    rw [Bool.eq_false_iff]
    intro hfound
    obtain ⟨hkind, htext⟩ := ofText_of_isReserved hfound
    exact h _ hkind htext.symm
  simp [wordToken, hfree]

theorem spelled_wordToken (h : LetterWord letters) :
    (wordToken letters).Spelled := by
  by_cases hfound : isReserved (lowerCase (String.ofList letters)) = true
  · obtain ⟨hkind, htext⟩ := ofText_of_isReserved hfound
    rw [wordToken_reserved hkind htext.symm]
    exact .reserved hkind htext.symm
  · have hfree : ∀ kind : Kind, kind.isReserved = true →
        lowerCase (String.ofList letters) ≠ kind.text := by
      intro kind hkind htext
      rw [htext] at hfound
      exact hfound (isReserved_text hkind).1
    rw [wordToken_name hfree]
    cases letters with
    | nil => exact h.elim
    | cons first rest => exact .name h.1 h.2 hfree

/-! ### Operators -/

/-- The operators that the lexer writes. -/
def operators : List (List Char) :=
  [['+'], ['-'], ['*'], ['/'], ['='], ['('], [')'], ['\x7b'], ['\x7d'], [':'], [';'], [','], ['<'],
    ['>'], ['!'], ['['], [']'], ['<', '='], ['>', '='], ['!', '='], ['=', '='], ['&', '&'],
    ['|', '|']]

/-- The kind that an operator names. -/
theorem ofText_operator : ∀ signs ∈ operators, Kind.ofText (String.ofList signs) ∈ Kind.signs ∧
    (Kind.ofText (String.ofList signs)).text = String.ofList signs := by
  decide +kernel

theorem spelled_operator {signs : List Char} (h : signs ∈ operators) :
    Token.Spelled ⟨.ofText (String.ofList signs), String.ofList signs⟩ := by
  obtain ⟨hkind, htext⟩ := ofText_operator signs h
  have hsign := Token.Spelled.sign hkind
  rwa [htext] at hsign

theorem single_mem_operators (h : isSingle c = true) : [c] ∈ operators := by
  simp only [isSingle, contains_eq_mem, mem_cons, not_mem_nil, or_false,
    decide_eq_true_eq] at h
  rcases h with rfl | rfl | rfl | rfl | rfl | rfl | rfl | rfl | rfl | rfl | rfl | rfl | rfl | rfl |
    rfl | rfl <;> decide

theorem comparison_mem_operators (h : isComparison c = true) :
    [c] ∈ operators ∧ [c, '='] ∈ operators := by
  simp only [isComparison, contains_eq_mem, mem_cons, not_mem_nil, or_false,
    decide_eq_true_eq] at h
  rcases h with rfl | rfl | rfl | rfl <;> decide

theorem twin_mem_operators (h : isTwin c = true) : [c, c] ∈ operators := by
  simp only [isTwin, contains_eq_mem, mem_cons, not_mem_nil, or_false,
    decide_eq_true_eq] at h
  rcases h with rfl | rfl <;> decide

/-! ### The invariant of the lexer -/

/-- What a mode remembers is the beginning of a token. -/
def Mode.Sound : Mode → Prop
  | .word seen => LetterWord seen.reverse
  | .number seen => seen ≠ [] ∧ ∀ c ∈ seen, c.isDigit = true
  | .comparison sign => isComparison sign = true
  | .twin sign => isTwin sign = true
  | _ => True

/-- The tokens written so far are spelled as a text spells them, and the mode is sound. -/
structure State.Sound (state : State) : Prop where
  mode : state.mode.Sound
  written : ∀ token, .token token ∈ state.written → token.Spelled

variable (h : state.Sound)

include h

theorem State.Sound.withMode {mode : Mode} (hmode : mode.Sound) :
    State.Sound { state with mode := mode } :=
  ⟨hmode, h.written⟩

theorem State.Sound.emit {token : Token} (htoken : token.Spelled) :
    (state.emit token.kind token.spelling).Sound := by
  refine ⟨trivial, ?_⟩
  intro other hmem
  rcases mem_cons.mp hmem with heq | hmem
  · exact TokenLine.token.inj heq ▸ htoken
  · exact h.written other hmem

theorem State.Sound.emitOperator {signs : List Char} (hsigns : signs ∈ operators) :
    (state.emitOperator signs).Sound :=
  h.emit (spelled_operator hsigns)

theorem State.Sound.emitWord {seen : List Char} (hseen : LetterWord seen.reverse) :
    (state.emitWord seen).Sound := by
  rw [emitWord_eq]
  exact h.emit (spelled_wordToken hseen)

theorem State.Sound.complain (cause : LexicalCause) :
    (state.complain cause).Sound :=
  ⟨trivial, h.written⟩

/-- A character between two tokens keeps the lexer sound. -/
theorem State.Sound.begin (c : Char) :
    (Lexer.begin state c).Sound := by
  unfold Lexer.begin
  split
  · exact h.withMode trivial
  split
  · rename_i hletter
    exact h.withMode ⟨hletter, by simp⟩
  split
  · exact h.withMode ‹_›
  split
  · exact h.withMode ‹_›
  split
  · exact h.emitOperator (single_mem_operators ‹_›)
  split
  · rename_i hdigit
    exact h.withMode ⟨by simp, by simpa [isDigit] using hdigit⟩
  split
  · exact h.withMode trivial
  split
  · exact h.withMode trivial
  · exact h.complain _

/-- A character keeps the lexer sound. -/
theorem State.Sound.advance (c : Char) :
    (Lexer.advance state c).Sound := by
  have hmode := h.mode
  unfold Lexer.advance
  split
  · exact h
  · exact h.begin c
  · exact h.begin c
  · rename_i seen hseen
    rw [hseen] at hmode
    split
    · rename_i hc
      refine h.withMode ?_
      rw [Mode.Sound, reverse_cons]
      exact LetterWord.concat hmode (Bool.or_eq_true_iff.1 hc)
    · exact (h.emitWord hmode).begin c
  · rename_i seen hseen
    rw [hseen] at hmode
    split
    · rename_i hdigit
      refine h.withMode ⟨by simp, ?_⟩
      intro d hd
      rcases mem_cons.mp hd with rfl | hd
      · exact hdigit
      · exact hmode.2 d hd
    split
    · refine State.Sound.begin (h.emit (.number ?_ ?_)) c
      · simpa using hmode.1
      · simpa using hmode.2
    · exact h.complain _
  · rename_i sign hsign
    rw [hsign] at hmode
    split
    · exact h.emitOperator (comparison_mem_operators hmode).2
    · exact (h.emitOperator (comparison_mem_operators hmode).1).begin c
  · rename_i sign hsign
    rw [hsign] at hmode
    split
    · exact h.emitOperator (twin_mem_operators hmode)
    · exact h.complain _
  · split
    · exact h.withMode trivial
    · exact (h.emitOperator (by decide)).begin c
  · split
    · split
      · exact h.complain _
      · exact h.withMode trivial
    · exact h.withMode trivial

theorem State.Sound.step (c : Char) :
    (Lexer.step state c).Sound := by
  unfold Lexer.step
  split
  · exact h
  split
  · have hline : state.enterLine.Sound := by
      refine ⟨h.mode, ?_⟩
      intro token hmem
      rcases mem_cons.mp hmem with heq | hmem
      · exact TokenLine.noConfusion heq
      · exact h.written token hmem
    exact hline.advance ' '
  · exact h.advance c

theorem State.Sound.settle : state.settle.Sound := by
  unfold State.settle
  split
  · exact h.withMode trivial
  · exact h

omit h

/-- What holds at first and is kept by every character holds behind every text. -/
theorem feed_induct {P : State → Prop} (hstep : ∀ state c, P state → P (Lexer.step state c))
    (h : P state) (text : List Char) : P (feed state text) := by
  induction text generalizing state with
  | nil => exact h
  | cons c text ih => exact ih (hstep state c h)

/-- What is also kept by the end after a fault holds at the end of every text. -/
theorem run_induct {P : State → Prop} (hinitial : P .initial)
    (hstep : ∀ state c, P state → P (Lexer.step state c))
    (hsettle : ∀ state, P state → P state.settle) (reads : Nat) (text : List Char) :
    P (run reads text) := by
  induction reads with
  | zero => exact hsettle _ (feed_induct hstep hinitial text)
  | succ reads ih => exact hsettle _ (hstep _ _ ih)

theorem State.Sound.initial : State.initial.Sound := ⟨trivial, by simp [State.initial]⟩

end Lexer

/-- **The lexer writes tokens as a text spells them**, whatever the text is. -/
theorem spelled_of_mem_tokenize {text : List Char} {token : Token}
    (h : .token token ∈ (tokenize text).lines) : token.Spelled := by
  have hend : (Lexer.run patience text).Sound :=
    Lexer.run_induct .initial (fun _ c h => h.step c) (fun _ h => h.settle) patience text
  simp only [tokenize, mem_reverse] at h
  exact hend.written token h

theorem Token.Spelled.isWellSpelled {token : Token} (h : token.Spelled) :
    token.isWellSpelled = true := by
  cases h with
  | @reserved kind spelling hkind hlower =>
    cases kind <;> simp_all [Kind.isReserved, Token.isWellSpelled]
  | name => rfl
  | number hne hdigits => simp [Token.isWellSpelled, hne, all_eq_true.mpr hdigits]
  | sign hkind =>
    have hsigns : ∀ kind ∈ Kind.signs, Token.isWellSpelled ⟨kind, kind.text⟩ = true := by
      decide +kernel
    exact hsigns _ hkind

/-- The tokens of a text are spelled as their kinds demand. -/
theorem isWellSpelled_tokenize (text : List Char) :
    ∀ line ∈ (tokenize text).lines, line.isWellSpelled = true := by
  intro line hmem
  cases line with
  | token token => exact (spelled_of_mem_tokenize hmem).isWellSpelled
  | enter | bare | blank => rfl

end ScoreLang
