import ScoreLang.Proofs.Parse.Course
import ScoreLang.Proofs.Token.Lexeme

/-!
# How the Parser Fails

A list of tokens and line marks is accepted, or it is rejected with an error that names a line and
a rule, with two exceptions. The parser breaks if the words end directly after an operand, where it
looks for a logical sign without asking whether there is a word left. The last word is then one
that ends operands, a name, a number or a closing bracket or parenthesis. It also breaks for the
want of a scope, if a right brace stands after a comma: in a list of parameters, where the word
before a name is not looked at, such a brace closes the scope of the parameters, and the end of the
function closes the outermost one.

## Main results

* `fits_of_parse`: how a list of lines is rejected;
* `parse_prefix_tokenize`: what becomes of the first tokens of a text.
-/

namespace ScoreLang

/-- **A list of lines** is accepted, or rejected in a way that fits it. -/
theorem fits_of_parse {lines : List TokenLine} {fault : ParseFault}
    (h : parse lines = .error fault) : fault.Fits lines := by
  rcases Desk.parse_cases (Nat.lt_succ_self lines.length) with ⟨fault', hparse, hfits, -⟩ |
    ⟨parsed, hparse, -⟩
  · obtain rfl : fault' = fault := Except.error.inj (hparse.symm.trans h)
    exact hfits
  · cases hparse.symm.trans h

/-- A character adds tokens and line marks to the list. -/
theorem Lexer.all_isWhole_step {state : State} (h : state.written.all TokenLine.isWhole = true)
    (c : Char) : (step state c).written.all TokenLine.isWhole = true := by
  by_cases hmode : state.mode = .stopped
  · rwa [step, if_pos hmode]
  · obtain ⟨mode, tokens, causes, hstep⟩ := step_reacts hmode c
    rw [hstep, List.all_append, State.reach, List.all_append, h]
    simp [TokenLine.isWhole]

/-- The lexer writes tokens and line marks only. -/
theorem all_isWhole_tokenize (text : List Char) :
    (tokenize text).lines.all TokenLine.isWhole = true := by
  have hsettle : ∀ state : Lexer.State, state.written.all TokenLine.isWhole = true →
      state.settle.written.all TokenLine.isWhole = true := by
    intro state h
    unfold Lexer.State.settle
    split <;> exact h
  have hend : (Lexer.run patience text).written.all TokenLine.isWhole = true :=
    Lexer.run_induct (P := fun state => state.written.all TokenLine.isWhole = true) rfl
      (fun _ c h => Lexer.all_isWhole_step h c) hsettle patience text
  unfold tokenize
  generalize Lexer.run patience text = state at hend
  simpa using hend

/-- **Every bad program is rejected with an error, unless it ends with an operand or has a right
brace after a comma.** The first tokens of a text, however many, are accepted or rejected with an
error that names a line and a rule, or they end with a word that ends an operand and the parser
breaks for the want of a next word, or a right brace stands directly after a comma and the parser
breaks for the want of a scope. -/
theorem parse_prefix_tokenize {text : List Char} {lines : List TokenLine}
    (h : lines <+: (tokenize text).lines) :
    (∃ parsed, parse lines = .ok parsed) ∨ (∃ error, parse lines = .error (.error error)) ∨
      (parse lines = .error .endOfTokens ∧
        ∃ kind, (TokenLine.kinds lines).getLast? = some kind ∧ kind.endsOperand = true) ∨
      parse lines = .error .noScope ∧ [.comma, .rightBrace] <:+: TokenLine.kinds lines := by
  have hlines : lines.all TokenLine.isWhole = true :=
    List.all_eq_true.2 fun line hline =>
      List.all_eq_true.1 (all_isWhole_tokenize text) line (h.subset hline)
  cases hparse : parse lines with
  | ok parsed => exact .inl ⟨parsed, rfl⟩
  | error fault =>
    have hfault := fits_of_parse hparse
    cases fault with
    | error error => exact .inr (.inl ⟨error, rfl⟩)
    | endOfTokens =>
      obtain ⟨token, hlast, hkind⟩ := hfault
      refine .inr (.inr (.inl ⟨rfl, token.kind, ?_, hkind⟩))
      rw [← TokenLine.map_kind_wordsOf, List.getLast?_map, hlast]
      rfl
    | missingWord => exact absurd (hlines.symm.trans hfault) (by decide)
    | noScope => exact .inr (.inr (.inr ⟨rfl, hfault⟩))
    | exhausted => exact hfault.elim

/-- The words of a write statement end after its operand. -/
theorem parse_prefix_tokenize_write :
    (tokenize "main()\x7b write 1 ".toList).lines <+:
    (tokenize "main()\x7b write 1 ; \x7d".toList).lines ∧
      parse (tokenize "main()\x7b write 1 ".toList).lines = .error .endOfTokens ∧
      (TokenLine.kinds (tokenize "main()\x7b write 1 ".toList).lines).getLast? = some .number := by
  have hstart : (tokenize "main()\x7b write 1 ".toList).lines
      <+: (tokenize "main()\x7b write 1 ; \x7d".toList).lines := by
    decide +kernel
  have hfault : (parse (tokenize "main()\x7b write 1 ".toList).lines).map (fun _ => ())
      = .error .endOfTokens := by
    decide +kernel
  have hlast : (TokenLine.kinds (tokenize "main()\x7b write 1 ".toList).lines).getLast?
      = some .number := by
    decide +kernel
  rcases parse_prefix_tokenize hstart with ⟨parsed, hok⟩ | ⟨error, herror⟩ | ⟨hend, -⟩ | ⟨hscope, -⟩
  · rw [hok] at hfault
    cases hfault
  · rw [herror] at hfault
    cases hfault
  · exact ⟨hstart, hend, hlast⟩
  · rw [hscope] at hfault
    cases hfault

/-- The brace before `b` closes the scope of the parameters, and there is none for `g`. -/
example :
    (parse
    (tokenize
    "function f(int a, \x7d b)\x7b\x7d function g()\x7b\x7d main()\x7b\x7d".toList).lines).map
    (fun _ => ()) = .error .noScope := by
  decide +kernel

/-- They end in the middle of an operation. -/
example : (parse (tokenize "main()\x7b write 1 + ".toList).lines).map (fun _ => ())
    = .error (.error ⟨1, Rule.factor.text, .lackOperand⟩) := by
  decide +kernel

end ScoreLang
