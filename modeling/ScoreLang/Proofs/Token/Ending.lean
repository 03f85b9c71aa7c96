import Mathlib.Data.List.Induction
import ScoreLang.Performance
import ScoreLang.Proofs.Token.Comment

/-!
# How the Lexer Ends

Past the end of a text the lexer reads nothing but NULs. The first of them ends it, whatever faults
it has found, unless the text opens a comment that it does not close. A NUL is a character like any
other in a comment, so that no number of them ends the lexer then.

A fault is noted and the lexer goes on with the next character. So the faults of a text decide
neither whether the lexer ends nor what becomes of the tokens.

## Main results

* `Lexer.mode_feed_eq_comment_iff`: the texts behind which the lexer is in a comment;
* `stopped_run_iff`: when the lexer ends.
-/

namespace ScoreLang

/-- Outside of the comments before it a slash is followed by a star, and the comment that they open
is not closed in the rest of the text. -/
def OpensComment (text : List Char) : Prop :=
  ∃ before rest, text = before ++ '/' :: '*' :: rest ∧
    (Lexer.feed .initial (before ++ ['/'])).mode = .slash ∧ ¬ ['*', '/'] <:+: rest

namespace Lexer

/-! ### How a comment is entered -/

/-- What is known of a character, and of the mode in which it is read, if the lexer stands behind a
slash or in a comment after it. -/
def Mode.Leads (mode : Mode) (c : Char) : Mode → Prop
  | .slash => c = '/'
  | .comment seen =>
    (mode = .slash ∧ c = '*' ∧ seen = []) ∨
      ∃ seen', mode = .comment seen' ∧ ¬ (seen'.head? = some '*' ∧ c = '/') ∧ seen = c :: seen'
  | _ => True

theorem leads_begin (mode : Mode) (s : State) (c : Char) : mode.Leads c (begin s c).mode := by
  unfold begin
  split_ifs <;> first | assumption | exact trivial

theorem leads_advance {s : State} (hmode : s.mode ≠ .stopped) (c : Char) :
    s.mode.Leads c (advance s c).mode := by
  unfold advance
  split
  · exact absurd ‹_› hmode
  · exact leads_begin _ s c
  · exact leads_begin _ s c
  · split
    · exact trivial
    · exact leads_begin _ _ c
  · split_ifs
    · exact trivial
    · exact leads_begin _ _ c
    · exact trivial
  · split
    · exact trivial
    · exact leads_begin _ _ c
  · split
    · exact trivial
    · exact trivial
  · rename_i hslash
    split
    · exact .inl ⟨hslash, ‹_›, rfl⟩
    · exact leads_begin _ _ c
  · rename_i seen hseen
    split_ifs with hclosed
    · exact trivial
    · exact trivial
    · exact .inr ⟨seen, hseen, hclosed, rfl⟩

/-- **A slash and a comment are entered in one way each.** -/
theorem leads_step {s : State} (hmode : s.mode ≠ .stopped) (c : Char) :
    s.mode.Leads (seenAs c) (step s c).mode := by
  rw [step_eq hmode]
  exact leads_advance (s := s.reach s.mode _) hmode _

theorem mode_ne_stopped_of_step {s : State} {c : Char} {mode : Mode} (h : (step s c).mode = mode)
    (hmode : mode ≠ .stopped) : s.mode ≠ .stopped := by
  intro hstopped
  rw [step, if_pos hstopped, hstopped] at h
  exact hmode h.symm

theorem exists_of_mode_slash {text : List Char} (h : (feed .initial text).mode = .slash) :
    ∃ before, text = before ++ ['/'] := by
  rcases List.eq_nil_or_concat text with rfl | ⟨before, c, rfl⟩
  · cases h
  · rw [List.concat_eq_append, feed_append] at h
    change (step (feed .initial before) c).mode = .slash at h
    have hleads := leads_step (mode_ne_stopped_of_step h (by simp)) c
    rw [h] at hleads
    obtain rfl := (seenAs_eq_iff (by decide) (by decide)).1 hleads
    exact ⟨before, List.concat_eq_append ..⟩

/-- What the lexer has kept of a comment is the text behind the last opening. -/
theorem exists_of_mode_comment {text seen : List Char}
    (h : (feed .initial text).mode = .comment seen) :
    ∃ before rest, text = before ++ '/' :: '*' :: rest ∧
      (feed .initial (before ++ ['/'])).mode = .slash ∧ ¬ ['*', '/'] <:+: rest ∧
      seen = (rest.map seenAs).reverse := by
  -- on the text from its end, as the lexer stays in a comment that it is in
  induction text using List.reverseRecOn generalizing seen with
  | nil => cases h
  | append_singleton text c ih =>
    rw [feed_append] at h
    change (step (feed .initial text) c).mode = .comment seen at h
    have hleads := leads_step (mode_ne_stopped_of_step h (by simp)) c
    rw [h] at hleads
    rcases hleads with ⟨hslash, hstar, rfl⟩ | ⟨seen', hinside, hopen, rfl⟩
    · obtain ⟨before, rfl⟩ := exists_of_mode_slash hslash
      obtain rfl := (seenAs_eq_iff (by decide) (by decide)).1 hstar
      exact ⟨before, [], by simp, hslash, by simp, rfl⟩
    · obtain ⟨before, rest, rfl, hslash, hrest, rfl⟩ := ih hinside
      refine ⟨before, rest ++ [c], by simp, hslash, ?_, by simp⟩
      rw [← countPairs_pos_iff, Nat.pos_iff_ne_zero, not_not] at hrest
      have hlast : ¬ (rest.getLast? = some '*' ∧ c = '/') := by
        rintro ⟨hlast, rfl⟩
        refine hopen ⟨?_, rfl⟩
        rw [List.head?_reverse, List.getLast?_map, hlast]
        rfl
      rw [← countPairs_pos_iff, countPairs_append, hrest]
      simp [countPairs, hlast]

/-- **The texts behind which the lexer is in a comment.** -/
theorem mode_feed_eq_comment_iff (text : List Char) :
    (∃ seen, (feed .initial text).mode = .comment seen) ↔ OpensComment text := by
  constructor
  · rintro ⟨seen, h⟩
    obtain ⟨before, rest, htext, hslash, hrest, -⟩ := exists_of_mode_comment h
    exact ⟨before, rest, htext, hslash, hrest⟩
  · rintro ⟨before, rest, rfl, hslash, hrest⟩
    rw [show before ++ '/' :: '*' :: rest = before ++ ['/'] ++ '*' :: rest by simp, feed_append]
    exact feed_open hrest hslash

theorem mode_run_iff (reads : Nat) (text : List Char) :
    (run (reads + 1) text).mode = .stopped ↔ ¬ OpensComment text := by
  rw [← mode_feed_eq_comment_iff]
  constructor
  · rintro hstop ⟨seen, hinside⟩
    obtain ⟨seen', hmode⟩ := mode_run_comment hinside (reads + 1)
    exact Mode.noConfusion (hmode.symm.trans hstop)
  · intro hclosed
    rcases run_cases text with ⟨hstop, hrun⟩ | ⟨cause, hrun⟩ | ⟨hinside, -⟩
    · rw [hrun, hstop]
    · rw [hrun]
    · exact absurd hinside hclosed

end Lexer

theorem complete_tokenize_iff (text : List Char) :
    (tokenize text).complete = true ↔ ¬ OpensComment text := by
  have hrun := Lexer.mode_run_iff 49 text
  rw [show 49 + 1 = patience from rfl] at hrun
  rw [← hrun, tokenize, decide_eq_true_iff]

example : OpensComment "/* a".toList :=
  (Lexer.mode_feed_eq_comment_iff _).1 ⟨"a ".toList, by decide +kernel⟩

example : ¬OpensComment "a/b".toList := (complete_tokenize_iff _).1 (by decide +kernel)

-- A slash may not follow a number, and is dropped with it.
example : ¬OpensComment "1/*".toList := (complete_tokenize_iff _).1 (by decide +kernel)

/-! ### The tokens of a faulty text -/

namespace Compilation

/-- The code does not depend on what the console shows. -/
theorem code_ofTree_congr (console console' : String) (listings : Listings) (tree : SyntaxTree) :
    (ofTree console listings tree).code = (ofTree console' listings tree).code := by
  unfold ofTree
  dsimp only
  split <;> rfl

theorem code_ofTree_ne_openComment (console : String) (listings : Listings) (tree : SyntaxTree) :
    (ofTree console listings tree).code ≠ .error (some .openComment) := by
  unfold ofTree
  dsimp only
  split <;> simp

/-- The faults of a text do not count for what becomes of its tokens. -/
theorem code_ofTokens_faults (tokens : Tokens) (faults : List LexicalFault) :
    (ofTokens { tokens with faults := faults }).code = (ofTokens tokens).code := by
  unfold ofTokens
  dsimp only
  split
  · split
    · exact code_ofTree_congr ..
    · rfl
    · rfl
  · rfl

theorem code_ofTokens_eq_openComment_iff (tokens : Tokens) :
    (ofTokens tokens).code = .error (some .openComment) ↔ tokens.complete = false := by
  unfold ofTokens
  dsimp only
  split
  · rename_i hcomplete
    rw [hcomplete]
    split
    · simp [code_ofTree_ne_openComment]
    · simp
    · simp
  · rename_i hcomplete
    simp [hcomplete]

end Compilation

/-- **When the lexer ends.** It ends with the first NUL past the end of a text if the text does not
open a comment without closing it, and otherwise it never ends. Only that breaks the compilation
down before the parser is called: whatever faults are noted in the text, its tokens are compiled as
if there were none. -/
theorem stopped_run_iff (text : List Char) :
    (∀ reads, (Lexer.run (reads + 1) text).mode = .stopped ↔ ¬ OpensComment text) ∧
      ((Compilation.ofTokens (tokenize text)).code = .error (some .openComment) ↔
        OpensComment text) ∧
      ∀ faults, (Compilation.ofTokens { tokenize text with faults := faults }).code =
        (Compilation.ofTokens (tokenize text)).code := by
  refine ⟨fun reads => Lexer.mode_run_iff reads text, ?_, Compilation.code_ofTokens_faults _⟩
  rw [Compilation.code_ofTokens_eq_openComment_iff, ← Bool.not_eq_true, complete_tokenize_iff,
    not_not]

end ScoreLang
