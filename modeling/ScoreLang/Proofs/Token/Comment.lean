import ScoreLang.Proofs.Token.Lexeme

/-!
# Comments

A comment ends with the first star and slash behind its opening; the star of the opening does not
count for it. The lexer keeps the text of a comment until its end, and only then complains if the
opening or the closing of another comment is found in it, the two delimiters included. So a slash
directly behind the opening or directly before the closing is a fault as well.

Whether it complains or not, the lexer goes on behind the comment, and the text there is read as it
would be read on its own (`State.behind`), with other numbers of lines.

## Main results

* `Lexer.feed_comment`: what the lexer does with a comment;
* `Lexer.feed_open`: what it does with one that is not closed;
* `tokenize_comment`: the token list of a text with a comment in it.
-/

namespace ScoreLang

open List

/-! ### Pairs of characters -/

namespace Lexer

theorem countPairs_cons (first second c : Char) (cs : List Char) :
    countPairs first second (c :: cs) =
      (if c = first ∧ cs.head? = some second then 1 else 0) + countPairs first second cs := by
  cases cs with
  | nil => simp [countPairs]
  | cons d cs => simp [countPairs]

theorem countPairs_append (first second : Char) (cs ds : List Char) :
    countPairs first second (cs ++ ds) = countPairs first second cs +
      (if cs.getLast? = some first ∧ ds.head? = some second then 1 else 0) +
        countPairs first second ds := by
  induction cs with
  | nil => simp [countPairs]
  | cons c cs ih =>
    rw [cons_append, countPairs_cons, ih, countPairs_cons]
    cases cs with
    | nil => simp [countPairs]
    | cons d cs => simp [Nat.add_assoc]

theorem countPairs_pos_iff {first second : Char} {cs : List Char} :
    0 < countPairs first second cs ↔ [first, second] <:+: cs := by
  induction cs with
  | nil => simp [countPairs]
  | cons c cs ih =>
    have hfront : [first, second] <+: c :: cs ↔ c = first ∧ cs.head? = some second := by
      cases cs with
      | nil => simp
      | cons d cs => simp [cons_prefix_cons, eq_comm]
    rw [countPairs_cons, infix_cons_iff, hfront, ← ih]
    split
    · rename_i hpair
      exact ⟨fun _ => .inl hpair, fun _ => by omega⟩
    · rename_i hpair
      rw [Nat.zero_add, or_iff_right hpair]

/-- A pair that occurs has a first occurrence. -/
theorem exists_first_pair {first second : Char} {cs : List Char} (h : [first, second] <:+: cs) :
    ∃ before after, cs = before ++ first :: second :: after ∧ ¬ [first, second] <:+: before := by
  induction cs with
  | nil => simp at h
  | cons c cs ih =>
    by_cases hfront : [first, second] <+: c :: cs
    · obtain ⟨after, hafter⟩ := hfront
      exact ⟨[], after, hafter.symm, by simp⟩
    · obtain ⟨before, after, rfl, hbefore⟩ := ih ((infix_cons_iff.1 h).resolve_left hfront)
      refine ⟨c :: before, after, rfl, ?_⟩
      rw [infix_cons_iff, not_or]
      refine ⟨fun hprefix => hfront ?_, hbefore⟩
      exact hprefix.trans (prefix_append (c :: before) _)

end Lexer

/-! ### The text of a comment -/

/-- The text between the delimiters of a comment has the opening of another comment in it, or forms
the closing or the opening of one together with the delimiters. -/
def NestedComment (body : List Char) : Prop :=
  ['/', '*'] <:+: body ∨ body.head? = some '/' ∨ body.getLast? = some '/'

instance (body : List Char) : Decidable (NestedComment body) :=
  decidable_of_iff (0 < Lexer.countPairs '/' '*' body ∨ body.head? = some '/' ∨
    body.getLast? = some '/') (or_congr Lexer.countPairs_pos_iff Iff.rfl)

namespace Lexer

theorem seenAs_eq_iff {c d : Char} (hspace : d ≠ ' ') (hline : d ≠ '\n') :
    seenAs c = d ↔ c = d := by
  unfold seenAs
  split
  · rename_i h
    subst h
    exact ⟨fun h => absurd h.symm hspace, fun h => absurd h.symm hline⟩
  · rfl

theorem countPairs_map_seenAs {first second : Char} (hfirst : first ≠ ' ' ∧ first ≠ '\n')
    (hsecond : second ≠ ' ' ∧ second ≠ '\n') (cs : List Char) :
    countPairs first second (cs.map seenAs) = countPairs first second cs := by
  induction cs with
  | nil => rfl
  | cons c cs ih =>
    have hhead : (cs.map seenAs).head? = some second ↔ cs.head? = some second := by
      cases cs with
      | nil => simp
      | cons d cs => simp [seenAs_eq_iff hsecond.1 hsecond.2]
    simp only [map_cons, countPairs_cons, ih, hhead, seenAs_eq_iff hfirst.1 hfirst.2]

variable {body seen : List Char} {s : State}

/-- The star before the last slash does not close a comment earlier. -/
theorem not_closed_append_star (h : ¬ ['*', '/'] <:+: body) :
    ¬ ['*', '/'] <:+: body ++ ['*'] := by
  rw [← countPairs_pos_iff] at h ⊢
  simpa [countPairs_append, countPairs] using h

theorem nestedComment_map_seenAs :
    NestedComment (body.map seenAs) ↔ NestedComment body := by
  simp only [NestedComment, ← countPairs_pos_iff, List.head?_map, List.getLast?_map,
    Option.map_eq_some_iff, countPairs_map_seenAs (show '/' ≠ ' ' ∧ '/' ≠ '\n' by decide)
      (show '*' ≠ ' ' ∧ '*' ≠ '\n' by decide),
    seenAs_eq_iff (show '/' ≠ ' ' by decide) (by decide), exists_eq_right]

/-- When the lexer complains about a comment. -/
theorem isNested_iff (h : ¬ ['*', '/'] <:+: body) :
    isNested ('*' :: body.reverse) = true ↔ NestedComment body := by
  have hclosed : countPairs '*' '/' body = 0 := by
    rwa [← countPairs_pos_iff, Nat.pos_iff_ne_zero, not_not] at h
  have hhead : (body ++ ['*', '/']).head? = some '/' ↔ body.head? = some '/' := by
    cases body with
    | nil => simp
    | cons c body => simp
  have hopen : countPairs '/' '*' (['/', '*'] ++ (body ++ ['*', '/'])) =
      1 + (countPairs '/' '*' body + if body.getLast? = some '/' then 1 else 0) := by
    rw [countPairs_append, countPairs_append]
    simp [countPairs]
  have hclose : countPairs '*' '/' (['/', '*'] ++ (body ++ ['*', '/'])) =
      (if body.head? = some '/' then 1 else 0) + 1 := by
    rw [countPairs_append, countPairs_append, hclosed]
    simp only [hhead]
    simp [countPairs]
  have hcomment : '/' :: '*' :: ('*' :: body.reverse).reverse ++ ['/'] =
      ['/', '*'] ++ (body ++ ['*', '/']) := by simp
  rw [isNested, hcomment, hopen, hclose, decide_eq_true_iff, NestedComment, ← countPairs_pos_iff]
  constructor
  · intro hmany
    by_contra hnone
    rw [not_or, not_or] at hnone
    rw [if_neg hnone.2.1, if_neg hnone.2.2] at hmany
    omega
  · rintro (hinside | hfirst | hlast)
    · omega
    · rw [if_pos hfirst]
      omega
    · rw [if_pos hlast]
      omega

/-! ### Reading a comment -/

theorem State.reach_zero {mode : Mode} (h : s.mode = mode) : s.reach mode 0 = s := by
  subst h
  rfl

theorem State.reach_reach (s : State) (mode mode' : Mode) (ends ends' : Nat) :
    (s.reach mode ends).reach mode' ends' = s.reach mode' (ends + ends') := by
  simp only [State.reach, Nat.add_assoc, Nat.add_comm ends ends', replicate_add,
    append_assoc]

theorem step_comment (hmode : s.mode = .comment seen) {c : Char}
    (hc : ¬ (seen.head? = some '*' ∧ c = '/')) :
    step s c = s.reach (.comment (seenAs c :: seen)) ([c].count '\n') := by
  rw [step_eq (by simp [hmode]), hmode, advance, State.reach]
  simp only [seenAs_eq_iff (show '/' ≠ ' ' by decide) (by decide), if_neg hc]
  rfl

/-- A comment goes on until its closing is read. -/
theorem feed_body (hbody : ¬ ['*', '/'] <:+: body) (hmode : s.mode = .comment seen)
    (hfirst : ¬ (seen.head? = some '*' ∧ body.head? = some '/')) :
    feed s body = s.reach (.comment ((body.map seenAs).reverse ++ seen)) (body.count '\n') := by
  induction body generalizing s seen with
  | nil => exact (State.reach_zero hmode).symm
  | cons c body ih =>
    have hstar : seenAs c = '*' ↔ c = '*' := seenAs_eq_iff (by decide) (by decide)
    rw [infix_cons_iff, not_or] at hbody
    have hnext : ¬ ((seenAs c :: seen).head? = some '*' ∧ body.head? = some '/') := by
      rintro ⟨hseen, hhead⟩
      obtain rfl := hstar.1 (Option.some.inj hseen)
      obtain ⟨body, rfl⟩ := List.head?_eq_some_iff.1 hhead
      exact hbody.1 ⟨body, rfl⟩
    rw [feed_cons, step_comment hmode (by simpa using hfirst), ih hbody.2 rfl hnext,
      State.reach_reach, ← count_append]
    simp

/-- **What the lexer does with a comment.** -/
theorem feed_comment (hbody : ¬ ['*', '/'] <:+: body) (hmode : s.mode = .between) (rest : List Char)
    :
    feed s ('/' :: '*' :: (body ++ '*' :: '/' :: rest)) =
      feed (if NestedComment body then
          (s.reach .between (body.count '\n')).complain .nestedComment
        else s.reach .between (body.count '\n')) rest := by
  have hopen : step (step s '/') '*' = s.reach (.comment []) 0 := by
    obtain ⟨mode, line, written, faults⟩ := s
    obtain rfl : mode = .between := hmode
    rfl
  have hinside := feed_body (not_closed_append_star hbody) (s := s.reach (.comment []) 0) rfl
    (by simp)
  have hnested : isNested ('*' :: (body.map seenAs).reverse) = true ↔ NestedComment body := by
    rw [isNested_iff, nestedComment_map_seenAs]
    rwa [← countPairs_pos_iff, countPairs_map_seenAs (by decide) (by decide), countPairs_pos_iff]
  have hclose : ∀ ends, step (s.reach (.comment ('*' :: (body.map seenAs).reverse)) ends) '/' =
      if NestedComment body then (s.reach .between ends).complain .nestedComment
      else s.reach .between ends := by
    intro ends
    rw [step_of_ne (by simp [State.reach]) (by decide), advance, State.reach]
    simp only [List.head?_cons, and_self, if_true, hnested]
    rfl
  have hsplit : body ++ '*' :: '/' :: rest = (body ++ ['*']) ++ '/' :: rest := by simp
  have hstar : (body ++ ['*']).count '\n' = body.count '\n' := by simp
  rw [feed_cons, feed_cons, hopen, hsplit, feed_append, hinside, State.reach_reach,
    feed_cons, hstar, Nat.zero_add, map_append, reverse_append, append_nil]
  exact congrArg (feed · rest) (hclose _)

/-- **What the lexer does with a comment that is not closed.** -/
theorem feed_open (hbody : ¬ ['*', '/'] <:+: body) (hmode : s.mode = .slash) :
    ∃ seen, (feed s ('*' :: body)).mode = .comment seen := by
  have hopen : step s '*' = s.reach (.comment []) 0 := by
    obtain ⟨mode, line, written, faults⟩ := s
    obtain rfl : mode = .slash := hmode
    rfl
  rw [feed_cons, hopen, feed_body hbody (s := s.reach (.comment []) 0) rfl (by simp)]
  exact ⟨_, rfl⟩

/-! ### The end of a text -/

theorem mode_run_comment {text : List Char} (h : (feed .initial text).mode = .comment seen)
    (reads : Nat) :
    ∃ seen, (run reads text).mode = .comment seen := by
  induction reads with
  | zero =>
    refine ⟨seen, ?_⟩
    change (feed .initial text).settle.mode = _
    rw [State.settle, if_neg (by simp [h]), h]
  | succ reads ih =>
    obtain ⟨seen, hseen⟩ := ih
    refine ⟨'\x00' :: seen, ?_⟩
    change (readNul (run reads text)).mode = _
    rw [readNul, step_comment hseen (by simp)]
    rfl

/-- **What the end of a text can do.** It is taken for a NUL that stops the lexer, or it is a fault
that stops it, or it is never noticed, as the lexer is in a comment. -/
theorem run_cases (text : List Char) :
    ((feed .initial (text ++ ['\x00'])).mode = .stopped ∧
        ∀ reads, run (reads + 1) text = feed .initial (text ++ ['\x00'])) ∨
      (∃ cause, ∀ reads, run (reads + 1) text =
        { (feed .initial text).complain cause with mode := .stopped }) ∨
      (∃ seen, (feed .initial text).mode = .comment seen) ∧
        ∀ reads, ∃ seen, (run reads text).mode = .comment seen := by
  have hsound : (feed .initial text).Sound := feed_induct (fun _ c h => h.step c) .initial text
  have hfault : ∀ {cause}, (feed .initial text).mode ≠ .faulted →
      step (feed .initial text) '\x00' = (feed .initial text).complain cause →
      ∀ reads, run (reads + 1) text = { (feed .initial text).complain cause with mode :=
        .stopped } := by
    intro cause hmode hstep reads
    induction reads with
    | zero =>
      change readNul (feed .initial text).settle = _
      rw [State.settle, if_neg hmode, readNul, hstep]
      rfl
    | succ reads ih => exact (congrArg readNul ih).trans (readNul_stopped rfl)
  by_cases hends : (feed .initial text).mode.endsAtNul
  · have hstop : (feed .initial (text ++ ['\x00'])).mode = .stopped := by
      rw [feed_append]
      exact mode_step_nul hends
    exact .inl ⟨hstop, run_of_stops hstop⟩
  cases hmode : (feed .initial text).mode with
  | number seen =>
    refine .inr (.inl ⟨.afterNumber '\x00', hfault (by simp [hmode]) ?_⟩)
    rw [step_of_ne (by simp [hmode]) (by decide), advance, hmode]
    rfl
  | twin sign =>
    refine .inr (.inl ⟨.unpaired sign '\x00', hfault (by simp [hmode]) ?_⟩)
    have hsign : isTwin sign = true := by
      have htwin := hsound.mode
      rwa [hmode] at htwin
    rw [step_of_ne (by simp [hmode]) (by decide), advance, hmode]
    refine if_neg ?_
    rintro rfl
    exact Bool.noConfusion hsign
  | comment seen => exact .inr (.inr ⟨⟨seen, rfl⟩, mode_run_comment hmode⟩)
  | between | faulted | word | comparison | slash | stopped => simp [hmode, Mode.endsAtNul] at hends

end Lexer

/-- If the lexer finds no fault and comes to an end, then it takes the end of the text for a NUL. -/
theorem feed_of_tokenize {text : List Char} (hcomplete : (tokenize text).complete = true)
    (hfaults : (tokenize text).faults = []) :
    (Lexer.feed .initial (text ++ ['\x00'])).mode = .stopped ∧
      (Lexer.feed .initial (text ++ ['\x00'])).faults = [] ∧
      (Lexer.feed .initial (text ++ ['\x00'])).written.reverse = (tokenize text).lines := by
  have hstop : (Lexer.run patience text).mode = .stopped := by simpa [tokenize] using hcomplete
  have hnone : (Lexer.run patience text).faults = [] := by simpa [tokenize] using hfaults
  rcases Lexer.run_cases text with ⟨hmode, hrun⟩ | ⟨cause, hrun⟩ | ⟨-, hrun⟩
  · have hend : Lexer.run patience text = _ := hrun 49
    exact ⟨hmode, by rw [← hend, hnone], by rw [← hend, tokenize]⟩
  · have hend : Lexer.run patience text = _ := hrun 49
    rw [hend] at hnone
    exact absurd hnone (cons_ne_nil _ _)
  · obtain ⟨seen, hseen⟩ := hrun patience
    exact Lexer.Mode.noConfusion (hseen.symm.trans hstop)

namespace Lexer

/-! ### A text behind another one -/

/-- The line ends are counted as they are read. -/
theorem line_feed {s : State} {text : List Char} (h : (feed s text).mode ≠ .stopped) :
    (feed s text).line = s.line + text.count '\n' := by
  induction text generalizing s with
  | nil => rfl
  | cons c text ih =>
    have hmode : s.mode ≠ .stopped := by
      intro hmode
      rw [feed_stopped hmode] at h
      exact h hmode
    obtain ⟨mode, tokens, causes, hstep⟩ := step_reacts hmode c
    rw [feed_cons] at h ⊢
    rw [ih h, hstep, State.reach, Nat.add_assoc, ← count_append]
    rfl

end Lexer

/-- A fault that is found some lines further down. -/
def LexicalFault.later (fault : LexicalFault) (lines : Nat) : LexicalFault :=
  { fault with line := fault.line + lines }

namespace Lexer

/-- The state of the lexer behind a text with some line ends, of which some lines and faults are
left; `s` is the state that it would have without that text. -/
def State.behind (s : State) (ends : Nat) (written : List TokenLine) (faults : List LexicalFault) :
    State :=
  ⟨s.mode, s.line + ends, s.written ++ written, s.faults.map (·.later ends) ++ faults⟩

section Behind

variable (s : State) (ends : Nat) (written : List TokenLine) (faults : List LexicalFault)

theorem begin_behind (c : Char) :
    begin (s.behind ends written faults) c = (begin s c).behind ends written faults := by
  simp only [begin, apply_ite fun state : State => state.behind ends written faults]
  rfl

theorem advance_behind (c : Char) :
    advance (s.behind ends written faults) c = (advance s c).behind ends written faults := by
  have hemit : ∀ kind spelling, begin ((s.behind ends written faults).emit kind spelling) c =
      (begin (s.emit kind spelling) c).behind ends written faults :=
    fun kind spelling => begin_behind (s.emit kind spelling) ends written faults c
  obtain ⟨mode, line, written, faults⟩ := s
  cases mode with
  | stopped => rfl
  | between | faulted => exact begin_behind _ _ _ _ c
  | word | number | comparison | twin | slash | comment =>
    simp only [advance, State.behind]
    split_ifs <;> first | rfl | exact hemit _ _

theorem step_behind (c : Char) :
    step (s.behind ends written faults) c = (step s c).behind ends written faults := by
  have hsame : (s.behind ends written faults).mode = s.mode := rfl
  by_cases hmode : s.mode = .stopped
  · rw [step, hsame, if_pos hmode, step, if_pos hmode]
  · have henter : (s.behind ends written faults).reach s.mode ([c].count '\n') =
        (s.reach s.mode ([c].count '\n')).behind ends written faults := by
      simp [State.reach, State.behind, Nat.add_right_comm]
    rw [step_eq (s := s.behind ends written faults) hmode, step_eq hmode, ← advance_behind,
      ← henter]
    rfl

theorem feed_behind (text : List Char) :
    feed (s.behind ends written faults) text = (feed s text).behind ends written faults := by
  induction text generalizing s with
  | nil => rfl
  | cons c text ih => rw [feed_cons, step_behind, ih, feed_cons]

theorem settle_behind :
    (s.behind ends written faults).settle = s.settle.behind ends written faults := by
  have hsame : (s.behind ends written faults).mode = s.mode := rfl
  unfold State.settle
  rw [hsame]
  split <;> rfl

/-- The effect of the rest of a text and of its end. -/
def finish (reads : Nat) (s : State) (text : List Char) : State :=
  Nat.repeat readNul reads (feed s text).settle

theorem finish_behind (reads : Nat) (text : List Char) :
    finish reads (s.behind ends written faults) text =
      (finish reads s text).behind ends written faults := by
  induction reads with
  | zero => exact (congrArg State.settle (feed_behind ..)).trans (settle_behind ..)
  | succ reads ih =>
    change readNul (finish reads _ text) = (readNul (finish reads s text)).behind ..
    rw [ih, readNul, step_behind, settle_behind, readNul]

end Behind

/-- Where a token can begin, it does not matter in which mode the lexer is. -/
theorem begin_withMode (s : State) (mode : Mode) (c : Char) :
    begin { s with mode := mode } c = begin s c :=
  rfl

/-- The lexer goes on after a fault as it does between two tokens. -/
theorem finish_faulted {s : State} (h : s.mode = .faulted) (reads : Nat) (text : List Char) :
    finish (reads + 1) s text = finish (reads + 1) { s with mode := .between } text := by
  obtain ⟨mode, line, written, faults⟩ := s
  obtain rfl : mode = .faulted := h
  induction reads with
  | zero =>
    cases text with
    | nil => rfl
    | cons c text =>
      have hstep : step ⟨.faulted, line, written, faults⟩ c =
          step ⟨.between, line, written, faults⟩ c := by
        rw [step_eq (by simp), step_eq (by simp)]
        exact begin_withMode (State.reach ⟨.between, line, written, faults⟩ _ _) .faulted _
      rw [finish, feed_cons, hstep]
      rfl
  | succ reads ih => exact congrArg readNul ih

theorem run_of_between {text : List Char} (h : (feed .initial text).mode = .between)
    (reads : Nat) : run (reads + 1) text = { feed .initial text with mode := .stopped } := by
  have hnul : feed .initial (text ++ ['\x00']) = { feed .initial text with mode := .stopped } := by
    rw [feed_append, feed_cons, step_of_ne (by simp [h]) (by decide), advance, h]
    rfl
  rw [run_of_stops (by rw [hnul]), hnul]

/-- The lexer goes on behind a comment as it would begin with the text there. -/
theorem run_comment {before body after : List Char}
    (hbefore : (feed .initial before).mode = .between) (hbody : ¬ ['*', '/'] <:+: body)
    (reads : Nat) :
    run (reads + 1) (before ++ '/' :: '*' :: (body ++ '*' :: '/' :: after)) =
      (run (reads + 1) after).behind ((before ++ body).count '\n')
        (List.replicate (body.count '\n') .enter ++ (feed .initial before).written)
        ((if NestedComment body then [⟨1 + (before ++ body).count '\n', .nestedComment⟩] else []) ++
          (feed .initial before).faults) := by
  have hline : (feed .initial before).line + body.count '\n' = 1 + (before ++ body).count '\n' := by
    rw [line_feed (by simp [hbefore]), count_append, ← Nat.add_assoc]
    rfl
  change finish (reads + 1) .initial _ = _
  rw [finish, feed_append, feed_comment hbody hbefore]
  change finish (reads + 1) _ after = _
  change _ = (finish (reads + 1) .initial after).behind ..
  rw [← finish_behind]
  split
  · refine (finish_faulted rfl reads after).trans ?_
    rw [State.complain, State.reach, hline]
    rfl
  · rw [State.reach, hline]
    rfl

end Lexer

/-- **A text with a comment in it.** If the lexer stands between two tokens before a comment, then
it writes what it writes for the text before the comment, a mark for each line end in the comment,
and what it writes for the text behind the comment alone. It complains about the comment if and
only if the opening or the closing of another comment is found in it. -/
theorem tokenize_comment {before body after : List Char}
    (hbefore : (Lexer.feed .initial before).mode = .between) (hbody : ¬ ['*', '/'] <:+: body) :
    tokenize (before ++ '/' :: '*' :: (body ++ '*' :: '/' :: after)) =
      { lines := (tokenize before).lines ++ List.replicate (body.count '\n') .enter ++
          (tokenize after).lines
        lastLine := (tokenize after).lastLine + (before ++ body).count '\n'
        faults := (tokenize before).faults ++
          (if NestedComment body then [⟨1 + (before ++ body).count '\n', .nestedComment⟩]
          else []) ++
          (tokenize after).faults.map (·.later ((before ++ body).count '\n'))
        complete := (tokenize after).complete } := by
  have hfirst : Lexer.run patience before = _ := Lexer.run_of_between hbefore 49
  have hrun := @Lexer.run_comment _ _ after hbefore hbody 49
  rw [show 49 + 1 = patience from rfl] at hrun
  have hfaults : (if NestedComment body then
      [LexicalFault.mk (1 + (before ++ body).count '\n') .nestedComment] else []).reverse =
      if NestedComment body then [⟨1 + (before ++ body).count '\n', .nestedComment⟩] else [] := by
    split <;> rfl
  rw [tokenize, hrun, tokenize, tokenize, hfirst]
  generalize Lexer.run patience after = last
  simp only [Lexer.State.behind, reverse_append, hfaults, map_reverse,
    reverse_replicate, append_assoc]
  rfl

/-- A comment over two lines that ends with a slash before its closing, behind a token that waits
for a line end, and before a text with a fault of its own. -/
theorem tokenize_comment_slash :
    (Lexer.feed .initial "a\n".toList).mode = .between ∧ ¬ ['*', '/'] <:+: " b\n/".toList ∧
      tokenize "a\n/* b\n/*/\nc$".toList =
        ⟨[.enter, .token ⟨.name, "a"⟩, .enter, .enter, .token ⟨.name, "c"⟩], 4,
          [⟨3, .nestedComment⟩, ⟨4, .strayCharacter '$'⟩], true⟩ := by
  have hbefore : (Lexer.feed .initial "a\n".toList).mode = .between := by decide
  have hbody : ¬ ['*', '/'] <:+: " b\n/".toList := by
    rw [← Lexer.countPairs_pos_iff]
    decide
  have htext := @tokenize_comment _ _ "\nc$".toList hbefore hbody
  exact ⟨hbefore, hbody, htext.trans (by decide +kernel)⟩

end ScoreLang
