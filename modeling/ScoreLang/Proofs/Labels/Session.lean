import ScoreLang.Proofs.Labels.Machine
import ScoreLang.Proofs.Labels.Program
import ScoreLang.Proofs.Parse.Program

/-!
# Programs Compiled One after the Other

Programs may be compiled one after the other, and then the labels of each are numbered on from those
of the programs before, whether these could be compiled or not. The numbers do not matter: a program
that is compiled after others behaves as if it had been compiled alone.

## Main results

* `Alike`: what two compilations of a program have in common;
* `session_alike`: every program of a session behaves as if it had been compiled alone.
-/

namespace ScoreLang

open List Generator Machine

variable {n : Nat}

/-! ### Compilations of the same program -/

/-- Two compilations of a program are the same up to the numbers of the labels, and so are the runs
of the two codes. -/
structure Alike (n : Nat) (first second : Except CodeFault Unit × Generator) : Prop where
  /-- Both of them succeed, or none. -/
  succeeds : second.1 = .ok () ↔ first.1 = .ok ()
  /-- If they fail, then for the same reason. -/
  fault : ∀ fault, first.1 = .error fault → ∃ fault', second.1 = .error fault' ∧ fault.Renamed
    n fault'
  /-- The console shows the same. -/
  report : generateReport second = generateReport first
  /-- The same lines are written. -/
  written : second.2.written = first.2.written.map (CodeLine.renumber n)
  /-- After any number of steps, the machine is in the same state and has the same reason to stop,
  and it has read the same commands. -/
  runs : first.1 = .ok () → ∀ (input : List String) (budget : Nat),
    run (.ofText second.2.code) input budget = (run (.ofText first.2.code) input budget).renumber n

theorem Generator.code_renumber (g : Generator) (n : Nat) :
    (g.renumber n).code = CodeLine.listText (g.written.toList.map (CodeLine.renumber n)) := by
  change CodeLine.listText (g.written.map (CodeLine.renumber n)).toList = _
  rw [Array.toList_map]

theorem Matches.alike {first second : Except CodeFault Unit × Generator}
    (h : Matches n Done (fun _ => Between) first second) : Alike n first second := by
  cases h with
  | @ok _ _ g _ hbetween =>
    refine ⟨Iff.rfl, by simp, rfl, rfl, fun _ input budget => ?_⟩
    have hregular : ∀ line ∈ g.written.toList, line.Regular := fun line hline =>
      hbetween.regular.written line (Array.mem_toList_iff.1 hline)
    rw [code_renumber]
    exact (Code.renumbered_ofText hregular n).run input budget
  | error hfault =>
    refine ⟨by simp, fun fault hfirst => ?_, rfl, rfl, by simp⟩
    obtain rfl := Except.error.inj hfirst
    exact ⟨_, rfl, hfault⟩

/-! ### Sessions -/

/-- What becomes of the program in a text, with labels that are numbered on from `labels`; `none` if
there is no program in it. -/
def compileFrom (labels : Nat) (text : List Char) : Option (Except CodeFault Unit × Generator) :=
  let tokens := tokenize text
  if tokens.complete then (parse tokens.lines).toOption.map fun parsed =>
    generate parsed.tree labels
  else none

/-- The number of labels that have been used up after a text has been compiled. A program that
cannot be compiled has used up labels, too. -/
def labelsAfter (labels : Nat) (text : List Char) : Nat :=
  (compileFrom labels text).elim labels fun result => result.2.labels

/-- What becomes of texts that are compiled one after the other. -/
def session (labels : Nat) : List (List Char) → List (Option (Except CodeFault Unit × Generator))
  | [] => []
  | text :: texts => compileFrom labels text :: session (labelsAfter labels text) texts

/-- A text is compiled with the labels that the texts before have left. -/
theorem getElem?_session (labels : Nat) (before after : List (List Char)) (text : List Char) :
    (session labels (before ++ text :: after))[before.length]?
      = some (compileFrom (before.foldl labelsAfter labels) text) := by
  induction before generalizing labels with
  | nil => rfl
  | cons first before ih =>
    rw [cons_append, session, length_cons, List.getElem?_cons_succ, foldl_cons]
    exact ih (labelsAfter labels first)

/-- **The numbers of labels do not matter**: whatever number they begin with, the same becomes of a
program, and the machine does the same with its code. In a session every program is compiled as if
it were alone. -/
theorem session_alike {text : List Char} {parsed : Parsed}
    (hparse : parse (tokenize text).lines = .ok parsed) :
    (∀ n, Alike n (generate parsed.tree 0) (generate parsed.tree n)) ∧
      ((tokenize text).complete = true → ∀ before after : List (List Char), ∃ result,
        (session 0 (before ++ text :: after))[before.length]? = some (some result) ∧
        Alike (before.foldl labelsAfter 0) (generate parsed.tree 0) result) := by
  obtain ⟨program, hshape⟩ := parse_tokenize hparse
  have halike : ∀ n, Alike n (generate parsed.tree 0) (generate parsed.tree n) := by
    intro n
    have hmatches := generate_matches hshape 0 n
    rw [Nat.zero_add] at hmatches
    exact hmatches.alike
  refine ⟨halike, fun hcomplete before after => ⟨_, ?_, halike _⟩⟩
  rw [getElem?_session, compileFrom, if_pos hcomplete, hparse]
  rfl

/-- A program with a function, a loop and a choice. -/
def countText : String :=
  "function less(int a)\x7b return a - 1; \x7d " ++
    "main()\x7b int b; read b; while (b) \x7b if (b > 2) write b; b = call less(b); \x7d \x7d"

/-- The program is compiled twice, and the second code behaves like the first one. -/
theorem session_alike_count : ∃ parsed, parse (tokenize countText.toList).lines = .ok parsed ∧
    (generate parsed.tree 0).1 = .ok () ∧ ∃ result,
      (session 0 [countText.toList, countText.toList])[1]? = some (some result) ∧
      Alike (labelsAfter 0 countText.toList) (generate parsed.tree 0) result := by
  have hread : (parse (tokenize countText.toList).lines).toOption.map
      (fun parsed => (generate parsed.tree 0).1.toOption) = some (some ()) := by
    decide +kernel
  simp only [Option.map_eq_some_iff, toOption_eq_some] at hread
  obtain ⟨parsed, hparse, hgenerate⟩ := hread
  have hcomplete : (tokenize countText.toList).complete = true := by decide +kernel
  have hsession := (session_alike hparse).2 hcomplete [countText.toList] []
  rw [singleton_append, length_singleton, foldl_cons, foldl_nil] at hsession
  exact ⟨parsed, hparse, hgenerate, hsession⟩

end ScoreLang
