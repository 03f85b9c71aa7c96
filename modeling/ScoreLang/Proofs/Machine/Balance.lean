import ScoreLang.Proofs.Code.Coverage
import ScoreLang.Proofs.Machine.Running

/-!
# What Is Left on the Stack

Statements are to leave the stack as they find it, and a call is to put one value in the place of
its arguments. This holds in programs without logical operators, for statements, and switches with
several numbers over values whose code has more than one line (`Program.exact`): these leave values
on the stack, or take some that do not belong to them.

The code of a statement is a block of its own. The machine may enter it in any state; when it comes
to the end of the block, with the same calls pending as before, then nothing has been done to the
values that were on the stack.

## Main results

* `Until`: the machine comes to a place for the first time;
* `ProgramCode.Follows.exchanges`: what some lines do to the stack;
* `generate_balanced`: **statements leave the stack as it is, and a call leaves one value**.
-/

namespace ScoreLang

open List Machine

/-! ### To the end of a block -/

namespace Machine

/-- The machine comes to a place, for the first time with the given calls pending. -/
inductive Until (code : Code) (returns : List Nat) (place : Nat) : State → State → Prop where
  /-- It is there. -/
  | here {s : State} : s.returns = returns → s.next = some place → Until code returns place s s
  /-- It is not there yet. -/
  | move {s t u : State} : ¬(s.returns = returns ∧ s.next = some place) → Moves code s t →
      Until code returns place t u → Until code returns place s u

end Machine

section Blocks

variable {machine : Code} {code : ProgramCode} {program : Program} {s t : State}
  {bottom below : List Value} {block own : Block} {returns : List Nat} {height : Nat}

/-- The only block that is active when no further call is pending. -/
def Block.Alone (own : Block) (returns : List Nat) (returns' : List Nat) (block : Block) : Prop :=
  returns' = returns ∧ block = own

/-- As long as calls are pending, the machine will come back to more lines. -/
theorem Pending.length_le {counted : Prop} {returns' : List Nat}
    (h : Pending code program counted (own.Alone returns) bottom returns' block below) :
    returns.length ≤ returns'.length := by
  induction h with
  | base hbase => rw [hbase.1]
  | call _ _ _ _ _ ih => exact Nat.le_succ_of_le ih

/-- **The machine comes to the end of a block**: nothing has been done to the values below. -/
theorem Running.until (hholds : machine.Holds code.lines) (hcode : code.Follows program True)
    (hobeys : own.Obeys code program True) (hhead : own.head = [])
    (h : Running code program True machine (own.Alone returns) bottom s block below height)
    (huntil : Until machine returns (machine.settle own.stop) s t) :
    ∃ values, t.stack = values ++ bottom ∧ values.length = own.final := by
  have hbase : ∀ {returns' block}, own.Alone returns returns' block →
      block.Obeys code program True := fun hbase => hbase.2 ▸ hobeys
  induction huntil generalizing block below height with
  | @here s hreturns hnext =>
    obtain ⟨values, hstack, hlength⟩ := h.stack trivial
    have hpending := h.pending
    rw [hreturns] at hpending
    cases hpending with
    | call hcaller => exact absurd hcaller.length_le (by simp)
    | base halone =>
      obtain ⟨-, rfl⟩ := halone
      refine ⟨values, hstack, hlength.trans ?_⟩
      cases h.contains with
      | head henters =>
        obtain ⟨label, hlabel⟩ := henters.head
        rw [hhead] at hlabel
        cases hlabel
      | @body second place _ hbody =>
        obtain ⟨first, hspot⟩ := hbody.spot
        cases second with
        | nil =>
          cases hspot.ahead with
          | nil hheight => exact hheight (hobeys.counted_eq ▸ trivial)
        | cons line second =>
          -- a command of the block stands before its end
          have hplace := (hbody.next_eq hholds).symm.trans hnext
          have hle := machine.le_settle block.stop
          rw [← Option.some.inj hplace, hspot.place_eq, Block.stop, Block.lines,
            hspot.body] at hle
          simp only [length_append, length_cons] at hle
          omega
  | move hnot hmove _ ih =>
    rcases h.moves hholds hcode hbase hmove with ⟨_, _, _, h'⟩ | ⟨⟨hreturns, rfl⟩, -, hnext, -⟩
    · exact ih h'
    · exact absurd ⟨hreturns, hnext⟩ hnot

/-- **What some lines do to the stack**, wherever they stand in the code. -/
theorem ProgramCode.Follows.exchanges (hholds : machine.Holds code.lines)
    (hcode : code.Follows program True) {lines before after : List CodeLine} {count final : Nat}
    (hfollows : ((code.discipline program True).within lines).Follows count lines final)
    (hlines : code.lines = before ++ (lines ++ after)) {taken rest : List Value}
    (hnext : s.next = some (machine.settle before.length)) (hstack : s.stack = taken ++ rest)
    (hlength : taken.length = count)
    (huntil : Until machine s.returns (machine.settle (before.length + lines.length)) s t) :
    ∃ given, t.stack = given ++ rest ∧ given.length = final := by
  obtain ⟨own, hown⟩ : ∃ own : Block, own = ⟨before.length, [],
      (code.discipline program True).within lines, count, lines, final⟩ := ⟨_, rfl⟩
  have hobeys : own.Obeys code program True := hown ▸ ⟨rfl, id, fun _ => id⟩
  have hspot : own.Spot code.lines [] lines before.length count := by
    rw [hown]
    exact ⟨rfl, ⟨before, after, hlines, rfl⟩, rfl, .refl _, hfollows⟩
  obtain ⟨first, second, place, height, hplace, hsettle, hheight, hcommand⟩ := hspot.settle hholds
  have hstop : own.stop = before.length + lines.length := by rw [hown]; rfl
  have hrunning : Running code program True machine (own.Alone s.returns) rest s own rest height :=
    ⟨.base ⟨rfl, rfl⟩, .body ⟨hnext.trans (congrArg some hsettle.symm), ⟨first, hplace⟩, hcommand⟩,
      fun _ => ⟨taken, hstack, by rw [hlength, hheight (hobeys.counted_eq ▸ trivial)]⟩⟩
  rw [← hstop] at huntil
  obtain ⟨given, hgiven, hfinal⟩ := hrunning.until hholds hcode hobeys (by rw [hown]) huntil
  exact ⟨given, hgiven, by rw [hfinal, hown]⟩

end Blocks

/-! ### Programs -/

/-- If a phrase leaves nothing on the stack, then neither do the statements of which it consists. -/
theorem Stmt.exact_of_mem_all {part : Part} {t : Stmt part} (h : t.exact = true)
    {s : Σ dangling, Stmt (.statement dangling)} (hs : s ∈ t.all) : s.2.exact = true := by
  induction t with
  | empty | expression | read | write | jump | «return» =>
    obtain rfl := mem_singleton.1 hs
    exact h
  | done | noClause => cases hs
  | «for» => cases h
  | default _ _ ih => exact ih h hs
  | compound _ ih =>
    rcases mem_cons.1 hs with rfl | hs
    · exact h
    · exact ih h hs
  | ifThen _ _ _ ih | «while» _ _ _ ih =>
    rcases mem_cons.1 hs with rfl | hs
    · exact h
    · exact ih (Bool.and_eq_true_iff.1 h).2 hs
  | doWhile _ _ ih =>
    rcases mem_cons.1 hs with rfl | hs
    · exact h
    · exact ih (Bool.and_eq_true_iff.1 h).1 hs
  | ifElse _ _ _ _ ih ih' | switch _ _ _ _ _ ih ih' =>
    have hparts := Bool.and_eq_true_iff.1 h
    rcases mem_cons.1 hs with rfl | hs
    · exact h
    · rcases mem_append.1 hs with hs | hs
      · exact ih (Bool.and_eq_true_iff.1 hparts.1).2 hs
      · exact ih' hparts.2 hs
  | next _ _ ih ih' | clause _ _ _ _ ih ih' =>
    rcases mem_append.1 hs with hs | hs
    · exact ih (Bool.and_eq_true_iff.1 h).1 hs
    · exact ih' (Bool.and_eq_true_iff.1 h).2 hs

theorem Program.exact_body {program : Program} (h : program.exact = true) {body : Body}
    (hbody : body ∈ program.bodies) : body.steps.exact = true := by
  simp only [exact, Body.exact, Bool.and_eq_true, all_eq_true] at h
  rcases mem_append.1 hbody with hbody | hbody
  · obtain ⟨function, hfunction, rfl⟩ := mem_map.1 hbody
    exact (h.1.2 function hfunction).2
  · obtain rfl := mem_singleton.1 hbody
    exact h.2.2

/-- What statements and expressions do to the stack when the machine runs the lines in which their
code stands. -/
structure Balances (machine : Code) (lines : List CodeLine) (scopes : Scopes) (result : String)
    (steps : Stmt .statements) : Prop where
  /-- Every statement has its code among the lines. -/
  stands : ∀ s ∈ steps.all, Stmt.Stands scopes result s.2 lines
  /-- After a statement the stack is what it was before, if its jumps stay in it. Nothing is said
  about a statement with a jump that leads out of it. -/
  statement : ∀ s ∈ steps.all, s.2.placed false false = true →
    ∀ {m m' : Marks} {own before after : List CodeLine},
      Stmt.Coded .lasting scopes result s.2 none m own m' → lines = before ++ (own ++ after) →
      ∀ {u v : State},
        u.next = some (machine.settle before.length) →
        Until machine u.returns (machine.settle (before.length + own.length)) u v →
        v.stack = u.stack
  /-- After an expression there is one more value. -/
  expression : ∀ {e : Expr .expression} {own before after : List CodeLine}, e.exact = true →
    e.code scopes = some own → lines = before ++ (own ++ after) → ∀ {u v : State},
      u.next = some (machine.settle before.length) →
      Until machine u.returns (machine.settle (before.length + own.length)) u v →
      ∃ value, v.stack = value :: u.stack

section Balances

variable {machine : Code} {code : ProgramCode} {program : Program} {labels : Nat}

theorem ProgramCode.Follows.exists_codedIn (h : code.Follows program True) {body : Body}
    (hbody : body ∈ program.bodies) : ∃ lines, lines <:+: code.lines ∧
      body.CodedIn (Calls program.functions code.functions) lines := by
  rcases mem_append.1 hbody with hbody | hbody
  · obtain ⟨function, hfunction, rfl⟩ := mem_map.1 hbody
    obtain ⟨i, hi, rfl⟩ := getElem_of_mem hfunction
    obtain ⟨hlength, hfunctions⟩ := forall₂_iff_get.1 h.functions
    obtain ⟨segment, hlines, -, hcoded⟩ := hfunctions i hi (hlength ▸ hi)
    exact ⟨segment.body, ProgramCode.infix_segment (hlines ▸ get_mem _ _), hcoded⟩
  · obtain rfl := mem_singleton.1 hbody
    exact ⟨code.main, code.infix_main, h.steps⟩

theorem ProgramCode.Follows.balances (hholds : machine.Holds code.lines)
    (h : code.Follows program True) (hexact : program.exact = true) {body : Body}
    (hbody : body ∈ program.bodies) :
    ∃ scopes result, Balances machine code.lines scopes result body.steps := by
  obtain ⟨part, hpart, scopes, result, m, m', first, steps, hcalls, hcoded, rfl⟩ :=
    h.exists_codedIn hbody
  have hgoes : ∀ lines, ((code.discipline program True).within lines).GoesOn := fun _ _ _ => trivial
  refine ⟨scopes, result, ?_, ?_, ?_⟩
  · intro s hs
    obtain ⟨k, k', own, hown, hstands⟩ := hcoded.stands hs
    exact ⟨k, k', own, hown, (hstands.trans (suffix_append first steps).isInfix).trans hpart⟩
  · intro s hs hplaced k k' own before after hown hlines u v hnext huntil
    have hfollows : ((code.discipline program True).within own).Follows 0 own 0 :=
      (Stmt.follows hcalls (hgoes own) hown (by simp) hplaced ⟨by simp, by simp⟩ (fun _ => id)
        fun _ => Stmt.exact_of_mem_all (Program.exact_body hexact hbody) hs).1
    obtain ⟨given, hstack, hgiven⟩ :=
      h.exchanges hholds hfollows hlines hnext (nil_append _).symm rfl huntil
    rwa [length_eq_zero_iff.1 hgiven] at hstack
  · intro e own before after hvalue hown hlines u v hnext huntil
    have hfollows : ((code.discipline program True).within own).Follows 0 own 1 :=
      Expr.follows hcalls (fun _ => trivial) (fun _ => hvalue) hown 0
    obtain ⟨given, hstack, hgiven⟩ :=
      h.exchanges hholds hfollows hlines hnext (nil_append _).symm rfl huntil
    obtain ⟨value, rfl⟩ := length_eq_one_iff.1 hgiven
    exact ⟨value, hstack⟩

/-- A call takes its arguments and leaves one value. -/
theorem ProgramCode.Follows.balances_call (hholds : machine.Holds code.lines)
    (h : code.Follows program True) {label : String} {count place : Nat}
    {u v : State} {given rest : List Value}
    (hcall : Calls program.functions code.functions label count)
    (hline : code.lines[place]? = some (Operation.call.line label)) (hnext : u.next = some place)
    (hstack : u.stack = given ++ rest) (hgiven : given.length = count)
    (huntil : Until machine u.returns (machine.settle (place + 1)) u v) :
    ∃ value, v.stack = value :: rest := by
  obtain ⟨hplace, hget⟩ := List.getElem?_eq_some_iff.1 hline
  have hlines : code.lines = code.lines.take place ++ ([Operation.call.line label] ++
      code.lines.drop (place + 1)) := by
    rw [← hget, singleton_append, getElem_cons_drop, take_append_drop]
  have hlength : (code.lines.take place).length = place := length_take_of_le hplace.le
  have hfollows : ((code.discipline program True).within [Operation.call.line label]).Follows count
      [Operation.call.line label] 1 :=
    .cons (.call hcall fun _ => ⟨0, (Nat.zero_add count).symm, rfl⟩) (.refl 1)
  obtain ⟨values, hvalues, hone⟩ := h.exchanges hholds hfollows hlines
    (by rw [hlength, hnext, hholds.settle_command hline]) hstack hgiven (by rwa [hlength])
  obtain ⟨value, rfl⟩ := length_eq_one_iff.1 hone
  exact ⟨value, hvalues⟩

end Balances

/-- **What is left on the stack** by a program in which no semicolon stands alone and every jump is
placed, without logical operators, for statements, and switches with several numbers over more than
one line of code. Statements leave the stack as it is. An expression leaves its value, whatever the
functions do that it calls: a call takes its arguments and leaves one value. -/
theorem generate_balanced {tree : SyntaxTree} {program : Program} {labels : Nat} {g : Generator}
    (hshape : tree.shape = program.tree) (hplain : program.plain = true)
    (hplaced : program.placed = true) (hexact : program.exact = true)
    (h : generate tree labels = (.ok (), g)) :
    ∃ code : ProgramCode, g.written.toList = code.lines ∧
      (∀ body ∈ program.bodies, ∃ scopes result,
        Balances (Code.ofText g.code) code.lines scopes result body.steps) ∧
      ∀ {label : String} {count place : Nat} {u v : State} {given rest : List Value},
        Calls program.functions code.functions label count →
        code.lines[place]? = some (Operation.call.line label) → u.next = some place →
        u.stack = given ++ rest → given.length = count →
        Until (Code.ofText g.code) u.returns ((Code.ofText g.code).settle (place + 1)) u v →
        ∃ value, v.stack = value :: rest := by
  obtain ⟨code, hcode, hwritten, -⟩ := generate_plain hshape hplain h
  have hholds := generate_holds hshape h hcode hwritten
  have hfollows : code.Follows program True := Program.code_follows hplaced (fun _ => hexact) hcode
  exact ⟨code, hwritten, fun body hbody => hfollows.balances hholds hexact hbody,
    hfollows.balances_call hholds⟩

theorem generate_balanced_calling : ∃ parsed g, ∃ code : ProgramCode,
    parse (tokenize callingText.toList).lines = .ok parsed ∧
    generate parsed.tree 0 = (.ok (), g) ∧ g.written.toList = code.lines ∧
    ∀ body ∈ calling.bodies, ∃ scopes result,
      Balances (Code.ofText g.code) code.lines scopes result body.steps := by
  obtain ⟨parsed, g, hparse, hshape, hok⟩ := exists_generate_calling
  obtain ⟨code, hwritten, hbodies, -⟩ := generate_balanced hshape (by decide +kernel)
    (by decide +kernel) (by decide +kernel) hok
  exact ⟨parsed, g, code, hparse, hok, hwritten, hbodies⟩

end ScoreLang
