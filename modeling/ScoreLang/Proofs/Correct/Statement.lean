import ScoreLang.Proofs.Correct.Expression

/-!
# The Code of a Statement Does What the Statement Means

A piece of code *realises* a relation between configurations if the machine gets through it exactly
in the ways that the relation allows: where the relation leads from one configuration to another
one, the machine goes from the start of the piece to its end, and where the machine halts at all,
it has come to the end of the piece on such a way. A piece may leave values on the stack.

Pieces are put together as statements are. Loops need an induction on each side: on the number of
rounds for the machine to follow the meaning, and on the number of steps that are left for the
meaning to follow the machine.
-/

namespace ScoreLang

open List Machine

/-- Everything that is shown fits. -/
def Config.Fits (c : Config) : Prop := ∀ item ∈ c.shown, item.Fits

namespace Setting

/-! ### Pieces of code -/

/-- The code between two places realises a relation between configurations. -/
structure Realises (S : Setting) (start finish : Nat) (R : Config → Config → Prop) : Prop where
  forward : ∀ {c c' : Config} (stack : List Int), R c c' → c'.Fits →
    ∃ n stack', Steps S.code n (S.state start stack c) (S.state finish stack' c')
  backward : ∀ {c : Config} {stack : List Int} {n : Nat} {out : State}, c.Fits →
    HaltsIn S.code n (S.state start stack c) out →
      ∃ c' stack' m, R c c' ∧ c'.Fits ∧ m ≤ n ∧ HaltsIn S.code m (S.state finish stack' c') out
  grows : ∀ {c c' : Config}, R c c' → c'.Fits → c.Fits

/-- The code from a place on is a test: it goes on at one place if the value is zero, and at another
one if not. -/
structure Tests (S : Setting) (start yes no : Nat) (test : Config → Int → Config → Prop) :
    Prop where
  total : ∀ c : Config, ∃ v c', test c v c'
  steps : ∀ {c c' : Config} {v : Int} (stack : List Int), test c v c' →
    ∃ n, Steps S.code (n + 1) (S.state start stack c) (S.state (if v = 0 then no else yes) stack c')
  shown : ∀ {c c' : Config} {v : Int}, test c v c' → c'.shown = c.shown

variable {S : Setting} {start middle finish yes no place : Nat} {R Q : Config → Config → Prop}
  {test : Config → Int → Config → Prop} {label : String}

theorem Tests.fits (h : S.Tests start yes no test) {c c' : Config} {v : Int} (htest : test c v c') :
    c'.Fits ↔ c.Fits := by
  rw [Config.Fits, Config.Fits, h.shown htest]

/-- A jump after the test. -/
theorem Tests.branch (h : S.Tests start yes no test) (hne : label ≠ "")
    (hline : S.lines[yes]? = some (Operation.branch.line label))
    (hlabel : S.lines[place]? = some (.label label)) : S.Tests start place no test where
  total := h.total
  steps := by
    intro c c' v stack htest
    obtain ⟨n, hn⟩ := h.steps stack htest
    by_cases hv : v = 0
    · rw [if_pos hv] at hn ⊢
      exact ⟨n, hn⟩
    · rw [if_neg hv] at hn ⊢
      exact ⟨n + 1, hn.trans (moves_branch hne hline hlabel).steps⟩
  shown := h.shown

namespace Realises

theorem congr (h : S.Realises start finish R) (hR : ∀ c c', R c c' ↔ Q c c') :
    S.Realises start finish Q := by
  obtain rfl : R = Q := by
    funext c c'
    exact propext (hR c c')
  exact h

theorem finish_eq (h : S.Realises start finish R) (hplace : finish = place) :
    S.Realises start place R := hplace ▸ h

/-- No code. -/
theorem skip : S.Realises start start (fun c c' => c' = c) where
  forward := by
    rintro c c' stack rfl -
    exact ⟨0, stack, .refl _⟩
  backward := fun {c stack n out} hfits h => ⟨c, stack, n, rfl, hfits, Nat.le_refl n, h⟩
  grows := by
    rintro c c' rfl hfits
    exact hfits

/-- A piece of code after another one. -/
theorem seq (hfirst : S.Realises start middle R) (hsecond : S.Realises middle finish Q) :
    S.Realises start finish (fun c c' => ∃ d, R c d ∧ Q d c') where
  forward := by
    rintro c c' stack ⟨d, hR, hQ⟩ hfits
    obtain ⟨n, stack₁, hn⟩ := hfirst.forward stack hR (hsecond.grows hQ hfits)
    obtain ⟨m, stack₂, hm⟩ := hsecond.forward stack₁ hQ hfits
    exact ⟨n + m, stack₂, hn.trans hm⟩
  backward := by
    intro c stack n out hfits h
    obtain ⟨d, stack₁, m, hR, hd, hm, hhalts⟩ := hfirst.backward hfits h
    obtain ⟨c', stack₂, k, hQ, hc', hk, hhalts'⟩ := hsecond.backward hd hhalts
    exact ⟨c', stack₂, k, ⟨d, hR, hQ⟩, hc', by omega, hhalts'⟩
  grows := by
    rintro c c' ⟨d, hR, hQ⟩ hfits
    exact hfirst.grows hR (hsecond.grows hQ hfits)

/-- A label before the code. -/
theorem label_start (h : S.Realises (start + 1) finish R)
    (hlabel : S.lines[start]? = some (.label label)) : S.Realises start finish R where
  forward := by
    intro c c' stack
    rw [state_label hlabel]
    exact h.forward stack
  backward := by
    intro c stack n out hfits
    rw [state_label hlabel]
    exact h.backward hfits
  grows := h.grows

/-- A label after the code. -/
theorem label_finish (h : S.Realises start finish R)
    (hlabel : S.lines[finish]? = some (.label label)) : S.Realises start (finish + 1) R where
  forward := by
    intro c c' stack hR hfits
    obtain ⟨n, stack', hn⟩ := h.forward stack hR hfits
    rw [state_label hlabel] at hn
    exact ⟨n, stack', hn⟩
  backward := by
    intro c stack n out hfits hhalts
    obtain ⟨c', stack', m, hR, hc', hm, hhalts'⟩ := h.backward hfits hhalts
    rw [state_label hlabel] at hhalts'
    exact ⟨c', stack', m, hR, hc', hm, hhalts'⟩
  grows := h.grows

/-- A jump after the code. -/
theorem branch (h : S.Realises start finish R) (hne : label ≠ "")
    (hline : S.lines[finish]? = some (Operation.branch.line label))
    (hlabel : S.lines[place]? = some (.label label)) : S.Realises start place R where
  forward := by
    intro c c' stack hR hfits
    obtain ⟨n, stack', hn⟩ := h.forward stack hR hfits
    exact ⟨n + 1, stack', hn.trans (moves_branch hne hline hlabel).steps⟩
  backward := by
    intro c stack n out hfits hhalts
    obtain ⟨c', stack', m, hR, hc', hm, hhalts'⟩ := h.backward hfits hhalts
    obtain ⟨k, rfl, hk⟩ := hhalts'.of_moves (moves_branch hne hline hlabel)
    exact ⟨c', stack', k, hR, hc', by omega, hk⟩
  grows := h.grows

/-- Code that is always got through. -/
theorem of_total (htotal : ∀ c, ∃ c', R c c')
    (hsteps : ∀ {c c' : Config} (stack : List Int), R c c' →
      ∃ n stack', Steps S.code n (S.state start stack c) (S.state finish stack' c'))
    (hshown : ∀ {c c' : Config}, R c c' → c'.shown = c.shown) : S.Realises start finish R where
  forward := fun stack hR _ => hsteps stack hR
  backward := by
    intro c stack n out hfits hhalts
    obtain ⟨c', hR⟩ := htotal c
    obtain ⟨k, stack', hk⟩ := hsteps stack hR
    obtain ⟨m, rfl, hm⟩ := hhalts.of_steps hk
    refine ⟨c', stack', m, hR, ?_, by omega, hm⟩
    rwa [Config.Fits, hshown hR]
  grows := by
    intro c c' hR hfits
    rwa [Config.Fits, hshown hR] at hfits

/-- A test between two pieces of code. -/
theorem choose (htest : S.Tests start yes no test) (hyes : S.Realises yes finish R)
    (hno : S.Realises no finish Q) :
    S.Realises start finish
      (fun c c' => ∃ v d, test c v d ∧ if v = 0 then Q d c' else R d c') where
  forward := by
    rintro c c' stack ⟨v, d, hv, hrest⟩ hfits
    obtain ⟨n, hn⟩ := htest.steps stack hv
    by_cases hzero : v = 0
    · rw [if_pos hzero] at hn hrest
      obtain ⟨m, stack', hm⟩ := hno.forward stack hrest hfits
      exact ⟨n + 1 + m, stack', hn.trans hm⟩
    · rw [if_neg hzero] at hn hrest
      obtain ⟨m, stack', hm⟩ := hyes.forward stack hrest hfits
      exact ⟨n + 1 + m, stack', hn.trans hm⟩
  backward := by
    intro c stack n out hfits hhalts
    obtain ⟨v, d, hv⟩ := htest.total c
    obtain ⟨k, hk⟩ := htest.steps stack hv
    obtain ⟨m, rfl, hm⟩ := hhalts.of_steps hk
    have hd : d.Fits := (htest.fits hv).2 hfits
    by_cases hzero : v = 0
    · rw [if_pos hzero] at hm
      obtain ⟨c', stack', l, hQ, hc', hl, hhalts'⟩ := hno.backward hd hm
      exact ⟨c', stack', l, ⟨v, d, hv, by rwa [if_pos hzero]⟩, hc', by omega, hhalts'⟩
    · rw [if_neg hzero] at hm
      obtain ⟨c', stack', l, hR, hc', hl, hhalts'⟩ := hyes.backward hd hm
      exact ⟨c', stack', l, ⟨v, d, hv, by rwa [if_neg hzero]⟩, hc', by omega, hhalts'⟩
  grows := by
    rintro c c' ⟨v, d, hv, hrest⟩ hfits
    refine (htest.fits hv).1 ?_
    by_cases hzero : v = 0
    · rw [if_pos hzero] at hrest
      exact hno.grows hrest hfits
    · rw [if_neg hzero] at hrest
      exact hyes.grows hrest hfits

/-- **Loops**: a test and a body that leads back to it realise a loop. -/
theorem loop (htest : S.Tests start yes finish test) (hbody : S.Realises yes start R) :
    S.Realises start finish (Loop test R) := by
  have hgrows : ∀ {c c' : Config}, Loop test R c c' → c'.Fits → c.Fits := by
    intro c c' hloop hfits
    induction hloop with
    | stop hv => exact (htest.fits hv).1 hfits
    | again hv _ hR _ ih => exact (htest.fits hv).1 (hbody.grows hR (ih hfits))
  refine ⟨?_, ?_, hgrows⟩
  · -- the machine makes the rounds of the loop
    intro c c' stack hloop hfits
    induction hloop generalizing stack with
    | stop hv =>
      obtain ⟨n, hn⟩ := htest.steps stack hv
      exact ⟨n + 1, stack, hn⟩
    | again hv hne hR hrest ih =>
      obtain ⟨n, hn⟩ := htest.steps stack hv
      rw [if_neg hne] at hn
      obtain ⟨m, stack₁, hm⟩ := hbody.forward stack hR (hgrows hrest hfits)
      obtain ⟨k, stack₂, hk⟩ := ih stack₁ hfits
      exact ⟨n + 1 + m + k, stack₂, (hn.trans hm).trans hk⟩
  · -- every round uses up a step of a run that halts
    intro c stack n out hfits hhalts
    induction n using Nat.strong_induction_on generalizing c stack with
    | _ n ih =>
      obtain ⟨v, d, hv⟩ := htest.total c
      obtain ⟨k, hk⟩ := htest.steps stack hv
      obtain ⟨m, rfl, hm⟩ := hhalts.of_steps hk
      have hd : d.Fits := (htest.fits hv).2 hfits
      by_cases hzero : v = 0
      · subst hzero
        exact ⟨d, stack, m, .stop hv, hd, by omega, hm⟩
      · rw [if_neg hzero] at hm
        obtain ⟨e, stack₁, l, hR, he, hl, hround⟩ := hbody.backward hd hm
        obtain ⟨c', stack₂, j, hrest, hc', hj, hhalts'⟩ := ih l (by omega) he hround
        exact ⟨c', stack₂, j, .again hv hzero hR hrest, hc', by omega, hhalts'⟩

end Realises

/-! ### Statements -/

variable {locals names : List String} {done : Nat} {scopes : Scopes} {lines : List CodeLine}
  {level : Level} {e : Expr level}

variable (hplaced : Placed S.layout locals names done scopes)

include hplaced

theorem tests_expr (hcore : e.isCore = true) (hcode : e.code scopes = some lines)
    (hat : S.Has place lines) {number target : Nat} (hjump : S.lines[place + lines.length]?
      = some (Operation.branchFalse.line (labelName number)))
    (hlabel : S.lines[target]? = some (.label (labelName number))) :
    S.Tests place (place + lines.length + 1) target (e.Yields locals) where
  total := e.exists_yields hcore locals
  steps := fun _ h => steps_test hplaced hcore hcode hat hjump hlabel h
  shown := by
    rintro c c' v ⟨store, -, rfl⟩
    rfl

/-- An expression whose value is left on the stack. -/
theorem realises_expr (hcore : e.isCore = true) (hcode : e.code scopes = some lines)
    (hat : S.Has place lines) :
    S.Realises place (place + lines.length) (fun c c' => ∃ v, e.Yields locals c v c') := by
  refine .of_total ?_ ?_ ?_
  · intro c
    obtain ⟨v, c', h⟩ := e.exists_yields hcore locals c
    exact ⟨c', v, h⟩
  · rintro c c' stack ⟨v, h⟩
    obtain ⟨n, hn⟩ := steps_yields hplaced hcore hcode hat h
    exact ⟨n, v :: stack, hn⟩
  · rintro c c' ⟨v, store, -, rfl⟩
    rfl

/-- An expression whose value is dropped. -/
theorem realises_expression (hcore : e.isCore = true) (hcode : e.code scopes = some lines)
    (hat : S.Has place (lines ++ [Operation.pop.line ""])) :
    S.Realises place (place + lines.length + 1) (fun c c' => ∃ v, e.Yields locals c v c') := by
  refine .of_total ?_ ?_ ?_
  · intro c
    obtain ⟨v, c', h⟩ := e.exists_yields hcore locals c
    exact ⟨c', v, h⟩
  · rintro c c' stack ⟨v, h⟩
    obtain ⟨n, hn⟩ := steps_yields hplaced hcore hcode hat.left h
    exact ⟨n + 1, stack, hn.trans (moves_pop hat.right.head).steps⟩
  · rintro c c' ⟨v, store, -, rfl⟩
    rfl

/-- A value is shown if it fits, and a run that halts has shown it. -/
theorem realises_write (hcore : e.isCore = true) (hcode : e.code scopes = some lines)
    (hat : S.Has place (lines ++ [Operation.output.line ""])) :
    S.Realises place (place + lines.length + 1) (fun c c' => ∃ v d, e.Yields locals c v d ∧
      c' = { d with shown := d.shown ++ [.value v] }) where
  forward := by
    rintro c c' stack ⟨v, d, h, rfl⟩ hfits
    obtain ⟨n, hn⟩ := steps_yields hplaced hcore hcode hat.left h
    have hv : (Shown.value v).Fits := hfits _ (by simp)
    exact ⟨n + 1, stack, hn.trans (moves_output hat.right.head hv).steps⟩
  backward := by
    intro c stack n out hfits hhalts
    obtain ⟨v, d, h⟩ := e.exists_yields hcore locals c
    obtain ⟨k, hk⟩ := steps_yields hplaced hcore hcode hat.left h
    obtain ⟨m, rfl, hm⟩ := hhalts.of_steps hk
    have hv := fits_of_haltsIn hat.right.head hm
    obtain ⟨l, rfl, hl⟩ := hm.of_moves (moves_output hat.right.head hv)
    refine ⟨_, stack, l, ⟨v, d, h, rfl⟩, ?_, by omega, hl⟩
    obtain ⟨store, -, rfl⟩ := h
    intro item hitem
    rcases mem_append.1 hitem with hold | hnew
    · exact hfits item hold
    · rwa [mem_singleton.1 hnew]
  grows := by
    rintro c c' ⟨v, d, ⟨store, -, rfl⟩, rfl⟩ hfits item hitem
    exact hfits item (mem_append_left _ hitem)

omit hplaced

/-- A number is read if there is one, and a run that halts has read it. -/
theorem realises_read {text : String} {cell : Cell} {k : Nat} (htext : Spells text k)
    (hcell : S.layout[k]? = some cell)
    (hat : S.Has place [Operation.input.line "", Operation.store.line text,
    Operation.pop.line ""]) :
    S.Realises place (place + 1 + 1 + 1) (fun c c' => ∃ entered rest, c.input = entered :: rest ∧
      c' = ⟨c.store.set cell entered.value, rest, c.shown ++ [.prompt]⟩) := by
  have hsteps : ∀ {c : Config} {entered : Entered} {rest : List Entered} (stack : List Int),
      c.input = entered :: rest → Steps S.code 3 (S.state place stack c)
      (S.state (place + 1 + 1 + 1)
        stack ⟨c.store.set cell entered.value, rest, c.shown ++ [.prompt]⟩) := by
    intro c entered rest stack hinput
    exact .head (moves_input hat.head hinput)
      (.head (moves_store hat.tail.head htext hcell) (moves_pop hat.tail.tail.head).steps)
  refine ⟨?_, ?_, ?_⟩
  · rintro c c' stack ⟨entered, rest, hinput, rfl⟩ -
    exact ⟨3, stack, hsteps stack hinput⟩
  · intro c stack n out hfits hhalts
    cases hinput : c.input with
    | nil => exact absurd hhalts (not_haltsIn_input hat.head hinput)
    | cons entered rest =>
      obtain ⟨m, rfl, hm⟩ := hhalts.of_steps (hsteps stack hinput)
      refine ⟨_, stack, m, ⟨entered, rest, rfl, rfl⟩, ?_, by omega, hm⟩
      intro item hitem
      rcases mem_append.1 hitem with hold | hnew
      · exact hfits item hold
      · rw [mem_singleton.1 hnew]
        trivial
  · rintro c c' ⟨entered, rest, -, rfl⟩ hfits item hitem
    exact hfits item (mem_append_left _ hitem)

/-- **Statements**: the code of a statement of the core realises its meaning. -/
theorem realises_stmt (hplaced : Placed S.layout locals names done scopes) {result : String}
    {part : Part} {s : Stmt part} (hcore : s.isCore = true) {opened : Option Opened} {m m' : Marks}
    (hcode : s.code scopes result opened m = some (lines, m')) (hat : S.Has place lines) :
    S.Realises place (place + lines.length) (s.Runs locals) := by
  have hcoded := Stmt.coded hcode
  clear hcode
  induction hcoded generalizing place with
  | expression hvalue =>
    rw [length_append, ← Nat.add_assoc]
    exact realises_expression hplaced hcore hvalue hat
  | read htext =>
    obtain ⟨k, hspells, hcell⟩ := hplaced.cell? htext
    exact realises_read hspells hcell hat
  | write hvalue =>
    rw [length_append, ← Nat.add_assoc]
    exact realises_write hplaced hcore hvalue hat
  | compound _ ih => exact ih hcore hat
  | ifThen hfirst _ ih =>
    simp only [Stmt.isCore, Bool.and_eq_true] at hcore
    simp only [append_assoc, cons_append, nil_append] at hat
    have hjump := hat.right
    have hend := hjump.tail.right
    have htest := tests_expr hplaced hcore.1 hfirst hat.left hjump.head hend.tail.head
    have hyes := (ih hcore.2 hjump.tail.left).branch (labelName_ne_empty _) hend.head
      hend.tail.tail.head
    have hno := Realises.skip.label_finish hend.tail.head
    refine ((Realises.choose htest hyes hno).label_finish hend.tail.tail.head).finish_eq ?_
    simp
    omega
  | ifElse hfirst _ _ ihBody ihOther =>
    simp only [Stmt.isCore, Bool.and_eq_true] at hcore
    simp only [append_assoc, cons_append, nil_append] at hat
    have hjump := hat.right
    have helse := hjump.tail.right
    have hend := helse.tail.tail.right
    have htest := tests_expr hplaced hcore.1.1 hfirst hat.left hjump.head helse.tail.head
    have hyes := (ihBody hcore.1.2 hjump.tail.left).branch (labelName_ne_empty _) helse.head
      hend.head
    have hno := (ihOther hcore.2 helse.tail.tail.left).label_start helse.tail.head
    refine ((Realises.choose htest hyes hno).label_finish hend.head).finish_eq ?_
    simp
    omega
  | «while» hfirst _ ih =>
    simp only [Stmt.isCore, Bool.and_eq_true] at hcore
    simp only [append_assoc, cons_append, nil_append] at hat
    have hjump := hat.tail.right
    have hend := hjump.tail.right
    have htest := tests_expr hplaced hcore.1 hfirst hat.tail.left hjump.head hend.tail.head
    have hbody := (ih hcore.2 hjump.tail.left).branch (labelName_ne_empty _) hend.head hat.head
    have hloop := (Realises.loop htest (hbody.label_finish hat.head)).label_start hat.head
    refine (hloop.label_finish hend.tail.head).finish_eq ?_
    simp
    omega
  | doWhile _ hlast ih =>
    simp only [Stmt.isCore, Bool.and_eq_true] at hcore
    simp only [append_assoc, cons_append, nil_append] at hat
    have hcheck := hat.tail.right
    have hend := hcheck.right
    have hbody := (ih hcore.1 hat.tail.left).label_start hat.head
    have htest := (tests_expr hplaced hcore.2 hlast hcheck.left hend.head
      hend.tail.tail.head).branch (labelName_ne_empty _) hend.tail.head hat.head
    refine ((hbody.seq (.loop htest hbody)).label_finish hend.tail.tail.head).finish_eq ?_
    simp
    omega
  | @«for» _ keyword first test step body _ _ _ _ _ _ _ hstart hcheck hmove _ ih =>
    simp only [Stmt.isCore, Bool.and_eq_true] at hcore
    simp only [append_assoc, cons_append, nil_append] at hat
    have hhead := hat.right
    have hjump := hhead.tail.right
    have hstep := hjump.tail.tail
    have hback := hstep.tail.right
    have hend := hback.tail.tail.right
    have hfirst := (realises_expr hplaced hcore.1.1.1 hstart hat.left).label_finish hhead.head
    have htest := (tests_expr hplaced hcore.1.1.2 hcheck hhead.tail.left hjump.head
      hend.tail.head).branch (labelName_ne_empty _) hjump.tail.head hback.tail.head
    have hbody := ((ih hcore.2 hback.tail.tail.left).branch (labelName_ne_empty _) hend.head
      hstep.head).label_start hback.tail.head
    have hmoved := (((realises_expr hplaced hcore.1.2 hmove hstep.tail.left).branch
      (labelName_ne_empty _) hback.head hhead.head).label_start hstep.head).label_finish hhead.head
    have hround := (hbody.seq hmoved).congr
      (Q := fun c c' => ∃ d w, body.Runs locals c d ∧ step.Yields locals d w c') fun c c' => by
        simp only [exists_and_left]
    have hall := (hfirst.seq (.loop htest hround)).congr
      (Q := Stmt.Runs locals (.for keyword first test step body)) fun c c' => by
        constructor
        · rintro ⟨d, ⟨v, hv⟩, hloop⟩
          exact ⟨v, d, hv, hloop⟩
        · rintro ⟨v, d, hv, hloop⟩
          exact ⟨d, ⟨v, hv⟩, hloop⟩
    refine (hall.label_finish hend.tail.head).finish_eq ?_
    simp
    omega
  | done => exact .skip
  | next _ _ ihFirst ihRest =>
    simp only [Stmt.isCore, Bool.and_eq_true] at hcore
    rw [length_append, ← Nat.add_assoc]
    exact (ihFirst hcore.1 hat.left).seq (ihRest hcore.2 hat.right)
  | empty | switch | jump | «return» | noClause | default | clause => exact Bool.noConfusion hcore

end Setting

end ScoreLang
