import ScoreLang.Parse.Program
import ScoreLang.Proofs.Parse.Words

/-!
# Where Jumps May Stand

A `break` or `continue` is accepted only in certain places. The parser decides this while it reads,
by a permission that it hands down: the body of a loop and the clauses of a switch get it, a
sequence of statements and a compound statement hand on what they have been given, and all other
rules withhold it, the two statements of an `if` included.

This module says which places these are, by the rules that stand around a jump in the tree. To say
that nothing else matters, the parser is compared with one that follows the same rules but never
asks for a permission: what the parser accepts is what the other one accepts, if every jump is well
placed.

## Main results

* `SyntaxTree.Below`: a tree occurs in another one, and certain rules are around it;
* `SyntaxTree.WellPlaced`: every jump of a tree is well placed;
* `parse_eq_ok_iff`: what the parser accepts, by the parser without permissions and the places of
  the jumps.
-/

namespace ScoreLang

/-! ### Places -/

/-- Whether jumps may stand directly in a phrase: the body of a loop, or a clause of a switch. -/
def Rule.opensJumps : Rule → Bool
  | .whileStatement | .doWhile | .forStatement | .caseClause | .defaultClause => true
  | _ => false

/-- Whether jumps may stand in a phrase if they may stand around it. -/
def Rule.carriesJumps : Rule → Bool
  | .statement | .statements | .compound => true
  | _ => false

/-- Whether jumps may stand in a phrase, given whether they may stand around it. -/
def Rule.hands (rule : Rule) (jumps : Bool) : Bool :=
  if rule.carriesJumps then jumps else rule.opensJumps

namespace SyntaxTree

/-- A tree occurs in another one. The path lists the rules of the branches around it, the innermost
one first. -/
inductive Below : List Rule → SyntaxTree → SyntaxTree → Prop where
  /-- A tree occurs in itself. -/
  | here (tree : SyntaxTree) : Below [] tree tree
  /-- A tree occurs in a son of a branch. -/
  | son {path : List Rule} {rule : Rule} {line : Nat} {sons : List SyntaxTree}
      {son inner : SyntaxTree} : son ∈ sons → Below path inner son →
      Below (path ++ [rule]) inner (.node ⟨.rule rule, line, false⟩ sons)

/-- Whether jumps may stand below some rules, if they may stand around the outermost one: the
innermost rule that does not carry jumps decides. -/
def permits (jumps : Bool) (path : List Rule) : Bool :=
  ((path.find? fun rule => !rule.carriesJumps).map Rule.opensJumps).getD jumps

/-- Every jump of a tree stands where it may, if jumps may stand around the tree. -/
def Allows (jumps : Bool) (tree : SyntaxTree) : Prop :=
  ∀ path line sons, Below path (.branch .jump line sons) tree → permits jumps path = true

/-- Every jump of a tree is well placed: there is a loop or a clause of a switch around it, with
nothing but compound statements and sequences of statements in between. -/
def WellPlaced (tree : SyntaxTree) : Prop :=
  ∀ path line sons, Below path (.branch .jump line sons) tree →
    ∃ inner rule outer, path = inner ++ rule :: outer ∧
      (∀ other ∈ inner, other.carriesJumps = true) ∧ rule.opensJumps = true

/-- The outermost rule of a path decides first. -/
theorem permits_append (jumps : Bool) (path : List Rule) (rule : Rule) :
    permits jumps (path ++ [rule]) = permits (rule.hands jumps) path := by
  unfold permits Rule.hands
  rw [List.find?_append]
  cases path.find? fun rule => !rule.carriesJumps with
  | some found => rfl
  | none => cases hcarries : rule.carriesJumps <;> simp [hcarries]

/-- The jumps of a branch stand where they may if those of its sons do, and it is not itself a jump
where none may stand. -/
@[simp] theorem allows_branch {jumps : Bool} {rule : Rule} {line : Nat} {sons : List SyntaxTree} :
    (branch rule line sons).Allows jumps ↔
      (rule = .jump → jumps = true) ∧ ∀ son ∈ sons, son.Allows (rule.hands jumps) := by
  constructor
  · intro h
    refine ⟨?_, ?_⟩
    · rintro rfl
      exact h [] line sons (.here _)
    · intro son hson path line' sons' hbelow
      rw [← permits_append]
      exact h _ line' sons' (.son hson hbelow)
  · rintro ⟨hjump, hsons⟩ path line' sons' hbelow
    generalize hinner : branch .jump line' sons' = inner at hbelow
    unfold branch at hbelow
    cases hbelow with
    | here =>
      obtain ⟨hnode, -⟩ := Tree.node.inj hinner
      exact hjump (Label.rule.inj (Node.mk.inj hnode).1).symm
    | son hson hbelow =>
      subst hinner
      rw [permits_append]
      exact hsons _ hson _ _ _ hbelow

/-- A leaf is no jump. -/
@[simp] theorem allows_leaf {jumps : Bool} {label : Label} {line : Nat} :
    (leaf label line).Allows jumps := by
  intro path line' sons' hbelow
  generalize hinner : branch .jump line' sons' = inner at hbelow
  unfold leaf at hbelow
  cases hbelow with
  | here =>
    obtain ⟨hnode, -⟩ := Tree.node.inj hinner
    exact Bool.noConfusion (Node.mk.inj hnode).2.2

/-- Where no jump may stand around a tree, its jumps stand where they may if they are well
placed. -/
theorem allows_false_iff {tree : SyntaxTree} : tree.Allows false ↔ tree.WellPlaced := by
  refine forall₄_congr fun path line sons _ => ?_
  unfold permits
  constructor
  · intro h
    cases hfind : path.find? fun rule => !rule.carriesJumps with
    | none => simp [hfind] at h
    | some rule =>
      rw [hfind, Option.map_some, Option.getD_some] at h
      obtain ⟨-, inner, outer, rfl, hinner⟩ := List.find?_eq_some_iff_append.1 hfind
      exact ⟨inner, rule, outer, rfl, fun other hother => by simpa using hinner other hother, h⟩
  · rintro ⟨inner, rule, outer, rfl, hinner, hopens⟩
    have hnot : rule.carriesJumps = false := by
      cases rule <;> first | rfl | exact Bool.noConfusion hopens
    have hnone : inner.find? (fun rule => !rule.carriesJumps) = none := by
      rw [List.find?_eq_none]
      intro other hother
      simp [hinner other hother]
    simp [hnone, hnot, hopens]

end SyntaxTree

namespace Parse

open SyntaxTree

/-! ### Trees without jumps -/

/-- An action gives only results of some kind. -/
def Gives {α : Type} (kind : α → Prop) (action : Parse α) : Prop :=
  ∀ (s s' : State) (a : α), Reads action s a s' → kind a

/-- A tree has no jump. -/
def Quiet (tree : SyntaxTree) : Prop := ∀ jumps, tree.Allows jumps

/-- None of some trees has a jump. -/
def AllQuiet (trees : List SyntaxTree) : Prop := ∀ tree ∈ trees, Quiet tree

@[simp] theorem allQuiet_nil : AllQuiet [] := by simp [AllQuiet]

variable {jumps : Bool} {trees : List SyntaxTree}

@[simp] theorem allQuiet_cons {tree : SyntaxTree} :
    AllQuiet (tree :: trees) ↔ Quiet tree ∧ AllQuiet trees := by
  simp [AllQuiet]

@[simp] theorem allQuiet_append {first second : List SyntaxTree} :
    AllQuiet (first ++ second) ↔ AllQuiet first ∧ AllQuiet second := by
  simp only [AllQuiet, List.mem_append, or_imp, forall_and]

/-- A branch is quiet if its sons are, unless it is a jump. -/
theorem quiet_branch {rule : Rule} {line : Nat} {sons : List SyntaxTree} (hrule : rule ≠ .jump)
    (h : AllQuiet sons) : Quiet (.branch rule line sons) := by
  intro jumps
  rw [allows_branch]
  exact ⟨fun hjump => absurd hjump hrule, fun son hson => h son hson _⟩

namespace Gives

variable {α β : Type} {kind : α → Prop} {kind' : β → Prop} {action : Parse α}

/-- Nothing is said about the result. -/
theorem any : Gives (fun _ => True) action := fun _ _ _ _ => trivial

/-- A result that is given at once. -/
theorem pure {a : α} (h : kind a) : Gives kind (Pure.pure a) := by
  intro s s' b hread
  rw [(reads_pure.1 hread).1]
  exact h

/-- A fault has no result. -/
theorem throw {fault : ParseFault} : Gives kind (MonadExcept.throw fault : Parse α) :=
  fun _ _ _ hread => (reads_throw.1 hread).elim

/-- One action after another. -/
theorem bind {next : α → Parse β} (h : Gives kind action)
    (hnext : ∀ a, kind a → Gives kind' (next a)) : Gives kind' (action >>= next) := by
  intro s s' b hread
  obtain ⟨a, t, hfirst, hrest⟩ := reads_bind.1 hread
  exact hnext a (h _ _ _ hfirst) _ _ _ hrest

/-- The result of the first action does not matter. -/
theorem after {next : α → Parse β} (hnext : ∀ a, Gives kind' (next a)) :
    Gives kind' (action >>= next) := bind any fun a _ => hnext a

variable {cause : GrammarCause} {word : Kind} {rule : Rule}

/-- An error has no result. -/
theorem fail {place : String} :
    Gives kind (Parse.fail place cause : Parse α) := after fun _ => throw

/-- A rule other than that of a jump gives a quiet tree. -/
theorem branch {sons : Parse (List SyntaxTree)} (hrule : rule ≠ .jump) (h : Gives AllQuiet sons) :
    Gives Quiet (Parse.branch rule sons) := by
  intro s s' tree hread
  obtain ⟨trees, hsons, rfl⟩ := reads_branch.1 hread
  exact quiet_branch hrule (h _ _ _ hsons)

/-- A leaf has no jump in it. -/
theorem leaf {label : Label} : Gives Quiet (Parse.leaf label) :=
  after fun _ => pure fun _ => allows_leaf

theorem spelledLeaf : Gives Quiet Parse.spelledLeaf := after fun _ => leaf

theorem kindLeaf : Gives Quiet (Parse.kindLeaf word) := leaf

theorem expectLeaf :
    Gives Quiet (Parse.expectLeaf word cause rule) := after fun _ => kindLeaf

theorem nextLeaf :
    Gives Quiet (Parse.nextLeaf word cause rule) := after fun _ => expectLeaf

/-- The number is a quiet leaf. -/
theorem nextNumber :
    Gives (fun result : String × SyntaxTree => Quiet result.2) (Parse.nextNumber rule) :=
  after fun _ => after fun _ => bind leaf fun _ hleaf => pure hleaf

/-- The name is a quiet leaf. -/
theorem nextName :
    Gives (fun result : String × SyntaxTree => Quiet result.2) (Parse.nextName cause rule) :=
  after fun _ => after fun _ => bind leaf fun _ hleaf => pure hleaf

theorem semicolon : Gives Quiet (Parse.semicolon rule) :=
  bind expectLeaf fun _ hsign => after fun _ => pure hsign

theorem rightBrace : Gives Quiet (Parse.rightBrace rule) :=
  bind expectLeaf fun _ hsign => after fun _ => pure hsign

/-- A loop collects quiet trees. -/
theorem many {continues : Parse Bool} {round : Parse (List SyntaxTree)} (h : Gives AllQuiet round)
    (limit : Nat) : Gives AllQuiet (Parse.many continues round limit) := by
  induction limit with
  | zero =>
    refine after fun found => ?_
    cases found with
    | true => exact throw
    | false => exact pure allQuiet_nil
  | succ limit ih =>
    refine after fun found => ?_
    cases found with
    | true =>
      exact bind h fun _ hfirst => bind ih fun _ hrest =>
        pure (allQuiet_append.2 ⟨hfirst, hrest⟩)
    | false => exact pure allQuiet_nil

/-- Quiet elements with commas between them. -/
theorem separated {element : Parse SyntaxTree} (h : Gives Quiet element) (limit : Nat) :
    Gives AllQuiet (Parse.separated limit element) := by
  refine bind h fun first hfirst => bind (many ?_ limit) fun rest hrest =>
    pure (allQuiet_cons.2 ⟨hfirst, hrest⟩)
  exact bind kindLeaf fun _ hcomma => after fun _ => bind h fun _ helement =>
    pure (by simp [hcomma, helement])

/-! ### Expressions and declarations -/

/-- The name of a variable or of an element. -/
theorem reference : Gives (fun result : SyntaxTree × Option String => Quiet result.1)
    Parse.reference := by
  refine after fun _ => after fun _ => bind leaf fun head hhead => after fun _ => after fun _ =>
    after fun found => ?_
  cases found with
  | true =>
    exact bind kindLeaf fun _ hopening => bind nextNumber fun _ hnumber =>
      bind nextLeaf fun _ hclosing => after fun _ =>
        pure (quiet_branch (by decide) (by simp [hhead, hopening, hnumber, hclosing]))
  | false => exact pure (quiet_branch (by decide) (by simp [hhead]))

section

variable {expression : Parse SyntaxTree} (h : Gives Quiet expression) (limit : Nat)

include h

/-- A call with its arguments. -/
theorem call : Gives Quiet (Parse.call expression limit) := by
  refine branch (by decide) (bind kindLeaf fun keyword hkeyword => bind nextName fun name hname =>
    after fun _ => bind nextLeaf fun opening hopening => after fun _ => after fun found => ?_)
  have hend : ∀ given, AllQuiet given → Gives AllQuiet (do
      let closing ← Parse.kindLeaf .rightParen
      readWord
      return keyword :: name.2 :: opening :: given ++ [closing]) := fun _ hgiven =>
    bind kindLeaf fun _ hclosing => after fun _ =>
      pure (by simp [hkeyword, hname, hopening, hgiven, hclosing])
  cases found with
  | true => exact bind (pure allQuiet_nil) hend
  | false =>
    exact bind (branch (by decide) (separated h limit)) fun _ hgiven => after fun _ =>
      bind (pure (by simp [hgiven])) hend

theorem factor : Gives Quiet (Parse.factor expression limit) := by
  refine branch (by decide) (after fun found => ?_)
  cases found with
  | true =>
    exact bind kindLeaf fun _ hopening => after fun _ => bind h fun _ hinner =>
      bind expectLeaf fun _ hclosing => after fun _ =>
        pure (by simp [hopening, hinner, hclosing])
  | false =>
    refine after fun found => ?_
    cases found with
    | true => exact bind (call h limit) fun _ hcall => pure (by simp [hcall])
    | false =>
      refine after fun found => ?_
      cases found with
      | true => exact bind reference fun _ htarget => pure (by simp [htarget])
      | false =>
        exact after fun _ => bind leaf fun _ hnumber => after fun _ =>
          pure (by simp [hnumber])

theorem product : Gives Quiet (Parse.product expression limit) := by
  refine branch (by decide) (bind (factor h limit) fun _ hfirst =>
    bind (many ?_ limit) fun _ hrest => pure (by simp [hfirst, hrest]))
  have hend : ∀ sign, Quiet sign → Gives AllQuiet (do
      readWord
      return [sign, ← Parse.factor expression limit]) := fun _ hsign =>
    after fun _ => bind (factor h limit) fun _ hfactor => pure (by simp [hsign, hfactor])
  refine after fun found => ?_
  cases found with
  | true => exact bind kindLeaf hend
  | false => exact bind kindLeaf hend

theorem sum : Gives Quiet (Parse.sum expression limit) :=
  branch (by decide) (bind (product h limit) fun _ hfirst =>
    bind (many (bind spelledLeaf fun _ hsign => after fun _ => bind (product h limit) fun _ hnext =>
      pure (by simp [hsign, hnext])) limit) fun _ hrest => pure (by simp [hfirst, hrest]))

theorem logical : Gives Quiet (Parse.logical expression limit) := by
  refine branch (by decide) (bind (sum h limit) fun left hleft => after fun state => ?_)
  cases state.word with
  | none => exact throw
  | some token =>
    by_cases hlogic : token.kind.isLogic = true
    · simp only [hlogic, if_true]
      exact bind spelledLeaf fun _ hsign => after fun _ => bind (sum h limit) fun _ hright =>
        pure (by simp [hleft, hsign, hright])
    · simp only [hlogic]
      exact pure (by simp [hleft])

theorem assignment : Gives Quiet (Parse.assignment expression limit) := by
  have hplain : Gives AllQuiet (do return [← Parse.logical expression limit]) :=
    bind (logical h limit) fun _ hvalue => pure (by simp [hvalue])
  refine branch (by decide) (after fun found => ?_)
  cases found with
  | true =>
    refine after fun _ => bind reference fun _ htarget => after fun found => ?_
    cases found with
    | true =>
      exact after fun _ => bind kindLeaf fun _ hsign => bind (logical h limit) fun _ hvalue =>
        pure (by simp [htarget, hsign, hvalue])
    | false => exact after fun _ => hplain
  | false => exact hplain

end

/-- No jump stands in an expression. -/
theorem expression (depth : Nat) : Gives Quiet (Parse.expression depth) := by
  induction depth with
  | zero => exact throw
  | succ depth ih => exact assignment ih (depth + 1)

theorem initializer (limit : Nat) : Gives Quiet (Parse.initializer limit) := by
  refine branch (by decide) (bind nextLeaf fun _ hopening => after fun _ => after fun found => ?_)
  cases found with
  | true => exact bind rightBrace fun _ hclosing => pure (by simp [hopening, hclosing])
  | false =>
    exact bind (separated (logical (expression limit) limit) limit) fun _ hvalues =>
      bind rightBrace fun _ hclosing => pure (by simp [hopening, hvalues, hclosing])

/-- No jump stands in a declaration, whatever its form. -/
theorem declarator (limit : Nat) : Gives Quiet (Parse.declarator limit) := by
  refine branch (by decide) (after fun token => bind leaf fun name hname => after fun _ =>
    after fun found => ?_)
  cases found with
  | true =>
    refine bind kindLeaf fun opening hopening => bind nextNumber fun number hnumber =>
      bind nextLeaf fun closing hclosing => after fun _ => after fun found => ?_
    have hend : ∀ values, AllQuiet values → Gives AllQuiet (do
        declare token.spelling .array .declarator
        return name :: opening :: number.2 :: closing :: values) := fun _ hvalues =>
      after fun _ => pure (by simp [hname, hopening, hnumber, hclosing, hvalues])
    cases found with
    | true =>
      exact bind kindLeaf fun _ hsign => bind (initializer limit) fun _ hvalues =>
        bind (pure (by simp [hsign, hvalues])) hend
    | false => exact bind (pure allQuiet_nil) hend
  | false =>
    refine after fun found => ?_
    have hend : ∀ values, AllQuiet values → Gives AllQuiet (do
        declare token.spelling .variable .declarator
        return name :: values) := fun _ hvalues =>
      after fun _ => pure (by simp [hname, hvalues])
    cases found with
    | true =>
      exact bind kindLeaf fun _ hsign => after fun _ =>
        bind (logical (expression limit) limit) fun _ hvalue =>
          bind (pure (by simp [hsign, hvalue])) hend
    | false => exact bind (pure allQuiet_nil) hend

theorem declarations (limit : Nat) : Gives Quiet (Parse.declarations limit) := by
  refine branch (by decide) (many (bind (branch (by decide) ?_) fun _ hone =>
    pure (by simp [hone])) limit)
  exact bind spelledLeaf fun _ hkeyword => after fun _ =>
    bind (separated (declarator limit) limit) fun _ hnames => bind semicolon fun _ hsign =>
      pure (by simp [hkeyword, hnames, hsign])

/-- No jump stands among the parameters. -/
theorem parameters (limit : Nat) : Gives Quiet (Parse.parameters limit) := by
  refine branch (by decide) (after fun found => ?_)
  cases found with
  | true => exact pure allQuiet_nil
  | false =>
    refine after fun _ => separated (branch (by decide) ?_) limit
    exact bind kindLeaf fun _ hkeyword => bind nextName fun _ hname => after fun _ =>
      after fun _ => pure (by simp [hkeyword, hname])

/-! ### Statements without statements in them -/

/-- The test of a statement, in parentheses. -/
theorem condition (rule : Rule) (limit : Nat) : Gives AllQuiet (Parse.condition rule limit) :=
  bind nextLeaf fun _ hopening => after fun _ => bind (expression limit) fun _ htest =>
    bind expectLeaf fun _ hclosing => pure (by simp [hopening, htest, hclosing])

theorem returnStatement (limit : Nat) : Gives Quiet (Parse.returnStatement limit) :=
  branch (by decide) (bind kindLeaf fun _ hkeyword => after fun _ =>
    bind (expression limit) fun _ hvalue => bind semicolon fun _ hsign =>
      pure (by simp [hkeyword, hvalue, hsign]))

theorem writeStatement (limit : Nat) : Gives Quiet (Parse.writeStatement limit) :=
  branch (by decide) (bind spelledLeaf fun _ hkeyword => after fun _ =>
    bind (expression limit) fun _ hvalue => bind semicolon fun _ hsign =>
      pure (by simp [hkeyword, hvalue, hsign]))

theorem readStatement : Gives Quiet Parse.readStatement :=
  branch (by decide) (bind spelledLeaf fun _ hkeyword => after fun _ => after fun _ =>
    bind reference fun _ htarget => bind semicolon fun _ hsign =>
      pure (by simp [hkeyword, htarget, hsign]))

theorem expressionStatement (limit : Nat) : Gives Quiet (Parse.expressionStatement limit) := by
  refine branch (by decide) (after fun found => ?_)
  cases found with
  | true => exact bind semicolon fun _ hsign => pure (by simp [hsign])
  | false =>
    exact bind (expression limit) fun _ hvalue => bind semicolon fun _ hsign =>
      pure (by simp [hvalue, hsign])

end Gives

/-! ### The parser without permissions -/

/-- A statement in which jumps may stand anywhere. -/
def freeStatement : Nat → Parse SyntaxTree
  | 0 => throw .exhausted
  | depth + 1 =>
    branch .statement do
      match (← get).word with
      | none => fail Rule.statement.text (.unexpectedEnd incompleteProgram)
      | some token =>
        return [← statementForm (fun _ => freeStatement depth) true (depth + 1) token.kind]

/-- A body whose statements are read in the given way. -/
def bodyWith (limit : Nat) (statements : Parse SyntaxTree) : Parse SyntaxTree :=
  branch .body do
    let opening ← kindLeaf .leftBrace
    readWord
    let names ← declarations limit
    let steps ← statements
    return [opening, names, steps, ← rightBrace .body]

/-- A function whose body is read in the given way. -/
def functionWith (limit : Nat) (body : Parse SyntaxTree) : Parse SyntaxTree :=
  branch .function do
    let keyword ← spelledLeaf
    let (name, identifier) ← nextName .lackFunctionName .function
    declare name .function .function
    let opening ← nextLeaf .leftParen .lackLeftParen .function
    modify State.openScope
    readWord
    let given ← parameters limit
    let closing ← expectLeaf .rightParen .lackRightParen .function
    readWord
    let _ ← expect .leftBrace .lackFunctionBody .function
    let steps ← body
    leaveScope
    return [keyword, identifier, opening, given, closing, steps]

/-- A main function whose body is read in the given way. -/
def mainWith (body : Parse SyntaxTree) : Parse SyntaxTree :=
  branch .main do
    let keyword ← spelledLeaf
    let opening ← nextLeaf .leftParen .lackLeftParen .main
    let closing ← nextLeaf .rightParen .lackRightParen .main
    readWord
    return [keyword, opening, closing, ← body]

/-- The sons of a program after its declarations. -/
def programEnd (limit : Nat) (body : Parse SyntaxTree) (names : List SyntaxTree) :
    Parse (List SyntaxTree) := do
  let functions ← many (at? .kwFunction) (return [← functionWith limit body]) limit
  let _ ← expect .kwMain .lackMain .program
  let last ← mainWith body
  match (← get).word with
  | some token => fail Rule.program.text (.unexpectedEnd token.spelling)
  | none => return names ++ functions ++ [last]

/-- A program whose bodies are read in the given way. -/
def programWith (limit : Nat) (body : Parse SyntaxTree) : Parse SyntaxTree :=
  branch .program do
    readWord
    if ← at? .kwInt then programEnd limit body [← declarations limit]
    else programEnd limit body []

/-- The program is read by the rules with a hole. -/
theorem program_eq (limit : Nat) : program limit
    = programWith limit (bodyWith limit (statements (statement limit) false limit)) := rfl

/-- A program in which jumps may stand anywhere. -/
def freeProgram (limit : Nat) : Parse SyntaxTree :=
  programWith limit (bodyWith limit (statements (fun _ => freeStatement limit) true limit))

/-! ### Permissions -/

/-- Every jump of some trees stands where it may. -/
def AllAllow (jumps : Bool) (trees : List SyntaxTree) : Prop := ∀ tree ∈ trees, tree.Allows jumps

@[simp] theorem allAllow_nil : AllAllow jumps [] := by simp [AllAllow]

@[simp] theorem allAllow_cons {tree : SyntaxTree} :
    AllAllow jumps (tree :: trees) ↔ tree.Allows jumps ∧ AllAllow jumps trees := by
  simp [AllAllow]

@[simp] theorem allAllow_append {first second : List SyntaxTree} :
    AllAllow jumps (first ++ second) ↔ AllAllow jumps first ∧ AllAllow jumps second := by
  simp only [AllAllow, List.mem_append, or_imp, forall_and]

/-- A quiet tree may stand anywhere. -/
theorem AllQuiet.allAllow (h : AllQuiet trees) :
    AllAllow jumps trees := fun tree htree => h tree htree jumps

/-- An action succeeds exactly if another one does, and the result is of some kind. -/
def Follows {α : Type} (kind : α → Prop) (action free : Parse α) : Prop :=
  ∀ (s s' : State) (a : α), Reads action s a s' ↔ Reads free s a s' ∧ kind a

namespace Follows

variable {α β : Type} {kind : α → Prop} {kind' : β → Prop} {action free : Parse α}
  {next next' : α → Parse β}

/-- What both parsers read alike. -/
theorem same (h : Gives kind action) : Follows kind action action :=
  fun s s' a => ⟨fun hread => ⟨hread, h s s' a hread⟩, fun hread => hread.1⟩

/-- The two actions begin in the same way. -/
theorem after (h : ∀ a, Follows kind' (next a) (next' a)) :
    Follows kind' (action >>= next) (action >>= next') := by
  intro s s' b
  simp only [reads_bind, h _ _ _ b, exists_and_right, ← and_assoc]

/-- The two actions begin in the same way, with a result of which something is known. -/
theorem start {known : α → Prop} (hgives : Gives known action)
    (h : ∀ a, known a → Follows kind' (next a) (next' a)) :
    Follows kind' (action >>= next) (action >>= next') := by
  intro s s' b
  simp only [reads_bind]
  constructor
  · rintro ⟨a, t, hfirst, hrest⟩
    obtain ⟨hfree, hkind⟩ := (h a (hgives _ _ _ hfirst) _ _ _).1 hrest
    exact ⟨⟨a, t, hfirst, hfree⟩, hkind⟩
  · rintro ⟨⟨a, t, hfirst, hrest⟩, hkind⟩
    exact ⟨a, t, hfirst, (h a (hgives _ _ _ hfirst) _ _ _).2 ⟨hrest, hkind⟩⟩

/-- The second part makes use of the result of the first one, so that it is of its kind only if that
one is. -/
theorem bind (h : Follows kind action free) (hnext : ∀ a, kind a → Follows kind' (next a) (next' a))
    (huses : ∀ a, Gives (fun b => kind' b → kind a) (next' a)) :
    Follows kind' (action >>= next) (free >>= next') := by
  intro s s' b
  simp only [reads_bind]
  constructor
  · rintro ⟨a, t, hfirst, hrest⟩
    obtain ⟨hfree, hkind⟩ := (h _ _ _).1 hfirst
    obtain ⟨hrest, hkind'⟩ := (hnext a hkind _ _ _).1 hrest
    exact ⟨⟨a, t, hfree, hrest⟩, hkind'⟩
  · rintro ⟨⟨a, t, hfirst, hrest⟩, hkind'⟩
    have hkind := huses a _ _ _ hrest hkind'
    exact ⟨a, t, (h _ _ _).2 ⟨hfirst, hkind⟩, (hnext a hkind _ _ _).2 ⟨hrest, hkind'⟩⟩

/-- A rule hands its permission on to its sons. -/
theorem branch {rule : Rule} {jumps : Bool} {sons sons' : Parse (List SyntaxTree)}
    (hrule : rule ≠ .jump) (h : Follows (AllAllow (rule.hands jumps)) sons sons') :
    Follows (Allows jumps) (Parse.branch rule sons) (Parse.branch rule sons') := by
  intro s s' tree
  simp only [reads_branch]
  constructor
  · rintro ⟨trees, hread, rfl⟩
    obtain ⟨hfree, hall⟩ := (h _ _ _).1 hread
    exact ⟨⟨trees, hfree, rfl⟩, allows_branch.2 ⟨fun hjump => absurd hjump hrule, hall⟩⟩
  · rintro ⟨⟨trees, hread, rfl⟩, hallows⟩
    exact ⟨trees, (h _ _ _).2 ⟨hread, (allows_branch.1 hallows).2⟩, rfl⟩

/-- A son, and its brothers after it. -/
theorem son {jumps : Bool} {son son' : Parse SyntaxTree}
    {next : SyntaxTree → Parse (List SyntaxTree)} (h : Follows (Allows jumps) son son')
    (hnext : ∀ tree, tree.Allows jumps → Gives (AllAllow jumps) (next tree))
    (huses : ∀ tree, Gives (fun trees => tree ∈ trees) (next tree)) :
    Follows (AllAllow jumps) (son >>= next) (son' >>= next) :=
  bind h (fun tree htree => same (hnext tree htree)) fun tree s s' trees hread hall =>
    hall tree (huses tree s s' trees hread)

/-- The last son. -/
theorem last {jumps : Bool} {son son' : Parse SyntaxTree} (trees : List SyntaxTree)
    (h : Follows (Allows jumps) son son') (htrees : AllQuiet trees) :
    Follows (AllAllow jumps) (do return trees ++ [← son]) (do return trees ++ [← son']) :=
  Follows.son h (fun _ htree => .pure (by simp [htrees.allAllow, htree])) fun _ => .pure (by simp)

/-- A loop follows if every round does. -/
theorem many {jumps : Bool} {continues : Parse Bool} {round round' : Parse (List SyntaxTree)}
    (h : Follows (AllAllow jumps) round round') (limit : Nat) :
    Follows (AllAllow jumps) (Parse.many continues round limit)
      (Parse.many continues round' limit) := by
  induction limit with
  | zero =>
    refine after fun found => ?_
    cases found with
    | true => exact same .throw
    | false => exact same (.pure allAllow_nil)
  | succ limit ih =>
    refine after fun found => ?_
    cases found with
    | true =>
      refine bind h (fun first hfirst => bind ih (fun rest hrest => same (.pure ?_)) ?_) ?_
      · exact allAllow_append.2 ⟨hfirst, hrest⟩
      · exact fun rest => .pure fun hall => (allAllow_append.1 hall).2
      · exact fun first => .after fun rest => .pure fun hall => (allAllow_append.1 hall).1
    | false => exact same (.pure allAllow_nil)

/-! ### Statements -/

/-- A jump where none may stand is refused by the one parser, and read by the other. -/
theorem jump (jumps : Bool) {word : Kind} : Follows (Allows jumps)
    (if jumps then Parse.jump else Parse.fail Rule.statement.text (.misplaced word))
    Parse.jump := by
  intro s s' tree
  cases jumps with
  | true =>
    refine ⟨fun hread => ⟨hread, ?_⟩, fun hread => hread.1⟩
    obtain ⟨sons, hsons, rfl⟩ := reads_branch.1 hread
    have hquiet : Gives AllQuiet (do
        let keyword ← spelledLeaf
        readWord
        return [keyword, ← Parse.semicolon .jump]) :=
      .bind .spelledLeaf fun _ hkeyword => .after fun _ => .bind .semicolon fun _ hsign =>
        .pure (by simp [hkeyword, hsign])
    exact allows_branch.2 ⟨fun _ => rfl, (hquiet _ _ _ hsons).allAllow⟩
  | false =>
    refine ⟨fun hread => (reads_fail.1 hread).elim, fun ⟨hread, hallows⟩ => ?_⟩
    obtain ⟨sons, -, rfl⟩ := reads_branch.1 hread
    exact Bool.noConfusion ((allows_branch.1 hallows).1 rfl)

section

variable {form : Bool → Parse SyntaxTree} {free : Parse SyntaxTree}
  (h : ∀ jumps, Follows (Allows jumps) (form jumps) free) (limit : Nat)

include h

/-- A sequence hands on what it has. -/
theorem statements (jumps : Bool) : Follows (Allows jumps) (Parse.statements form jumps limit)
    (Parse.statements (fun _ => free) true limit) :=
  branch (by decide) (many (last [] (h jumps) allQuiet_nil) limit)

/-- A compound statement hands on what it has. -/
theorem compound (jumps : Bool) : Follows (Allows jumps) (Parse.compound form jumps limit)
    (Parse.compound (fun _ => free) true limit) :=
  branch (by decide) (start .kindLeaf fun _ hopening => after fun _ =>
    Follows.son (statements h limit jumps)
      (fun _ hbody => .bind .rightBrace fun _ hclosing =>
        .pure (by simp [hopening _, hbody, hclosing _]))
      fun _ => .after fun _ => .pure (by simp))

/-- Jumps may stand in a clause. -/
theorem caseClause (jumps : Bool) : Follows (Allows jumps) (Parse.caseClause form limit)
    (Parse.caseClause (fun _ => free) limit) :=
  branch (by decide) (start .spelledLeaf fun keyword hkeyword =>
    start .nextNumber fun number hnumber => start .nextLeaf fun colon hcolon => after fun _ =>
      last [keyword, number.2, colon] (statements h limit true)
        (by simp [hkeyword, hnumber, hcolon]))

/-- Jumps may stand in the default clause. -/
theorem defaultClause (jumps : Bool) : Follows (Allows jumps) (Parse.defaultClause form limit)
    (Parse.defaultClause (fun _ => free) limit) :=
  branch (by decide) (start .spelledLeaf fun keyword hkeyword => start .nextLeaf fun colon hcolon =>
    after fun _ => last [keyword, colon] (statements h limit true)
      (by simp [hkeyword, hcolon]))

/-- Jumps may stand in the body of a loop. -/
theorem whileStatement (jumps : Bool) : Follows (Allows jumps) (Parse.whileStatement form limit)
    (Parse.whileStatement (fun _ => free) limit) :=
  branch (by decide) (start .spelledLeaf fun keyword hkeyword =>
    start (.condition _ limit) fun test htest => after fun _ =>
      last (keyword :: test) (h true) (by simp [hkeyword, htest]))

/-- Jumps may stand in a body that comes before its test. -/
theorem doWhile (jumps : Bool) : Follows (Allows jumps) (Parse.doWhile form limit)
    (Parse.doWhile (fun _ => free) limit) :=
  branch (by decide) (start .kindLeaf fun keyword hkeyword => after fun _ =>
    Follows.son (h true)
      (fun _ hbody => .bind .expectLeaf fun _ hagain => .bind (.condition _ limit) fun _ htest =>
        .after fun _ => .bind .semicolon fun _ hsign =>
          .pure (by simp [hkeyword _, hbody, hagain _, htest.allAllow, hsign _]))
      fun _ => .after fun _ => .after fun _ => .after fun _ => .after fun _ => .pure (by simp))

/-- Jumps may stand in the body of a counted loop. -/
theorem forStatement (jumps : Bool) : Follows (Allows jumps) (Parse.forStatement form limit)
    (Parse.forStatement (fun _ => free) limit) :=
  branch (by decide) (start .spelledLeaf fun keyword hkeyword =>
    start .nextLeaf fun opening hopening => after fun _ =>
    start (.expression limit) fun first hfirst => start .semicolon fun firstEnd hfirstEnd =>
    start (.expression limit) fun test htest => start .semicolon fun testEnd htestEnd =>
    start (.expression limit) fun step hstep => start .expectLeaf fun closing hclosing =>
    after fun _ =>
      last [keyword, opening, first, firstEnd, test, testEnd, step, closing] (h true)
        (by simp [hkeyword, hopening, hfirst, hfirstEnd, htest, htestEnd, hstep, hclosing]))

/-- No jump may stand directly in an `if`. -/
theorem ifStatement (jumps : Bool) : Follows (Allows jumps) (Parse.ifStatement form limit)
    (Parse.ifStatement (fun _ => free) limit) := by
  refine branch (by decide) (start .spelledLeaf fun keyword hkeyword =>
    start (.condition _ limit) fun test htest => after fun _ =>
      bind (h (Rule.ifStatement.hands jumps)) (fun body hbody => after fun found => ?_)
        fun body => .after fun found => ?_)
  · cases found with
    | true =>
      simp only [if_true, pure_bind]
      exact start .kindLeaf fun sign hsign => after fun _ =>
        Follows.son (h false)
          (fun _ hother => .pure (by simp [hkeyword _, htest.allAllow, hbody, hsign _, hother]))
          fun _ => .pure (by simp)
    | false =>
      simp only [Bool.false_eq_true, if_false, pure_bind]
      exact same (.pure (by simp [hkeyword _, htest.allAllow, hbody]))
  · cases found with
    | true =>
      simp only [if_true, pure_bind]
      exact .after fun _ => .after fun _ => .after fun _ => .pure fun hall => hall body (by simp)
    | false =>
      simp only [Bool.false_eq_true, if_false, pure_bind]
      exact .pure fun hall => hall body (by simp)

/-- A switch withholds the permission, its clauses give it. -/
theorem switchStatement (jumps : Bool) : Follows (Allows jumps) (Parse.switchStatement form limit)
    (Parse.switchStatement (fun _ => free) limit) := by
  have hclause := caseClause h limit (Rule.switchStatement.hands jumps)
  refine branch (by decide) (start .kindLeaf fun keyword hkeyword =>
    start (.condition _ limit) fun test htest => start .nextLeaf fun opening hopening =>
      after fun _ => after fun _ =>
        bind (many (last [] hclause allQuiet_nil) limit)
          (fun clauses hclauses => after fun found => ?_) fun clauses => .after fun found => ?_)
  · cases found with
    | true =>
      simp only [if_true, pure_bind]
      exact Follows.son (defaultClause h limit false)
        (fun _ hother => .bind .rightBrace fun _ hclosing => .pure (by
          simp [hkeyword _, htest.allAllow, hopening _, hclauses, hother, hclosing _]))
        fun _ => .after fun _ => .pure (by simp)
    | false =>
      simp only [Bool.false_eq_true, if_false, pure_bind]
      exact same (.bind .rightBrace fun _ hclosing => .pure (by
        simp [hkeyword _, htest.allAllow, hopening _, hclauses, hclosing _]))
  · have huses : ∀ other closing, AllAllow (Rule.switchStatement.hands jumps)
        (keyword :: test ++ opening :: clauses ++ other ++ [closing]) →
        AllAllow (Rule.switchStatement.hands jumps) clauses :=
      fun other closing hall tree htree => hall tree (by simp [htree])
    cases found with
    | true =>
      simp only [if_true, pure_bind]
      exact .after fun _ => .after fun _ => .pure (huses _ _)
    | false =>
      simp only [Bool.false_eq_true, if_false, pure_bind]
      exact .after fun _ => .pure (huses _ _)

/-- Statements of all forms, by their first word. -/
theorem statementForm (jumps : Bool) (kind : Kind) :
    Follows (Allows jumps) (Parse.statementForm form jumps limit kind)
      (Parse.statementForm (fun _ => free) true limit kind) := by
  have hquiet : ∀ {action}, Gives Quiet action → Follows (Allows jumps) action action :=
    fun hgives => same fun s s' tree hread => hgives s s' tree hread jumps
  cases kind with
  | kwIf => exact ifStatement h limit jumps
  | kwWhile => exact whileStatement h limit jumps
  | kwDo => exact doWhile h limit jumps
  | kwFor => exact forStatement h limit jumps
  | kwWrite => exact hquiet (.writeStatement limit)
  | kwRead => exact hquiet .readStatement
  | leftBrace => exact compound h limit jumps
  | name => exact hquiet (.expressionStatement limit)
  | number => exact hquiet (.expressionStatement limit)
  | leftParen => exact hquiet (.expressionStatement limit)
  | semicolon => exact hquiet (.expressionStatement limit)
  | kwCall => exact hquiet (.expressionStatement limit)
  | kwReturn => exact hquiet (.returnStatement limit)
  | kwBreak => exact jump jumps
  | kwContinue => exact jump jumps
  | kwSwitch => exact switchStatement h limit jumps
  | _ => exact same .fail

end

/-- **The parser without permissions reads the same statements**, if jumps are well placed. -/
theorem statement (depth : Nat) (jumps : Bool) :
    Follows (Allows jumps) (Parse.statement depth jumps) (freeStatement depth) := by
  induction depth generalizing jumps with
  | zero => exact same .throw
  | succ depth ih =>
    refine branch (by decide) (after fun state => ?_)
    cases state.word with
    | none => exact same .fail
    | some token => exact last [] (statementForm ih (depth + 1) jumps token.kind) allQuiet_nil

/-! ### Programs -/

section

variable {steps steps' : Parse SyntaxTree} (h : Follows (Allows false) steps steps') (limit : Nat)

include h

/-- The declarations and the statements of a body. -/
theorem body : Follows (Allows false) (bodyWith limit steps) (bodyWith limit steps') :=
  branch (by decide) (start .kindLeaf fun _ hopening => after fun _ =>
    start (.declarations limit) fun _ hnames =>
      Follows.son h
        (fun _ hsteps => .bind .rightBrace fun _ hclosing =>
          .pure (by simp [hopening _, hnames _, hsteps, hclosing _]))
        fun _ => .after fun _ => .pure (by simp))

/-- A function withholds the permission. -/
theorem function : Follows (Allows false) (functionWith limit steps) (functionWith limit steps') :=
  branch (by decide) (start .spelledLeaf fun _ hkeyword => start .nextName fun _ hname =>
    after fun _ => start .nextLeaf fun _ hopening => after fun _ => after fun _ =>
    start (.parameters limit) fun _ hgiven => start .expectLeaf fun _ hclosing => after fun _ =>
    after fun _ => Follows.son h
      (fun _ hsteps => .after fun _ =>
        .pure (by simp [hkeyword _, hname _, hopening _, hgiven _, hclosing _, hsteps]))
      fun _ => .after fun _ => .pure (by simp))

/-- So does the main function. -/
theorem mainFunction : Follows (Allows false) (mainWith steps) (mainWith steps') :=
  branch (by decide) (start .spelledLeaf fun keyword hkeyword =>
    start .nextLeaf fun opening hopening => start .nextLeaf fun closing hclosing => after fun _ =>
      last [keyword, opening, closing] h (by simp [hkeyword, hopening, hclosing]))

/-- The main function comes last. -/
theorem programEnd {names : List SyntaxTree} (hnames : AllQuiet names) :
    Follows (AllAllow false) (Parse.programEnd limit steps names)
      (Parse.programEnd limit steps' names) := by
  refine bind (many (last [] (function h limit) allQuiet_nil) limit)
    (fun functions hfunctions => after fun _ => Follows.son (mainFunction h)
      (fun last hlast => .after fun state => ?_) fun last => .after fun state => ?_)
    fun functions => .after fun _ => .after fun last => .after fun state => ?_
  all_goals cases state.word
  case refine_1.none => exact .pure (by simp [hnames.allAllow, hfunctions, hlast])
  case refine_2.none => exact .pure (by simp)
  case refine_3.none => exact .pure fun hall tree htree => hall tree (by simp [htree])
  all_goals exact .fail

/-- A whole program. -/
theorem program : Follows (Allows false) (programWith limit steps) (programWith limit steps') := by
  refine branch (by decide) (after fun _ => after fun found => ?_)
  cases found with
  | true => exact start (.declarations limit) fun _ hnames => programEnd h limit (by simp [hnames])
  | false => exact programEnd h limit allQuiet_nil

end

end Follows

end Parse

/-- What a parser of programs finds out about a list of tokens. -/
def parseWith (program : Nat → Parse SyntaxTree) (lines : List TokenLine) :
    Except ParseFault Parsed :=
  match (program (lines.length + 1)).run (.initial lines) with
  | .error fault => .error fault
  | .ok (tree, state) => .ok ⟨tree, state.line, state.scopes, state.scopeCount⟩

/-- The parser in its general form. -/
theorem parse_eq_parseWith (lines : List TokenLine) : parse lines = parseWith Parse.program lines :=
  rfl

/-- The program that a list of tokens forms if jumps may stand anywhere. -/
def parseFreely (lines : List TokenLine) : Except ParseFault Parsed :=
  parseWith Parse.freeProgram lines

/-- When a parser of whole programs accepts. -/
theorem parseWith_eq_ok_iff {program : Nat → Parse SyntaxTree} {lines : List TokenLine}
    {parsed : Parsed} : parseWith program lines = .ok parsed ↔
      ∃ tree state, Reads (program (lines.length + 1)) (.initial lines) tree state ∧
        parsed = ⟨tree, state.line, state.scopes, state.scopeCount⟩ := by
  unfold parseWith Reads
  cases (program (lines.length + 1)).run (.initial lines) with
  | error fault => simp
  | ok result =>
    obtain ⟨tree, state⟩ := result
    simp [eq_comm]

/-- **Placement of jumps.** The parser accepts a list of tokens exactly if it forms a program when
jumps may stand anywhere, and every jump of that program is well placed: around it there is a loop
or a clause of a switch, with nothing but compound statements in between. It makes no difference
which of the two jumps it is. -/
theorem parse_eq_ok_iff (lines : List TokenLine) (parsed : Parsed) :
    parse lines = .ok parsed ↔ parseFreely lines = .ok parsed ∧ parsed.tree.WellPlaced := by
  have hfollows : Parse.Follows (SyntaxTree.Allows false) (Parse.program (lines.length + 1))
      (Parse.freeProgram (lines.length + 1)) := by
    rw [Parse.program_eq]
    exact .program (.body (.statements (fun jumps => .statement _ jumps) _ false) _) _
  rw [parse_eq_parseWith, parseFreely, parseWith_eq_ok_iff, parseWith_eq_ok_iff]
  constructor
  · rintro ⟨tree, state, hread, rfl⟩
    obtain ⟨hfree, hallows⟩ := (hfollows _ _ _).1 hread
    exact ⟨⟨tree, state, hfree, rfl⟩, SyntaxTree.allows_false_iff.1 hallows⟩
  · rintro ⟨⟨tree, state, hfree, rfl⟩, hplaced⟩
    exact ⟨tree, state, (hfollows _ _ _).2 ⟨hfree, SyntaxTree.allows_false_iff.2 hplaced⟩, rfl⟩

-- An `if` between a loop and its `break`, which is read only freely, and a `continue` in a switch.
example :
    (parse (tokenize "main()\x7b while (1) if (1) break; \x7d".toList).lines).isOk = false ∧
    (parseFreely (tokenize "main()\x7b while (1) if (1) break; \x7d".toList).lines).isOk = true ∧
    (parse (tokenize "main()\x7b switch (1) \x7b case 1: continue; \x7d \x7d".toList).lines).isOk
      = true := by
  decide +kernel

end ScoreLang
