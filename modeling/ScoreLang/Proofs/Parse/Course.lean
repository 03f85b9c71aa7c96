import ScoreLang.Proofs.Parse.Mirror.Program

/-!
# The Course of a Parse

What the parser does with a list of tokens, whatever the list is. The desk of
`ScoreLang.Desk.parse` has bounds on the depth of rules and on the rounds of repetitions, as
`ScoreLang.parse` has; the bounds are arbitrary here, as long as they exceed the number of lines,
and are never reached. This is what it means that the parser comes to an end without them.

## Main results

* `Desk.parse_ends`: the parser ends, and what happens until then: how many words are asked for, how
  many are pending, and in what order they come;
* `Desk.leaves_parse`: an accepted list of tokens is the list of leaves of its tree, and the tree
  has been built by rules that end where they began;
* `derives_parse`: the tree is that of a program, and derives the tokens but for those that have not
  been looked at.
-/

namespace ScoreLang

open List

theorem Parse.length_wordsOf_le (lines : List TokenLine) :
    (wordsOf lines).length ≤ lines.length := by
  rw [wordsOf, length_map]
  exact length_filterMap_le _ _

/-- A leaf for a token without the spelling of its bracket is one for the token. -/
theorem Leaf.Shows.of_plain {leaf : Leaf} {token : Token} (h : leaf.Shows token.plain) :
    leaf.Shows token := by
  obtain ⟨label, checked⟩ := leaf
  cases checked with
  | false => exact h
  | true => exact Token.mem_leafTexts_of_plain h

/-- The leaves show the tokens of a list. -/
theorem Leaf.shows_tokens {leaves : List Leaf} {lines : List TokenLine}
    (h : List.Forall₂ Leaf.Shows leaves (Parse.wordsOf lines)) :
    List.Forall₂ Leaf.Shows leaves (lines.filterMap TokenLine.token?) := by
  rw [Parse.wordsOf, forall₂_map_right_iff] at h
  exact h.imp fun _ _ hshows => hshows.of_plain

namespace Desk

open Parse

variable {lines : List TokenLine} {limit : Nat}

/-- The tree on the bench when the sons of the root have been added. -/
theorem extend_ofRoot (sons : List SyntaxTree) :
    ((Workbench.ofRoot (.rule .program)).extend sons).tree
      = Workbench.counted (.branch .program 1 sons) := by
  rw [Workbench.counted_branch]
  rfl

/-- What becomes of a list of tokens at a desk is what becomes of it without one. -/
theorem agrees_parse (hlimit : lines.length < limit) :
    Agrees lines (.ofRoot (.rule .program)) [] (2 * (wordsOf lines).length + 2)
      ((program (lines.length + 1)).run (.initial lines)) (Desk.parse limit lines)
      fun tree _ trees _ _ => tree = .branch .program 1 trees ∧
        List.Forall₂ Leaf.Shows tree.leaves (wordsOf lines) := by
  have hlength := length_wordsOf_le lines
  have hwords : (wordsOf lines).length < min (lines.length + 1) limit := by omega
  have hagrees := mirrors_program lines hwords _ [] (Workbench.open_ofRoot (.rule .program))
  rwa [(Workbench.open_ofRoot (.rule .program)).extend_nil] at hagrees

/-- The parser at its desk is rejected, or it has finished a tree. Nothing else can stop it. -/
theorem parse_cases (hlimit : lines.length < limit) :
    (∃ fault, ScoreLang.parse lines = .error fault ∧ fault.Fits lines ∧ ∃ desk,
      Desk.parse limit lines = (.error (.rejected fault), desk) ∧
      Continued (wordsOf lines) (2 * (wordsOf lines).length + 2) 0 [] desk.journal) ∨
    ∃ parsed, ScoreLang.parse lines = .ok parsed ∧ ∃ desk,
      Desk.parse limit lines = (.ok (), desk) ∧
      Continued (wordsOf lines) (2 * (wordsOf lines).length + 2) 0 [] desk.journal ∧
      desk.bench.building = [] ∧ desk.bench.tree = Workbench.counted parsed.tree ∧
      List.Forall₂ Leaf.Shows parsed.tree.leaves (wordsOf lines) := by
  have hagrees := agrees_parse hlimit
  rcases hrun : (program (lines.length + 1)).run (.initial lines) with fault | ⟨tree, state⟩ <;>
    rw [hrun] at hagrees
  · obtain ⟨hfault, desk, hdesk, hjournal⟩ := hagrees
    exact .inl ⟨fault, by rw [ScoreLang.parse, hrun], hfault, desk, hdesk, hjournal⟩
  · obtain ⟨_, sons, journal, left, hdesk, hjournal, rfl, hshows⟩ := hagrees
    refine .inr ⟨_, by rw [ScoreLang.parse, hrun], _, hdesk, hjournal.mono (Nat.zero_le _), rfl, ?_,
      hshows⟩
    exact extend_ofRoot sons

/-- The journal from the start on. -/
theorem Continued.of_nil {words : List Token} {budget : Nat} {journal : List Event}
    (h : Continued words budget 0 [] journal) :
    (∀ event ∈ journal, event.Orderly words) ∧ journal.countP Event.isRead ≤ budget := by
  obtain ⟨events, rfl, horderly, hcount⟩ := h
  exact ⟨horderly, hcount⟩

/-- **The parser ends** on every list of tokens, correct or not, and as `ScoreLang.parse` says,
whatever the bounds on the depth and the rounds are: they are never reached. Every word is asked
for at most twice, apart from the first one and the end of the list. No word is pending when an
expression begins, so that there are never more than four, and the current word, those that are
pending and the tokens that have not been read are always the last tokens of the list, in their
order. -/
theorem parse_ends (hlimit : lines.length < limit) :
    (Desk.parse limit lines).1 = ((ScoreLang.parse lines).map fun _ => ()).mapError .rejected ∧
    ScoreLang.parse lines ≠ .error .exhausted ∧
    (Desk.parse limit lines).2.journal.countP Event.isRead
      ≤ 2 * (lines.filterMap TokenLine.token?).length + 2 ∧
    (∀ state, .begun .expression state ∈ (Desk.parse limit lines).2.journal → state.pending = []) ∧
    ∀ state, .read state ∈ (Desk.parse limit lines).2.journal ∨
        .takenBack state ∈ (Desk.parse limit lines).2.journal →
      state.pending.length ≤ 4 ∧
        state.remaining <:+ (lines.filterMap TokenLine.token?).map Token.plain := by
  have hcount : (wordsOf lines).length = (lines.filterMap TokenLine.token?).length :=
    length_map _
  -- how the work ends, and what is known of the journal in either case
  obtain ⟨hresult, hexhausted, hjournal⟩ : (Desk.parse limit lines).1
      = ((ScoreLang.parse lines).map fun _ => ()).mapError .rejected ∧
      ScoreLang.parse lines ≠ .error .exhausted ∧
      Continued (wordsOf lines) (2 * (wordsOf lines).length + 2) 0 []
        (Desk.parse limit lines).2.journal := by
    rcases parse_cases hlimit with ⟨fault, hparse, hfault, desk, hdesk, hjournal⟩ |
      ⟨parsed, hparse, desk, hdesk, hjournal, -⟩
    · rw [hparse, hdesk]
      exact ⟨rfl, fun h => by rwa [Except.error.inj h] at hfault, hjournal⟩
    · rw [hparse, hdesk]
      exact ⟨rfl, nofun, hjournal⟩
  obtain ⟨horderly, hreads⟩ := hjournal.of_nil
  refine ⟨hresult, hexhausted, hcount ▸ hreads, fun state hstate => horderly _ hstate rfl, ?_⟩
  rintro state (hstate | hstate)
  · exact horderly _ hstate
  · exact horderly _ hstate

/-- A program that breaks off after an operand, with an element of an array before it. -/
def brokenOffText : String := "int a[2]; main()\x7b write a[1] + a"

theorem parse_ends_brokenOff :
    (tokenize brokenOffText.toList).lines.length < 20 ∧
    (Desk.parse 20 (tokenize brokenOffText.toList).lines).1 = .error (.rejected .endOfTokens) ∧
    (Desk.parse 20 (tokenize brokenOffText.toList).lines).2.journal.countP Event.isRead ≤ 36 := by
  have hlines : (tokenize brokenOffText.toList).lines.length < 20 := by decide +kernel
  have hparse : ((ScoreLang.parse (tokenize brokenOffText.toList).lines).map fun _ => ())
      = .error .endOfTokens := by
    decide +kernel
  have hcount : ((tokenize brokenOffText.toList).lines.filterMap TokenLine.token?).length = 17 := by
    decide +kernel
  obtain ⟨hresult, -, hreads, -⟩ := parse_ends hlines
  rw [hparse] at hresult
  rw [hcount] at hreads
  exact ⟨hlines, hresult, hreads⟩

/-- How the work at the desk ends for an accepted list. -/
theorem parse_of_ok {parsed : Parsed} (hparse : ScoreLang.parse lines = .ok parsed)
    (hlimit : lines.length < limit) : ∃ desk, Desk.parse limit lines = (.ok (), desk) ∧
      Continued (wordsOf lines) (2 * (wordsOf lines).length + 2) 0 [] desk.journal ∧
      desk.bench.building = [] ∧ desk.bench.tree = Workbench.counted parsed.tree ∧
      List.Forall₂ Leaf.Shows parsed.tree.leaves (wordsOf lines) := by
  rcases parse_cases hlimit with ⟨fault, herror, -⟩ | ⟨parsed', hok, hdesk⟩
  · cases herror.symm.trans hparse
  · obtain rfl : parsed' = parsed := Except.ok.inj (hok.symm.trans hparse)
    exact hdesk

/-- The leaves of the tree of an accepted list show its tokens. -/
theorem shows_leaves {parsed : Parsed} (hparse : ScoreLang.parse lines = .ok parsed) :
    List.Forall₂ Leaf.Shows parsed.tree.leaves (lines.filterMap TokenLine.token?) := by
  obtain ⟨_, -, -, -, -, hshows⟩ := parse_of_ok hparse (Nat.lt_succ_self _)
  exact Leaf.shows_tokens hshows

/-- **The leaves of a tree are the tokens of the program**, one by one and in their order: every
leaf shows its token, with the exception of the two that are made without a look at it. At the
desk, the tree was built by rules that all ended at the place where they began, no move was
refused, and the outline of the finished tree can be written. -/
theorem leaves_parse {parsed : Parsed} (hparse : ScoreLang.parse lines = .ok parsed) :
    List.Forall₂ Leaf.Shows parsed.tree.leaves (lines.filterMap TokenLine.token?) ∧
    parsed.tree.leaves.map Leaf.label = (parsed.tree.listing.filter Node.leaf).map Node.label ∧
    ∀ limit, lines.length < limit → ∃ desk, Desk.parse limit lines = (.ok (), desk) ∧
      (∀ rule before after, .ended rule before after ∈ desk.journal → after = before) ∧
      desk.bench.building = [] ∧ desk.bench.outline = .ok parsed.tree.outline := by
  refine ⟨shows_leaves hparse, SyntaxTree.map_label_leaves parsed.tree, fun limit hlimit => ?_⟩
  obtain ⟨desk, hdesk, hjournal, hbuilding, htree, -⟩ := parse_of_ok hparse hlimit
  refine ⟨desk, hdesk, fun rule before after hended => hjournal.of_nil.1 _ hended, hbuilding, ?_⟩
  exact Workbench.outline_counted hbuilding htree

/-- A program in which other words stand for the type of a parameter and for the brace of the main
function. -/
def looseText : String := "function f(int a, \x7b b)\x7b\x7d main() 5 \x7d"

theorem leaves_parse_loose :
    ∃ parsed, ScoreLang.parse (tokenize looseText.toList).lines = .ok parsed ∧
      parsed.tree.leaves.filter (fun leaf => !leaf.checked)
        = [⟨.word "int", false⟩, ⟨.word "\x7b", false⟩] ∧
      List.Forall₂ Leaf.Shows parsed.tree.leaves
        ((tokenize looseText.toList).lines.filterMap TokenLine.token?) := by
  have hread : (ScoreLang.parse (tokenize looseText.toList).lines).toOption.map
      (fun parsed => parsed.tree.leaves.filter fun leaf => !leaf.checked)
        = some [⟨.word "int", false⟩, ⟨.word "\x7b", false⟩] := by
    decide +kernel
  obtain ⟨parsed, hparsed, hleaves⟩ := Option.map_eq_some_iff.1 hread
  have hparse : ScoreLang.parse (tokenize looseText.toList).lines = .ok parsed :=
    toOption_eq_some.1 hparsed
  exact ⟨parsed, hparse, hleaves, (leaves_parse hparse).1⟩

end Desk

/-! ### Derivations

A list of tokens is derived by a tree if every leaf belongs to its token, whether it has been
checked or not. The parser accepts more than that, but nothing that would not be derived with other
tokens below the leaves that are not checked.
-/

/-- A token that is neither a name nor a number is spelled as its kind, up to the case of
letters. -/
theorem Token.spelling_of_isWellSpelled {token : Token} (h : token.isWellSpelled = true)
    (hoperand : token.kind.isOperand = false) :
    token.spelling = token.kind.text ∨ lowerCase token.spelling = token.kind.text := by
  obtain ⟨kind, spelling⟩ := token
  have h : (if kind.isReserved then lowerCase spelling == kind.text else spelling == kind.text)
      = true := by
    cases kind with
    | name | number => cases hoperand
    | other => cases h
    | _ => exact h
  split at h
  · exact .inr (eq_of_beq h)
  · exact .inl (eq_of_beq h)

/-- A leaf with the text of a sign or a reserved word in small letters is one for a token of a kind
with this text. -/
theorem Token.text_kind_of_mem_leafTexts {token : Token} {text : String}
    (hspelled : token.isWellSpelled = true) (hoperand : token.kind.isOperand = false)
    (hlower : lowerCase text = text) (htext : text ∈ token.leafTexts) : token.kind.text = text := by
  have hwords : token.leafTexts = [token.kind.text, token.spelling] := by
    obtain ⟨kind, spelling⟩ := token
    cases kind with
    | name | number => cases hoperand
    | _ => rfl
  rw [hwords, mem_pair] at htext
  rcases htext with rfl | rfl
  · rfl
  · rcases Token.spelling_of_isWellSpelled hspelled hoperand with h | h
    · exact h.symm
    · exact h.symm.trans hlower

namespace Leaf

/-- The label belongs to the token. -/
def Spells (leaf : Leaf) (token : Token) : Prop := leaf.label.text ∈ token.leafTexts

/-- The kind of token that is called for by a leaf that is not checked. -/
def called (leaf : Leaf) : Kind :=
  if leaf.label = .word Kind.kwInt.text then .kwInt else .leftBrace

/-- The token that a leaf calls for in the place of the given one. -/
def amend (leaf : Leaf) (token : Token) : Token :=
  if leaf.checked ∨ token.kind = leaf.called then token else ⟨leaf.called, leaf.called.text⟩

variable {leaf : Leaf} {token : Token}

theorem called_eq (leaf : Leaf) : leaf.called = .kwInt ∨ leaf.called = .leftBrace := by
  unfold called
  split
  · exact .inl rfl
  · exact .inr rfl

/-- A leaf that is not checked has the text of the kind that it calls for. -/
theorem Shows.text_eq (h : leaf.Shows token) (hchecked : leaf.checked = false) :
    leaf.label.text = leaf.called.text := by
  rw [Shows, hchecked] at h
  rcases h with h | h <;> rw [called, h] <;> rfl

theorem isOperand_called (leaf : Leaf) : leaf.called.isOperand = false := by
  rcases leaf.called_eq with h | h <;> rw [h] <;> rfl

/-- The word `int` and the left brace belong to the tokens of their kind only. -/
theorem text_called_mem_leafTexts_iff (hspelled : token.isWellSpelled = true) :
    leaf.called.text ∈ token.leafTexts ↔ token.kind = leaf.called := by
  refine ⟨fun htext => ?_, fun h => h ▸ Token.text_mem_leafTexts (h ▸ leaf.isOperand_called)⟩
  have hoperand : token.kind.isOperand = false := by
    obtain ⟨kind, spelling⟩ := token
    -- the marks of names and numbers begin with capital letters
    rcases leaf.called_eq with h | h <;> rw [h] at htext <;> cases kind with
    | name | number =>
      simp [Token.leafTexts, Label.nameMark, Label.numberMark, Kind.text,
        ← String.toList_inj] at htext
    | _ => rfl
  have hlower : lowerCase leaf.called.text = leaf.called.text := by
    rcases leaf.called_eq with h | h <;> rw [h] <;> decide
  have hkind := Token.text_kind_of_mem_leafTexts hspelled hoperand hlower htext
  obtain ⟨kind, spelling⟩ := token
  rcases leaf.called_eq with h | h <;> rw [h] at hkind ⊢ <;> cases kind <;>
    simp_all [Kind.text, Token.isWellSpelled]

theorem Shows.spells_amend (h : leaf.Shows token) : leaf.Spells (leaf.amend token) := by
  cases hchecked : leaf.checked with
  | true =>
    rw [Shows, hchecked] at h
    simpa [amend, hchecked, Spells] using h
  | false =>
    rw [Spells, h.text_eq hchecked]
    have hkind : (leaf.amend token).kind = leaf.called := by
      simp only [amend, hchecked, Bool.false_eq_true, false_or]
      split
      · assumption
      · rfl
    rw [← hkind]
    exact Token.text_mem_leafTexts (hkind ▸ leaf.isOperand_called)

/-- A token has the leaf it should have exactly if there is nothing to amend. -/
theorem Shows.spells_iff (h : leaf.Shows token) (hspelled : token.isWellSpelled = true) :
    leaf.Spells token ↔ leaf.amend token = token := by
  refine ⟨fun hspells => ?_, fun hamend => hamend ▸ h.spells_amend⟩
  cases hchecked : leaf.checked with
  | true => simp [amend, hchecked]
  | false =>
    rw [Spells, h.text_eq hchecked, text_called_mem_leafTexts_iff hspelled] at hspells
    simp [amend, hspells]

end Leaf

namespace SyntaxTree

/-- The tokens that stand below the leaves of a tree, one for each leaf, are those that the leaves
call for. -/
def Derives (tree : SyntaxTree) (tokens : List Token) : Prop :=
  List.Forall₂ Leaf.Spells tree.leaves tokens

/-- The tokens below the leaves of a tree, with those amended that are not what their leaf calls
for. -/
def amend (tree : SyntaxTree) (tokens : List Token) : List Token :=
  List.zipWith Leaf.amend tree.leaves tokens

end SyntaxTree

theorem Leaf.forall₂_spells_amend {leaves : List Leaf} {tokens : List Token}
    (h : List.Forall₂ Leaf.Shows leaves tokens) :
    List.Forall₂ Leaf.Spells leaves (List.zipWith Leaf.amend leaves tokens) := by
  induction h with
  | nil => exact .nil
  | cons hshows _ ih => exact .cons hshows.spells_amend ih

theorem Leaf.forall₂_spells_iff {leaves : List Leaf} {tokens : List Token}
    (h : List.Forall₂ Leaf.Shows leaves tokens)
    (hspelled : ∀ token ∈ tokens, token.isWellSpelled = true) :
    List.Forall₂ Leaf.Spells leaves tokens ↔ List.zipWith Leaf.amend leaves tokens = tokens := by
  induction h with
  | nil => exact ⟨fun _ => rfl, fun _ => .nil⟩
  | cons hshows _ ih =>
    obtain ⟨hfirst, hrest⟩ := forall_mem_cons.1 hspelled
    rw [forall₂_cons, zipWith_cons_cons, List.cons.injEq, hshows.spells_iff hfirst,
      ih hrest]

/-- **What the parser accepts**, for any list of well-spelled tokens. Its tree is the tree of a
program, with one leaf for each token. The tree derives the list with the word `int` put before
every parameter and a left brace before the body of the main function, wherever some other token
stands there; it derives the list itself if there is no such token, and only then. -/
theorem derives_parse {lines : List TokenLine} {parsed : Parsed}
    (hlines : ∀ line ∈ lines, line.isWellSpelled = true) (hparse : parse lines = .ok parsed) :
    (∃ program : Program, parsed.tree.shape = program.tree) ∧
    parsed.tree.leaves.length = (lines.filterMap TokenLine.token?).length ∧
    parsed.tree.Derives (parsed.tree.amend (lines.filterMap TokenLine.token?)) ∧
    (parsed.tree.Derives (lines.filterMap TokenLine.token?) ↔
      parsed.tree.amend (lines.filterMap TokenLine.token?) = lines.filterMap TokenLine.token?) := by
  have hshows := Desk.shows_leaves hparse
  have hspelled : ∀ token ∈ lines.filterMap TokenLine.token?, token.isWellSpelled = true := by
    intro token htoken
    obtain ⟨line, hline, htoken⟩ := mem_filterMap.1 htoken
    cases line with
    | token word => exact Option.some.inj htoken ▸ hlines _ hline
    | enter | bare | blank => cases htoken
  exact ⟨parse_shape hlines hparse, hshows.length_eq, Leaf.forall₂_spells_amend hshows,
    Leaf.forall₂_spells_iff hshows hspelled⟩

/-- The program without the two other words. -/
def amendedText : String := "function f(int a, int b)\x7b\x7d main() \x7b \x7d"

theorem derives_parse_loose :
    ∃ parsed, parse (tokenize Desk.looseText.toList).lines = .ok parsed ∧
      parsed.tree.Derives ((tokenize amendedText.toList).lines.filterMap TokenLine.token?) ∧
      ¬ parsed.tree.Derives ((tokenize Desk.looseText.toList).lines.filterMap
        TokenLine.token?) := by
  have hread : (parse (tokenize Desk.looseText.toList).lines).toOption.map
      (fun parsed => parsed.tree.amend
        ((tokenize Desk.looseText.toList).lines.filterMap TokenLine.token?))
        = some ((tokenize amendedText.toList).lines.filterMap TokenLine.token?) := by
    decide +kernel
  have hne : (tokenize amendedText.toList).lines.filterMap TokenLine.token?
      ≠ (tokenize Desk.looseText.toList).lines.filterMap TokenLine.token? := by
    decide +kernel
  obtain ⟨parsed, hparsed, hamend⟩ := Option.map_eq_some_iff.1 hread
  have hparse : parse (tokenize Desk.looseText.toList).lines = .ok parsed :=
    toOption_eq_some.1 hparsed
  obtain ⟨-, -, hderives, hiff⟩ := derives_parse (isWellSpelled_tokenize _) hparse
  rw [hamend] at hderives hiff
  exact ⟨parsed, hparse, hderives, fun h => hne (hiff.1 h)⟩

end ScoreLang
