import ScoreLang.Proofs.Parse.Scope
import ScoreLang.Proofs.Token.Lexeme

/-!
# The Leaves of a Tree and the Tokens of a Program

A leaf shows the token that it was made for: by its kind or its spelling, or, for names and
numbers, by its spelling behind a mark. Two leaves are made without a look at the token: the `int`
of a parameter after a comma, and the left brace of the main function. `SyntaxTree.leaves` lists
the leaves of a tree from left to right and marks these two as not checked.

`State.remaining` lists the tokens from the current one on, those that were taken back and those
that have not been read, and `Covers` says that the parser has passed one token for each leaf. A
square bracket loses its spelling when it is taken back, so that the tokens are compared with the
spelling of brackets forgotten, by `Token.plain`.
-/

namespace ScoreLang

open List

/-! ### Tokens -/

/-- Whether a line of a token list is a line mark or a token with its spelling. -/
def TokenLine.isWhole : TokenLine → Bool
  | .enter => true
  | .token _ => true
  | .bare _ => false
  | .blank => false

/-- The kinds of the words of a token list. -/
def TokenLine.kinds (lines : List TokenLine) : List Kind :=
  (lines.filterMap TokenLine.token?).map Token.kind

/-- Whether an operand may end with a word of this kind. -/
def Kind.endsOperand (kind : Kind) : Bool :=
  kind = .name || kind = .number || kind = .rightBracket || kind = .rightParen

/-- The texts that a leaf for a token may have. -/
def Token.leafTexts (token : Token) : List String :=
  match token.kind with
  | .name => [Label.nameMark ++ token.spelling]
  | .number => [Label.numberMark ++ token.spelling]
  | kind => [kind.text, token.spelling]

/-- The token, with the spelling of a square bracket forgotten. -/
def Token.plain (token : Token) : Token :=
  if token.kind = .leftBracket ∨ token.kind = .rightBracket then ⟨token.kind, token.kind.text⟩
  else token

/-- Whether a token is a name or a number. -/
def Kind.isOperand (kind : Kind) : Bool :=
  kind = .name || kind = .number

/-- Whether a leaf may show a token of this kind by its spelling. -/
def Kind.keepsSpelling (kind : Kind) : Bool :=
  !kind.isOperand && kind != .leftBracket && kind != .rightBracket

theorem Token.text_mem_leafTexts {token : Token} (h : token.kind.isOperand = false) :
    token.kind.text ∈ token.leafTexts := by
  obtain ⟨kind, spelling⟩ := token
  cases kind <;> first | exact mem_cons_self | cases h

theorem Token.spelling_mem_leafTexts {token : Token} (h : token.kind.isOperand = false) :
    token.spelling ∈ token.leafTexts := by
  obtain ⟨kind, spelling⟩ := token
  cases kind <;> first | exact mem_cons_of_mem _ mem_cons_self | cases h

@[simp] theorem Token.kind_plain (token : Token) : token.plain.kind = token.kind := by
  unfold Token.plain
  split <;> rfl

/-- A leaf for a token without the spelling of its bracket is one for the token. -/
theorem Token.mem_leafTexts_of_plain {token : Token} {text : String}
    (h : text ∈ token.plain.leafTexts) : text ∈ token.leafTexts := by
  unfold Token.plain at h
  split at h
  · rename_i hbracket
    have htext : text = token.kind.text := by
      rcases hbracket with hkind | hkind <;> simpa [Token.leafTexts, hkind] using h
    rw [htext]
    refine Token.text_mem_leafTexts ?_
    rcases hbracket with hkind | hkind <;> rw [hkind] <;> rfl
  · exact h

theorem Label.afterMark?_eq_some {mark text rest : String} (h : afterMark? mark text = some rest) :
    mark ++ rest = text := by
  unfold afterMark? at h
  split at h
  · rename_i hmark
    obtain ⟨tail, htail⟩ := isPrefixOf_iff_prefix.1 hmark
    have hdrop : text.toList.drop mark.length = tail := by
      rw [← htail, ← String.length_toList, drop_left]
    simp only [hdrop] at h
    split at h
    · cases h
    · obtain rfl := Option.some.inj h
      rw [← String.toList_inj, String.toList_append, String.toList_ofList, htail]
  · cases h

/-- Every text is that of its label. -/
@[simp] theorem Label.text_ofText (text : String) : (ofText text).text = text := by
  unfold ofText
  split
  · rename_i form hform
    have htext := List.find?_some hform
    exact eq_of_beq htext
  · split
    · exact afterMark?_eq_some ‹_›
    · exact afterMark?_eq_some ‹_›
    · rfl

/-! ### Leaves -/

/-- A leaf of a syntax tree. -/
structure Leaf where
  label : Label
  /-- Whether the label was made for the token that stands there. -/
  checked : Bool
  deriving DecidableEq

/-- The label of a leaf belongs to its token; a leaf that is not checked is an `int` or a left
brace. -/
def Leaf.Shows (leaf : Leaf) (token : Token) : Prop :=
  if leaf.checked then leaf.label.text ∈ token.leafTexts
  else leaf.label = .word Kind.kwInt.text ∨ leaf.label = .word Kind.leftBrace.text

instance (leaf : Leaf) (token : Token) : Decidable (leaf.Shows token) :=
  inferInstanceAs (Decidable (if leaf.checked then _ else _))

/-- The leaves, the first of which is not checked. -/
def Leaf.uncheckFirst : List Leaf → List Leaf
  | [] => []
  | leaf :: leaves => { leaf with checked := false } :: leaves

/-- Whether the first leaf of a son is not checked: in a parameter that is not the first, and in the
body of the main function. -/
def Rule.isLoose (above : Label) (first : Bool) (son : Node) : Bool :=
  !son.leaf && (above = .rule .parameters && !first && son.label = .rule .parameter ||
    above = .rule .main && son.label = .rule .body)

/-- Whether all leaves directly below a rule are checked. -/
def Rule.isStrict (rule : Rule) : Bool :=
  rule ≠ .parameters && rule ≠ .main

namespace SyntaxTree

mutual

/-- The leaves of a tree from left to right. -/
def leaves : SyntaxTree → List Leaf
  | .node node sons =>
    (if node.leaf then [⟨node.label, true⟩] else []) ++ leavesBelow node.label true sons

/-- The leaves of trees that stand below a label, where `first` says whether they are the first
ones. -/
def leavesBelow (above : Label) (first : Bool) : List SyntaxTree → List Leaf
  | [] => []
  | .node node sons :: trees =>
    (if Rule.isLoose above first node then Leaf.uncheckFirst (leaves (.node node sons))
      else leaves (.node node sons)) ++ leavesBelow above false trees

end

theorem map_label_uncheckFirst (leaves : List Leaf) :
    (Leaf.uncheckFirst leaves).map Leaf.label = leaves.map Leaf.label := by
  cases leaves <;> rfl

mutual

/-- The leaves of a tree are its nodes in preorder that are leaves. -/
theorem map_label_leaves (tree : SyntaxTree) :
    tree.leaves.map Leaf.label = (tree.listing.filter Node.leaf).map Node.label := by
  obtain ⟨node, sons⟩ := tree
  rw [leaves, map_append, map_label_leavesBelow node.label true sons, Tree.listing_node]
  cases hleaf : node.leaf <;> simp [hleaf]

theorem map_label_leavesBelow (above : Label) (first : Bool) (trees : List SyntaxTree) :
    (leavesBelow above first trees).map Leaf.label
      = ((trees.flatMap Tree.listing).filter Node.leaf).map Node.label := by
  match trees with
  | [] => rfl
  | .node node sons :: trees =>
    have hhead : (if Rule.isLoose above first node then Leaf.uncheckFirst (leaves (.node node sons))
        else leaves (.node node sons)).map Leaf.label
        = (leaves (.node node sons)).map Leaf.label := by
      split
      · exact map_label_uncheckFirst _
      · rfl
    rw [leavesBelow, map_append, hhead, map_label_leaves (.node node sons),
      map_label_leavesBelow above false trees, flatMap_cons, filter_append,
      map_append]

end

@[simp] theorem leaves_leaf (label : Label) (line : Nat) :
    (SyntaxTree.leaf label line).leaves = [⟨label, true⟩] := rfl

/-- What the leaves of a tree look like below a label, if the tree is not the first son there. -/
def leavesAfter (above : Label) (tree : SyntaxTree) : List Leaf :=
  if Rule.isLoose above false tree.value then Leaf.uncheckFirst tree.leaves else tree.leaves

theorem leavesBelow_false (above : Label) (trees : List SyntaxTree) :
    leavesBelow above false trees = trees.flatMap (leavesAfter above) := by
  induction trees with
  | nil => rfl
  | cons tree trees ih =>
    obtain ⟨node, sons⟩ := tree
    rw [leavesBelow, ih, flatMap_cons]
    rfl

/-- Below most rules, every leaf is checked. -/
theorem leaves_branch {rule : Rule} (h : rule.isStrict = true) (line : Nat)
    (sons : List SyntaxTree) : (SyntaxTree.branch rule line sons).leaves = sons.flatMap leaves := by
  simp only [Rule.isStrict, ne_eq, Bool.and_eq_true, decide_eq_true_eq] at h
  have hloose : ∀ first node, Rule.isLoose (.rule rule) first node = false := by
    intro first node
    simp [Rule.isLoose, h.1, h.2]
  have hbelow : ∀ first, leavesBelow (.rule rule) first sons = sons.flatMap leaves := by
    induction sons with
    | nil => exact fun first => rfl
    | cons tree trees ih =>
      intro first
      obtain ⟨node, sons⟩ := tree
      rw [leavesBelow, hloose, ih, flatMap_cons]
      rfl
  exact hbelow true

end SyntaxTree

namespace Parse

/-! ### Tokens that are left -/

/-- The tokens from the current one on. -/
def State.remaining (state : State) : List Token :=
  (state.word.toList ++ state.pending.filterMap id ++
    state.lines.filterMap TokenLine.token?).map Token.plain

/-- The tokens of a list. -/
def wordsOf (lines : List TokenLine) : List Token :=
  (lines.filterMap TokenLine.token?).map Token.plain

variable {s t u : State}

/-- If no word is pending, those after the current one have not been read. -/
theorem State.remaining_eq (hpending : s.pending = []) :
    s.remaining = (s.word.map Token.plain).toList ++ wordsOf s.lines := by
  rw [State.remaining, hpending, wordsOf]
  cases s.word <;> simp

/-- The current word may be shown by a leaf with the given label. -/
def State.ShownBy (state : State) (label : Label) : Prop :=
  ∃ token, state.word = some token ∧ label.text ∈ token.plain.leafTexts

/-- The current word of `s` is passed. -/
def State.Step (s t : State) : Prop :=
  ∃ token, s.word = some token ∧ s.remaining = token.plain :: t.remaining

/-- The parser has passed one token for each leaf. -/
def Covers (leaves : List Leaf) (s t : State) : Prop :=
  ∃ passed, s.remaining = passed ++ t.remaining ∧ List.Forall₂ Leaf.Shows leaves passed

theorem State.Step.length (h : s.Step t) : s.remaining.length = t.remaining.length + 1 := by
  obtain ⟨token, -, hremaining⟩ := h
  rw [hremaining, length_cons]

theorem State.At.shownBy {kind : Kind} (h : s.At kind) (hkind : kind.isOperand = false) :
    s.ShownBy (.word kind.text) := by
  obtain ⟨token, hword, rfl⟩ := h
  refine ⟨token, hword, ?_⟩
  have hplain : token.plain.kind.isOperand = false := by rwa [Token.kind_plain]
  have htext := Token.text_mem_leafTexts hplain
  rwa [Token.kind_plain] at htext

/-- A leaf that keeps the spelling of the current word. -/
theorem State.At.shownBy_ofText {kind : Kind} (h : s.At kind)
    (hkind : kind.keepsSpelling = true) :
    s.ShownBy (.ofText ((s.word.map (·.spelling)).getD "")) := by
  obtain ⟨token, hword, rfl⟩ := h
  simp only [Kind.keepsSpelling, Bool.and_eq_true, Bool.not_eq_true', bne_iff_ne, ne_eq] at hkind
  obtain ⟨⟨hoperand, hleft⟩, hright⟩ := hkind
  refine ⟨token, hword, ?_⟩
  rw [hword, Label.text_ofText, Token.plain, if_neg (by simp [hleft, hright])]
  exact Token.spelling_mem_leafTexts hoperand

namespace Covers

variable {first second : List Leaf}

theorem of_eq (h : s.remaining = t.remaining) : Covers [] s t := ⟨[], h, .nil⟩

theorem append (hfirst : Covers first s t) (hsecond : Covers second t u) :
    Covers (first ++ second) s u := by
  obtain ⟨passed, hs, hshows⟩ := hfirst
  obtain ⟨passed', ht, hshows'⟩ := hsecond
  refine ⟨passed ++ passed', ?_, rel_append hshows hshows'⟩
  rw [hs, ht, append_assoc]

theorem leaf {label : Label} (hshown : s.ShownBy label) (hstep : s.Step t) :
    Covers [⟨label, true⟩] s t := by
  obtain ⟨token, hword, htext⟩ := hshown
  obtain ⟨token', hword', hremaining⟩ := hstep
  obtain rfl : token = token' := Option.some.inj (hword.symm.trans hword')
  exact ⟨[token.plain], hremaining, .cons htext .nil⟩

/-- The current word is passed, whatever it is. -/
theorem unchecked {label : Label}
    (hlabel : label = .word Kind.kwInt.text ∨ label = .word Kind.leftBrace.text)
    (hstep : s.Step t) : Covers [⟨label, false⟩] s t := by
  obtain ⟨token, -, hremaining⟩ := hstep
  exact ⟨[token.plain], hremaining, .cons hlabel .nil⟩

theorem length (h : Covers first s t) :
    s.remaining.length = first.length + t.remaining.length := by
  obtain ⟨passed, hs, hshows⟩ := h
  rw [hs, length_append, hshows.length_eq]

end Covers

end Parse

end ScoreLang
