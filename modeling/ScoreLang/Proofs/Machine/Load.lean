import Mathlib.Data.List.Nodup
import Mathlib.Tactic.Common
import ScoreLang.Machine.Code

/-!
# Code Is Loaded as It Was Written

The code generator writes lines, and the machine reads a text. A line is *tidy* if the machine
finds in its text what the generator put there: a label begins like one, and a command and its
operand hold no blanks. The text of tidy lines is loaded line by line, and if no label occurs
twice, then every label is found at its line.
-/

namespace ScoreLang

open List

namespace Text

/-- A text without blanks. -/
def Solid (text : String) : Prop := ∀ c ∈ text.toList, isBlank c = false

instance (text : String) : Decidable (Solid text) :=
  List.decidableBAll (fun c => isBlank c = false) text.toList

theorem solid_append {first second : String} (hfirst : Solid first) (hsecond : Solid second) :
    Solid (first ++ second) := by
  intro c hc
  rw [String.toList_append, mem_append] at hc
  exact hc.elim (hfirst c) (hsecond c)

/-! ### Words -/

/-- Characters that are not blank extend the word that has begun. -/
theorem wordsFrom_solid {cs : List Char} (hcs : ∀ c ∈ cs, isBlank c = false)
    (begun rest : List Char) :
    wordsFrom begun (cs ++ rest) = wordsFrom (cs.reverse ++ begun) rest := by
  induction cs generalizing begun with
  | nil => rfl
  | cons c cs ih =>
    rw [cons_append, wordsFrom, hcs c (by simp), if_neg (by decide),
      ih (fun d hd => hcs d (by simp [hd]))]
    simp

/-- Spaces between words count for nothing. -/
theorem wordsFrom_spaces (count : Nat) (rest : List Char) :
    wordsFrom [] (List.replicate count ' ' ++ rest) = wordsFrom [] rest := by
  induction count with
  | zero => rfl
  | succ count ih =>
    rw [replicate_succ, cons_append, wordsFrom, if_pos (by decide), if_pos (by rfl), ih]

/-- A space ends the word that has begun. -/
theorem wordsFrom_end {begun : List Char} (hbegun : begun ≠ []) (count : Nat) (rest : List Char) :
    wordsFrom begun (List.replicate (count + 1) ' ' ++ rest)
      = String.ofList begun.reverse :: wordsFrom [] rest := by
  rw [replicate_succ, cons_append, wordsFrom, if_pos (by decide),
    if_neg (by simpa using hbegun), wordsFrom_spaces]

/-! ### Lines -/

theorem unifyLineEnds_eq_self {cs : List Char} (h : '\r' ∉ cs) : unifyLineEnds cs = cs := by
  fun_induction unifyLineEnds cs with
  | case1 => rfl
  | case2 cs ih => simp at h
  | case3 cs hnext ih => simp at h
  | case4 c cs hpair hsingle ih =>
    rw [ih (fun hmem => h (mem_cons_of_mem _ hmem))]

/-- A line feed ends the line that has begun. -/
theorem linesFrom_line {cs : List Char} (hcs : '\n' ∉ cs) (begun rest : List Char) :
    linesFrom begun (cs ++ '\n' :: rest)
      = (String.ofList (begun.reverse ++ cs) :: (linesFrom [] rest).1, (linesFrom [] rest).2) := by
  induction cs generalizing begun with
  | nil => simp [linesFrom]
  | cons c cs ih =>
    rw [mem_cons, not_or] at hcs
    rw [cons_append, linesFrom, if_neg (Ne.symm hcs.1), ih hcs.2]
    simp

/-- A text of ended lines is cut into these lines. -/
theorem splitLines_flatMap {lines : List String} (hlines : ∀ line ∈ lines, '\n' ∉ line.toList) :
    splitLines (lines.flatMap fun line => line.toList ++ ['\n']) = (lines, "") := by
  unfold splitLines
  induction lines with
  | nil => rfl
  | cons line lines ih =>
    rw [flatMap_cons, append_assoc, singleton_append,
      linesFrom_line (hlines line (by simp)), ih (fun l hl => hlines l (by simp [hl]))]
    simp

/-- The same for a text whose line ends are unified first, if its lines have no blanks but
spaces. -/
theorem splitLines_unifyLineEnds {lines : List String}
    (hlines : ∀ line ∈ lines, ∀ c ∈ line.toList, isBlank c = true → c = ' ') :
    splitLines (unifyLineEnds (lines.flatMap fun line => line.toList ++ ['\n'])) = (lines, "") := by
  rw [unifyLineEnds_eq_self, splitLines_flatMap]
  · intro line hline hfeed
    exact absurd (hlines line hline '\n' hfeed (by decide)) (by decide)
  · intro hreturn
    simp only [mem_flatMap, mem_append, mem_singleton] at hreturn
    obtain ⟨line, hline, hc | hc⟩ := hreturn
    · exact absurd (hlines line hline '\r' hc (by decide)) (by decide)
    · exact absurd hc (by decide)

end Text

open Text

/-! ### Tidy lines -/

namespace CodeLine

/-- A line that the machine reads as it is meant. -/
def Tidy : CodeLine → Prop
  | .label name => labelMark.toList <+: name.toList ∧ Solid name
  | .command name operand =>
    name.toList ≠ [] ∧ name.toList.length < commandWidth ∧ Solid name ∧ Solid operand
  | .bare name => name.toList ≠ [] ∧ Solid name
  | .verbatim _ => False

/-- The text of a line without its line feed. -/
def content : CodeLine → String
  | .label name => name ++ ":"
  | .command name operand => indent ++ padded name ++ operand
  | .bare name => indent ++ name
  | .verbatim text => text

/-- The words of a command and its operand, which may be empty. -/
def commandWords (name operand : String) : List String :=
  name :: if operand = "" then [] else [operand]

/-- A line of loaded code. -/
def row : CodeLine → Machine.Row
  | .label _ => .label
  | .command name operand => .command (commandWords name operand)
  | .bare name => .command [name]
  | .verbatim text => Machine.Code.row text

/-- The name of a label. -/
def name? : CodeLine → Option String
  | .label name => some name
  | _ => none

theorem toList_text {line : CodeLine} (h : line.Tidy) :
    line.text.toList = line.content.toList ++ ['\n'] := by
  cases line with
  | label name => simp [text, content, String.toList_append]
  | command name operand => simp [text, content, String.toList_append]
  | bare name => simp [text, content, String.toList_append]
  | verbatim text => exact h.elim

theorem toList_padded (name : String) :
    (padded name).toList
      = name.toList ++ List.replicate (commandWidth - name.toList.length) ' ' := by
  rw [padded, String.toList_append, String.length_toList]
  simp

theorem toList_indent : indent.toList = List.replicate 4 ' ' := rfl

/-- The content of a tidy line has no blank but spaces. -/
theorem eq_space_of_mem_content {line : CodeLine} (h : line.Tidy) {c : Char}
    (hc : c ∈ line.content.toList) (hblank : isBlank c = true) : c = ' ' := by
  have hsolid : ∀ {text : String}, Solid text → c ∉ text.toList := fun htext hmem => by
    simp [htext c hmem] at hblank
  cases line with
  | label name =>
    simp only [content, String.toList_append, mem_append] at hc
    rcases hc with hc | hc
    · exact (hsolid h.2 hc).elim
    · obtain rfl : c = ':' := by simpa using hc
      exact absurd hblank (by decide)
  | command name operand =>
    simp only [content, String.toList_append, toList_padded, toList_indent, mem_append,
      mem_replicate] at hc
    rcases hc with (⟨-, rfl⟩ | hc | ⟨-, rfl⟩) | hc
    · rfl
    · exact (hsolid h.2.2.1 hc).elim
    · rfl
    · exact (hsolid h.2.2.2 hc).elim
  | bare name =>
    simp only [content, String.toList_append, toList_indent, mem_append,
      mem_replicate] at hc
    rcases hc with ⟨-, rfl⟩ | hc
    · rfl
    · exact (hsolid h.2 hc).elim
  | verbatim text => exact h.elim

theorem words_command {name operand : String} (h : (CodeLine.command name operand).Tidy) :
    words (CodeLine.command name operand).content = commandWords name operand := by
  obtain ⟨hname, hlength, hsolid, hoperand⟩ := h
  obtain ⟨count, hcount⟩ : ∃ count, commandWidth - name.toList.length = count + 1 :=
    ⟨commandWidth - name.toList.length - 1, by omega⟩
  have hrest : wordsFrom [] operand.toList = if operand = "" then [] else [operand] := by
    have hwords := wordsFrom_solid hoperand [] []
    rw [append_nil] at hwords
    rw [hwords]
    by_cases hempty : operand = ""
    · simp [hempty, wordsFrom]
    · have hne : operand.toList ≠ [] := by simpa using hempty
      simp [wordsFrom, hempty]
  rw [words, content, String.toList_append, String.toList_append, toList_indent, append_assoc,
    wordsFrom_spaces, toList_padded, append_assoc, wordsFrom_solid hsolid, hcount,
    wordsFrom_end (by simpa using hname), hrest]
  simp [commandWords]

theorem words_bare {name : String} (h : (CodeLine.bare name).Tidy) :
    words (CodeLine.bare name).content = [name] := by
  have hwords := wordsFrom_solid h.2 [] []
  rw [append_nil] at hwords
  have hne : name.toList ≠ [] := h.1
  rw [words, content, String.toList_append, toList_indent, wordsFrom_spaces, hwords]
  simp only [wordsFrom, append_nil, isEmpty_reverse, reverse_reverse,
    String.ofList_toList]
  rw [if_neg (by simpa using hne)]

/-- Only labels begin like labels. -/
theorem isLabel_content {line : CodeLine} (h : line.Tidy) :
    Machine.Code.isLabel line.content = line.name?.isSome := by
  cases line with
  | label name =>
    rw [Machine.Code.isLabel, isPrefixOf_iff_prefix.2]
    · rfl
    · rw [content, String.toList_append]
      exact h.1.trans (prefix_append _ _)
  | command name operand =>
    rw [Machine.Code.isLabel, content, String.toList_append, String.toList_append, toList_indent]
    rfl
  | bare name =>
    rw [Machine.Code.isLabel, content, String.toList_append, toList_indent]
    rfl
  | verbatim text => exact h.elim

theorem row_content {line : CodeLine} (h : line.Tidy) :
    Machine.Code.row line.content = line.row := by
  rw [Machine.Code.row, isLabel_content h]
  cases line with
  | label name => rfl
  | command name operand => exact congrArg Machine.Row.command (words_command h)
  | bare name => exact congrArg Machine.Row.command (words_bare h)
  | verbatim text => exact h.elim

theorem toList_listText (lines : List CodeLine) :
    (listText lines).toList = lines.flatMap fun line => line.text.toList := by
  have hfold : ∀ (shown : String), (lines.foldl (fun shown line => shown ++ line.text) shown).toList
      = shown.toList ++ lines.flatMap fun line => line.text.toList := by
    induction lines with
    | nil => intro shown; simp
    | cons line lines ih => intro shown; simp [ih, String.toList_append]
  simpa [listText] using hfold ""

/-- The machine finds the lines that were written. -/
theorem splitLines_listText {lines : List CodeLine} (h : ∀ line ∈ lines, line.Tidy) :
    splitLines (unifyLineEnds (listText lines).toList) = (lines.map content, "") := by
  have htext : (listText lines).toList
      = (lines.map content).flatMap fun line => line.toList ++ ['\n'] := by
    rw [toList_listText, flatMap_map]
    exact flatMap_congr fun line hline => toList_text (h line hline)
  rw [htext, splitLines_unifyLineEnds]
  intro line hline c hc hblank
  obtain ⟨line, hmem, rfl⟩ := mem_map.1 hline
  exact eq_space_of_mem_content (h line hmem) hc hblank

end CodeLine

/-! ### Labels -/

namespace Machine.Code

theorem lookup_enter (labels : List (String × Nat)) (name other : String) (place : Nat) :
    (enter labels name place).lookup other
      = if other = name then some place else labels.lookup other := by
  by_cases h : other = name
  · simp [enter, h]
  · have hbeq : (other == name) = false := by simpa using h
    rw [enter, lookup_cons, hbeq, if_neg h]
    induction labels with
    | nil => rfl
    | cons entry labels ih =>
      obtain ⟨first, line⟩ := entry
      by_cases hfirst : first = name
      · simpa [hfirst, lookup_cons, hbeq] using ih
      · by_cases hfound : other = first
        · simp [hfirst, hfound]
        · have hskip : (other == first) = false := by simpa using hfound
          simpa [filter_cons, hfirst, lookup_cons, hskip] using ih

/-- The labels after a tidy line. -/
theorem enterLabels_content {line : CodeLine} (h : line.Tidy) (labels : List (String × Nat))
    (place : Nat) (lines : List String) :
    enterLabels labels place (line.content :: lines)
      = enterLabels (match line.name? with
        | some name => enter labels name place
        | none => labels) (place + 1) lines := by
  rw [enterLabels, CodeLine.isLabel_content h]
  cases line with
  | label name =>
    have hname : String.ofList (CodeLine.label name).content.toList.dropLast = name := by
      simp [CodeLine.content, String.toList_append]
    simp [CodeLine.name?, hname]
  | command name operand => rfl
  | bare name => rfl
  | verbatim text => exact h.elim

variable {lines : List CodeLine}

/-- A name that is no label of some lines means what it meant before them. -/
theorem lookup_enterLabels_of_not_mem (h : ∀ line ∈ lines, line.Tidy) {name : String}
    (hname : name ∉ lines.filterMap CodeLine.name?) (labels : List (String × Nat)) (place : Nat) :
    (enterLabels labels place (lines.map CodeLine.content)).lookup name = labels.lookup name := by
  induction lines generalizing labels place with
  | nil => rfl
  | cons line lines ih =>
    have htidy : ∀ l ∈ lines, l.Tidy := fun l hl => h l (by simp [hl])
    rw [map_cons, enterLabels_content (h line (by simp))]
    cases hline : line.name? with
    | none =>
      rw [filterMap_cons_none hline] at hname
      exact ih htidy hname _ _
    | some other =>
      rw [filterMap_cons_some hline, mem_cons, not_or] at hname
      simp only
      rw [ih htidy hname.2, lookup_enter, if_neg hname.1]

/-- A label that occurs once is found at its line. -/
theorem lookup_enterLabels (h : ∀ line ∈ lines, line.Tidy)
    (hnodup : (lines.filterMap CodeLine.name?).Nodup) {i : Nat} {name : String}
    (hi : lines[i]? = some (.label name)) (labels : List (String × Nat)) (place : Nat) :
    (enterLabels labels place (lines.map CodeLine.content)).lookup name = some (place + i) := by
  induction lines generalizing i labels place with
  | nil => simp at hi
  | cons line lines ih =>
    have htidy : ∀ l ∈ lines, l.Tidy := fun l hl => h l (by simp [hl])
    rw [map_cons, enterLabels_content (h line (by simp))]
    cases i with
    | zero =>
      obtain rfl : line = .label name := by simpa using hi
      rw [filterMap_cons_some (f := CodeLine.name?) rfl, nodup_cons] at hnodup
      simp only [CodeLine.name?]
      rw [lookup_enterLabels_of_not_mem htidy hnodup.1, lookup_enter, if_pos rfl]
      rfl
    | succ i =>
      have hrest : (lines.filterMap CodeLine.name?).Nodup := by
        cases hline : line.name? with
        | none => rwa [filterMap_cons_none hline] at hnodup
        | some other =>
          rw [filterMap_cons_some hline, nodup_cons] at hnodup
          exact hnodup.2
      rw [ih htidy hrest (by simpa using hi)]
      congr 1
      omega

/-! ### Loaded lines -/

/-- Code that holds some lines: it has a row for each of them, and finds every label at its line. -/
structure Holds (code : Code) (lines : List CodeLine) : Prop where
  rows : code.rows = (lines.map CodeLine.row).toArray
  find : ∀ {i : Nat} {name : String}, lines[i]? = some (.label name) → code.find? name = some i

/-- **Code is loaded as it was written**: the text of tidy lines without repeated labels is code
that holds them. -/
theorem holds_ofText (h : ∀ line ∈ lines, line.Tidy)
    (hnodup : (lines.filterMap CodeLine.name?).Nodup) :
    (ofText (CodeLine.listText lines)).Holds lines where
  rows := by
    rw [ofText, CodeLine.splitLines_listText h]
    simp only [map_map]
    exact congrArg List.toArray (map_congr_left fun line hline =>
      CodeLine.row_content (h line hline))
  find := by
    intro i name hi
    rw [ofText, CodeLine.splitLines_listText h]
    simpa [find?] using lookup_enterLabels h hnodup hi [] 0

theorem Holds.row {code : Code} (h : code.Holds lines) (i : Nat) :
    code.rows[i]? = lines[i]?.map CodeLine.row := by
  rw [h.rows]
  simp

end Machine.Code

end ScoreLang
