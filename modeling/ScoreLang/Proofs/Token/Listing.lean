import ScoreLang.Proofs.Machine.Load
import ScoreLang.Proofs.Token.Spelling

/-!
# Token Lists Are Read as They Were Written

A token list is written as a text and read back line by line: a line mark stands alone, and every
other line is cut at its blanks. A line is *tidy* if nothing is lost on that way: the word for its
kind names that kind again, and neither this word nor the spelling is empty or holds a blank.

`TokenLine.ofText_listText`: a list of tidy lines is read back from its text.
-/

namespace ScoreLang

open List Text

/-- A text that the reader of a token list takes for a single word. -/
def Text.IsWord (text : String) : Prop := text ≠ "" ∧ Solid text

instance (text : String) : Decidable (IsWord text) :=
  inferInstanceAs (Decidable (text ≠ "" ∧ Solid text))

namespace TokenLine

/-- A line that is read back as it was written. -/
def Tidy : TokenLine → Prop
  | .enter => True
  | .token word => IsWord word.kind.text ∧ IsWord word.spelling ∧ Kind.ofText word.kind.text
      = word.kind
  | .bare _ => False
  | .blank => False

/-- The text of a line without its line feed. -/
def content : TokenLine → String
  | .enter => enterMark
  | .token word => padded 15 word.kind.text ++ " " ++ word.spelling
  | .bare kind => kind.text
  | .blank => ""

theorem toList_text (line : TokenLine) : line.text.toList = line.content.toList ++ ['\n'] := by
  cases line with
  | enter | token | bare | blank => simp [text, content, String.toList_append]

theorem toList_listText (lines : List TokenLine) :
    (listText lines).toList = lines.flatMap fun line => line.text.toList := by
  have hfold : ∀ written : String,
      (lines.foldl (fun written line => written ++ line.text) written).toList
        = written.toList ++ lines.flatMap fun line => line.text.toList := by
    induction lines with
    | nil => intro written; simp
    | cons line lines ih => intro written; simp [ih, String.toList_append]
  simpa [listText] using hfold ""

/-- The kind and the spelling stand in one line with blanks in between. -/
theorem toList_content_token (word : Token) :
    (content (.token word)).toList = word.kind.text.toList ++
      (List.replicate (15 - word.kind.text.length + 1) ' ' ++ word.spelling.toList) := by
  simp [content, padded, String.toList_append, replicate_succ', append_assoc]

/-- The content of a tidy line has no blank but spaces. -/
theorem eq_space_of_mem_content {line : TokenLine} (h : line.Tidy) {c : Char}
    (hc : c ∈ line.content.toList) (hblank : isBlank c = true) : c = ' ' := by
  cases line with
  | enter =>
    have hmark : Solid enterMark := by decide
    rw [hmark c hc] at hblank
    exact Bool.noConfusion hblank
  | token word =>
    obtain ⟨⟨-, hkind⟩, ⟨-, hspelling⟩, -⟩ := h
    rw [toList_content_token, mem_append, mem_append, mem_replicate] at hc
    rcases hc with hc | ⟨-, rfl⟩ | hc
    · rw [hkind c hc] at hblank
      exact Bool.noConfusion hblank
    · rfl
    · rw [hspelling c hc] at hblank
      exact Bool.noConfusion hblank
  | bare | blank => exact h.elim

/-- The reader finds the lines that were written. -/
theorem splitLines_listText {lines : List TokenLine} (h : ∀ line ∈ lines, line.Tidy) :
    splitLines (unifyLineEnds (listText lines).toList) = (lines.map content, "") := by
  have htext : (listText lines).toList
      = (lines.map content).flatMap fun line => line.toList ++ ['\n'] := by
    rw [toList_listText, flatMap_map]
    exact flatMap_congr fun line _ => line.toList_text
  rw [htext, splitLines_unifyLineEnds]
  intro line hline c hc hblank
  obtain ⟨line, hmem, rfl⟩ := mem_map.1 hline
  exact eq_space_of_mem_content (h line hmem) hc hblank

/-- The line of a token is cut into its kind and its spelling. -/
theorem words_content {word : Token} (hkind : IsWord word.kind.text)
    (hspelling : IsWord word.spelling) :
    words (content (.token word)) = [word.kind.text, word.spelling] := by
  have hlast : wordsFrom [] word.spelling.toList = [word.spelling] := by
    have hwords := wordsFrom_solid hspelling.2 [] []
    rw [append_nil] at hwords
    rw [hwords]
    simp [wordsFrom, hspelling.1]
  rw [words, toList_content_token, wordsFrom_solid hkind.2, wordsFrom_end (by simpa using hkind.1),
    hlast]
  simp

/-- The line of a token is not taken for a line mark. -/
theorem content_token_ne_enterMark (word : Token) : content (.token word) ≠ enterMark := by
  intro h
  have hspace : ' ' ∈ (content (.token word)).toList := by
    rw [toList_content_token]
    simp [replicate_succ]
  rw [h] at hspace
  exact absurd hspace (by decide)

/-- **A list of tidy lines is read back from its text.** -/
theorem ofText_listText {lines : List TokenLine} (h : ∀ line ∈ lines, line.Tidy) :
    ofText (listText lines) = lines := by
  rw [ofText, splitLines_listText h]
  have hline : ∀ line ∈ lines,
      (if line.content = enterMark then .enter else ofWords (words line.content)) = line := by
    intro line hmem
    have htidy := h line hmem
    cases line with
    | enter => rfl
    | token word =>
      obtain ⟨hkind, hspelling, hof⟩ := htidy
      rw [if_neg (content_token_ne_enterMark word), words_content hkind hspelling, ofWords, hof]
    | bare | blank => exact htidy.elim
  simp only [map_map]
  exact (map_congr_left hline).trans (map_id' lines)

end TokenLine

end ScoreLang
