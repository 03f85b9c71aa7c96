/-!
# Blank Characters, Words and Lines

Token lists, code listings and typed input are texts that are cut at blanks and at line
ends. This module fixes what a blank is and how a text is cut:

* `isBlank` — the characters that separate words, in every script;
* `words` — the maximal runs of other characters, in order;
* `unifyLineEnds` — the three spellings of a line end become one;
* `splitLines` — the lines that end in a line feed, and what follows the last of them.
-/

namespace ScoreLang.Text

/-- A character that separates words: the ASCII controls from tabulator to carriage return and
from file separator to unit separator, the space, and the blanks of the other scripts. -/
def isBlank (c : Char) : Bool :=
  let n := c.toNat
  (9 ≤ n && n ≤ 13) || (28 ≤ n && n ≤ 32) || n == 0x85 || n == 0xa0 || n == 0x1680 ||
    (0x2000 ≤ n && n ≤ 0x200a) || n == 0x2028 || n == 0x2029 || n == 0x202f || n == 0x205f ||
    n == 0x3000

/-- A character that may stand around an integer: a blank other than the four ASCII
separators. -/
def isPadding (c : Char) : Bool :=
  isBlank c && !(28 ≤ c.toNat && c.toNat ≤ 31)

/-- The words of a text whose first word has already begun with the characters of `word`, last
one first. -/
def wordsFrom (word : List Char) : List Char → List String
  | [] => if word.isEmpty then [] else [String.ofList word.reverse]
  | c :: cs =>
    if isBlank c then
      if word.isEmpty then wordsFrom [] cs
      else String.ofList word.reverse :: wordsFrom [] cs
    else wordsFrom (c :: word) cs

/-- The words of a text: its maximal runs of characters that are not blank. -/
def words (text : String) : List String :=
  wordsFrom [] text.toList

/-- Every line end, be it a carriage return, a line feed or the pair of both, becomes one line
feed. -/
def unifyLineEnds : List Char → List Char
  | [] => []
  | '\r' :: '\n' :: cs => '\n' :: unifyLineEnds cs
  | '\r' :: cs => '\n' :: unifyLineEnds cs
  | c :: cs => c :: unifyLineEnds cs

/-- The finished lines of a text whose first line has already begun with the characters of
`line`, last one first, and the unfinished rest. -/
def linesFrom (line : List Char) : List Char → List String × String
  | [] => ([], String.ofList line.reverse)
  | c :: cs =>
    if c = '\n' then
      let rest := linesFrom [] cs
      (String.ofList line.reverse :: rest.1, rest.2)
    else linesFrom (c :: line) cs

/-- The lines of a text that end in a line feed, without it, and the text after the last line
feed. -/
def splitLines (text : List Char) : List String × String :=
  linesFrom [] text

end ScoreLang.Text
