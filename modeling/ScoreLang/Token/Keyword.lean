/-!
# Reserved Words

A word of letters and digits is reserved if its lower-case form is in a fixed table. The table is
sorted, and a word is looked for by bisection; one of its entries stands twice, which does no harm.
-/

namespace ScoreLang

/-- The reserved words in ascending order. -/
def reserved : Array String :=
  #["break", "call", "call", "case", "continue", "default", "do", "else", "for", "function", "if",
    "int", "main", "read", "return", "switch", "while", "write"]

/-- Whether a word is among the entries of `reserved` from `left` to `right`. It is found out with
at most `fuel` looks at the table; the outcome is `none` if they are not enough or if one of them
falls outside of the table. -/
def reservedWithin (word : String) : Nat → Nat → Nat → Option Bool
  | 0, _, _ => none
  | fuel + 1, left, right =>
    let middle := (left + right) / 2
    match reserved[middle]? with
    | none => none
    | some entry =>
      if entry = word then some true
      else if left = right then some false
      else if word < entry then reservedWithin word fuel left middle
      else reservedWithin word fuel (middle + 1) right

/-- Whether a word in lower case is reserved. Each look halves the stretch of the table that is
left, so that there are never more looks than entries. -/
def isReserved (word : String) : Bool :=
  reservedWithin word reserved.size 0 (reserved.size - 1) = some true

end ScoreLang
