import ScoreLang.Text.Printable

/-!
# Quoted Text

A message that complains about a text shows it between quotes. Single quotes are preferred; a
text with a single quote and no double quote is put in double quotes. Backslashes, line ends,
tabulators and the enclosing quote are escaped by a backslash, other characters that cannot be
printed by their code point in hexadecimal, with two, four or eight digits.
-/

namespace ScoreLang.Text

/-- The lower-case hexadecimal digits of a number, with leading zeros up to the given width. -/
def hexDigits (width : Nat) (n : Nat) : String :=
  let digits := Nat.toDigits 16 n
  String.ofList (List.replicate (width - digits.length) '0' ++ digits)

/-- A character inside a quoted text. -/
def escaped (quote : Char) (c : Char) : String :=
  if c = '\\' || c = quote then String.ofList ['\\', c]
  else if c = '\n' then "\\n"
  else if c = '\r' then "\\r"
  else if c = '\t' then "\\t"
  else if isPrintable c then String.ofList [c]
  else if c.toNat < 0x100 then "\\x" ++ hexDigits 2 c.toNat
  else if c.toNat < 0x10000 then "\\u" ++ hexDigits 4 c.toNat
  else "\\U" ++ hexDigits 8 c.toNat

/-- The quote that encloses a text. -/
def enclosingQuote (text : String) : Char :=
  if text.toList.contains '\'' && !text.toList.contains '"' then '"' else '\''

/-- A text between quotes, with everything escaped that has to be. -/
def quoted (text : String) : String :=
  let quote := enclosingQuote text
  let body := text.toList.foldl (fun shown c => shown ++ escaped quote c) ""
  String.ofList [quote] ++ body ++ String.ofList [quote]

/-- The first `limit` characters of the quoted text. -/
def quotedUpTo (limit : Nat) (text : String) : String :=
  String.ofList ((quoted text).toList.take limit)

end ScoreLang.Text
