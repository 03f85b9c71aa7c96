import ScoreLang.Text.Blank
import ScoreLang.Text.Digit
import ScoreLang.Text.Quoted

/-!
# Integers in Decimal

An integer is spelled as a sign, which may be absent, and at least one digit; a single underscore
may stand between two digits, and padding around the whole. At most `maxDigits` digits are read
or written: the work of both grows with the square of their number.

The limit is checked as soon as the run of digits has ended, before what follows it is looked at;
a misplaced underscore counts as a malformed text whatever the number of digits.
-/

namespace ScoreLang.Text

/-- The most digits that an integer may have to be read or written. -/
def maxDigits : Nat := 4300

/-- Why a text is not read as an integer, or an integer not written. -/
inductive IntegerFault where
  /-- The text is not the spelling of an integer. -/
  | malformed (text : String)
  /-- The spelling has too many digits; their number. -/
  | tooManyDigits (count : Nat)
  /-- The integer has too many digits to be written. -/
  | tooLargeToWrite
  deriving DecidableEq, Repr

/-- The wording of the fault. -/
def IntegerFault.message : IntegerFault → String
  | .malformed text => "invalid literal for int() with base 10: " ++ quotedUpTo 200 text
  | .tooManyDigits count =>
    "Exceeds the limit (4300 digits) for integer string conversion: value has " ++
      toString count ++ " digits; use sys.set_int_max_str_digits() to increase the limit"
  | .tooLargeToWrite =>
    "Exceeds the limit (4300 digits) for integer string conversion; " ++
      "use sys.set_int_max_str_digits() to increase the limit"

/-- The run of digits at the start of a text, last digit first, and the rest. `digits` are those
already read, and `afterDigit` says whether the last character read was one of them; `none` if an
underscore is not between two digits or there is no digit. -/
def digitRun (digits : List Nat) (afterDigit : Bool) : List Char → Option (List Nat × List Char)
  | [] => if afterDigit then some (digits, []) else none
  | c :: cs =>
    match digitValue? c with
    | some d => digitRun (d :: digits) true cs
    | none =>
      if c = '_' then
        if afterDigit then digitRun digits false cs else none
      else if afterDigit then some (digits, c :: cs) else none

/-- The number with the given decimal digits, last digit first. -/
def ofDigits (digits : List Nat) : Nat :=
  digits.foldr (fun d n => 10 * n + d) 0

/-- The sign at the start of a text, `true` for minus, and the rest. -/
def splitSign : List Char → Bool × List Char
  | '-' :: cs => (true, cs)
  | '+' :: cs => (false, cs)
  | cs => (false, cs)

/-- The integer that a text spells. -/
def readInteger (text : String) : Except IntegerFault Int :=
  let signed := splitSign (text.toList.dropWhile isPadding)
  match digitRun [] false signed.2 with
  | none => .error (.malformed text)
  | some (digits, rest) =>
    if maxDigits < digits.length then .error (.tooManyDigits digits.length)
    else if rest.all isPadding then
      let n : Int := ofDigits digits
      .ok (if signed.1 then -n else n)
    else .error (.malformed text)

/-- The least number with too many digits to be written. -/
def writeLimit : Nat := Nat.pow 10 maxDigits

/-- The decimal spelling of an integer, with a minus sign if it is negative. -/
def writeInteger (n : Int) : Except IntegerFault String :=
  if n.natAbs < writeLimit then .ok (toString n) else .error .tooLargeToWrite

end ScoreLang.Text
