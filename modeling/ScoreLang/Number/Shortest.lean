import ScoreLang.Number.Binary64

/-!
# Floating-Point Numbers in Decimal

A floating-point number is written with the fewest decimal digits that read back as the number, and
of those the ones nearest to it, a tie to the even digit. Seventeen digits always suffice.

The digits are placed positionally if the decimal exponent is moderate, with at least one digit
after the point; other numbers have one digit before the point and an exponent.
-/

namespace ScoreLang.Binary64

/-- A power of ten as a quotient. -/
def tenPower (exponent : Int) : Nat × Nat :=
  if 0 ≤ exponent then (Nat.pow 10 exponent.toNat, 1) else (1, Nat.pow 10 (-exponent).toNat)

/-- The number of decimal digits of a natural number. -/
def digitCount (n : Nat) : Nat := (Nat.toDigits 10 n).length

/-- The decimal exponent of a positive quotient, counted so that the quotient is at least a tenth of
this power of ten, and below it. -/
def decimalExponent (num den : Nat) : Int :=
  if den ≤ num then digitCount (num / den)
  else
    let places := digitCount (den / num)
    if den ≤ num * Nat.pow 10 (places - 1) then 2 - places else 1 - places

/-- The decimal that consists of some digits before the given power of ten reads back as the
positive number with the given significand and power of two. -/
def readsBack (significand : Nat) (exponent : Int) (digits : Nat) (power : Int) : Bool :=
  let (num, den) := tenPower power
  round false (digits * num) den == .finite false significand exponent

/-- The digits, on the grid of the given power of ten, of a decimal that reads back as a positive
number. Only the two neighbours of the number on the grid need to be tried. -/
def digitsOnGrid? (significand : Nat) (exponent : Int) (power : Int) : Option Nat :=
  let (num, den) := scaled significand exponent
  let (a, b) := tenPower power
  let below := num * b / (den * a)
  let rest := num * b % (den * a)
  let lower := readsBack significand exponent below power
  let upper := readsBack significand exponent (below + 1) power
  if lower && upper then
    if 2 * rest < den * a ∨ 2 * rest = den * a ∧ below % 2 = 0 then some below else some (below + 1)
  else if lower then some below
  else if upper then some (below + 1)
  else none

/-- The most digits that are needed. -/
def maxDigits : Nat := 17

/-- The shortest decimal that reads back as a positive number below the given power of ten, if it
has all but at most `spare` of the `maxDigits` digits: the digits and the power of ten after
them. -/
def shortestFrom (significand : Nat) (exponent decimal : Int) : Nat → Nat × Int
  | 0 =>
    let power := decimal - maxDigits
    ((digitsOnGrid? significand exponent power).getD 0, power)
  | spare + 1 =>
    let power := decimal - maxDigits + (spare + 1)
    match digitsOnGrid? significand exponent power with
    | some digits => (digits, power)
    | none => shortestFrom significand exponent decimal spare

/-- The shortest decimal that reads back as a positive number: the digits and the power of ten after
them. -/
def shortest (significand : Nat) (exponent : Int) : Nat × Int :=
  let (num, den) := scaled significand exponent
  shortestFrom significand exponent (decimalExponent num den) (maxDigits - 1)

/-! ### Layout -/

/-- How decimals are laid out. -/
structure Layout where
  /-- The least decimal exponent of a number that is written positionally. -/
  leastPositional : Int
  /-- The least decimal exponent beyond those. -/
  leastLarge : Int
  /-- The least number of digits of an exponent. -/
  exponentWidth : Nat
  deriving DecidableEq, Repr

/-- Numbers are written positionally from a ten-thousandth up to sixteen digits; exponents have at
least two digits. -/
def layout : Layout := ⟨-4, 16, 2⟩

/-- Some zeros. -/
def zeros (count : Nat) : List Char := List.replicate count '0'

/-- A decimal exponent with its sign. -/
def exponentText (exponent : Int) : List Char :=
  let digits := Nat.toDigits 10 exponent.natAbs
  (if exponent < 0 then '-' else '+') :: zeros (layout.exponentWidth - digits.length) ++ digits

/-- The text of a positive number from its digits, without zeros at their end, and the number of
digits before the point. -/
def layOut (digits : List Char) (point : Int) : List Char :=
  let exponent := point - 1
  if layout.leastPositional ≤ exponent ∧ exponent < layout.leastLarge then
    if point ≤ 0 then '0' :: '.' :: zeros (-point).toNat ++ digits
    else if digits.length ≤ point.toNat then
      digits ++ zeros (point.toNat - digits.length) ++ ['.', '0']
    else digits.take point.toNat ++ '.' :: digits.drop point.toNat
  else
    let fraction := match digits.tail with
      | [] => []
      | rest => '.' :: rest
    digits.take 1 ++ fraction ++ 'e' :: exponentText exponent

/-- Drops the zeros at the end of some digits. -/
def trimZeros (digits : List Char) : List Char :=
  (digits.reverse.dropWhile (· == '0')).reverse

/-- The text of a positive number. -/
def positiveText (significand : Nat) (exponent : Int) : List Char :=
  let (n, power) := shortest significand exponent
  let digits := Nat.toDigits 10 n
  layOut (trimZeros digits) (digits.length + power)

/-- The text of a floating-point number. -/
def text : Binary64 → String
  | .notANumber => "nan"
  | .infinite negative => if negative then "-inf" else "inf"
  | .finite negative significand exponent =>
    let digits := if significand = 0 then ['0', '.', '0'] else positiveText significand exponent
    String.ofList (if negative then '-' :: digits else digits)

end ScoreLang.Binary64
