/-!
# Binary Floating Point

Floating-point numbers of 64 bits as exact values: a finite number is a significand below 2^53 times
a power of two, with a sign that zero has as well. Every operation computes the exact result as a
quotient of natural numbers and rounds it once, to the nearest number, a tie to the one with an even
significand; what is too large becomes infinite.
-/

namespace ScoreLang

/-- A floating-point number. -/
inductive Binary64 where
  /-- The result of an operation that has none. -/
  | notANumber
  /-- An infinite number. -/
  | infinite (negative : Bool)
  /-- The number with the given sign, significand and power of two. -/
  | finite (negative : Bool) (significand : Nat) (exponent : Int)
  deriving DecidableEq, Repr

namespace Binary64

/-- The number of bits of a significand. -/
def precision : Nat := 53

/-- The least power of two. -/
def minExponent : Int := -1074

/-- The greatest power of two. -/
def maxExponent : Int := 971

/-- Zero with a sign. -/
def zero (negative : Bool) : Binary64 := .finite negative 0 minExponent

/-- A natural number times a power of two, as a quotient. -/
def scaled (n : Nat) (exponent : Int) : Nat × Nat :=
  if 0 ≤ exponent then (n * Nat.pow 2 exponent.toNat, 1) else (n, Nat.pow 2 (-exponent).toNat)

/-- The quotient rounded to the nearest natural number, a tie to the even one. -/
def roundQuotient (num den : Nat) : Nat :=
  let quotient := num / den
  let double := 2 * (num % den)
  if den < double ∨ den = double ∧ quotient % 2 = 1 then quotient + 1 else quotient

/-- A quotient divided by a power of two. -/
def unscaled (num den : Nat) (exponent : Int) : Nat × Nat :=
  if 0 ≤ exponent then (num, den * Nat.pow 2 exponent.toNat)
  else (num * Nat.pow 2 (-exponent).toNat, den)

/-- The power of two for which the significand of a positive quotient has full precision, or the
least one. -/
def exponentOf (num den : Nat) : Int :=
  let low : Int := num.log2 - den.log2 - precision
  let (a, b) := unscaled num den low
  max minExponent (if a / b < Nat.pow 2 precision then low else low + 1)

/-- The number nearest to a quotient of natural numbers, with the given sign. -/
def round (negative : Bool) (num den : Nat) : Binary64 :=
  if num = 0 then zero negative
  else
    let exponent := exponentOf num den
    let (a, b) := unscaled num den exponent
    let significand := roundQuotient a b
    let (significand, exponent) :=
      if significand = Nat.pow 2 precision then (Nat.pow 2 (precision - 1), exponent + 1)
      else (significand, exponent)
    if maxExponent < exponent then .infinite negative
    else .finite negative significand exponent

/-- The number nearest to an integer. -/
def ofInt (n : Int) : Binary64 :=
  round (decide (n < 0)) n.natAbs 1

/-- The number nearest to a natural number times a power of two, with the given sign. -/
def roundScaled (negative : Bool) (n : Nat) (exponent : Int) : Binary64 :=
  let (num, den) := scaled n exponent
  round negative num den

/-- The number with the opposite sign. -/
def negate : Binary64 → Binary64
  | .notANumber => .notANumber
  | .infinite negative => .infinite !negative
  | .finite negative significand exponent => .finite (!negative) significand exponent

/-- An integer from its sign and absolute value. -/
def signed (negative : Bool) (n : Nat) : Int :=
  if negative then -n else n

/-- The sum. A sum that is zero has a minus sign only if both numbers have one. -/
def add : Binary64 → Binary64 → Binary64
  | .finite s m e, .finite t n f =>
    let low := min e f
    let total := signed s (m * Nat.pow 2 (e - low).toNat) +
      signed t (n * Nat.pow 2 (f - low).toNat)
    if total = 0 then zero (s && t) else roundScaled (decide (total < 0)) total.natAbs low
  | .infinite s, .infinite t => if s = t then .infinite s else .notANumber
  | .infinite s, .finite .. => .infinite s
  | .finite .., .infinite t => .infinite t
  | _, _ => .notANumber

/-- The difference. -/
def sub (x y : Binary64) : Binary64 := add x (negate y)

/-- The product. -/
def mul : Binary64 → Binary64 → Binary64
  | .finite s m e, .finite t n f => roundScaled (s != t) (m * n) (e + f)
  | .infinite s, .infinite t => .infinite (s != t)
  | .infinite s, .finite t n _ => if n = 0 then .notANumber else .infinite (s != t)
  | .finite s m _, .infinite t => if m = 0 then .notANumber else .infinite (s != t)
  | _, _ => .notANumber

/-- The quotient. -/
def div : Binary64 → Binary64 → Binary64
  | .finite s m e, .finite t n f =>
    if n = 0 then if m = 0 then .notANumber else .infinite (s != t)
    else
      let (num, den) := scaled m (e - f)
      round (s != t) num (den * n)
  | .infinite s, .finite t _ _ => .infinite (s != t)
  | .finite s _ _, .infinite t => zero (s != t)
  | _, _ => .notANumber

/-- Whether the number is zero, with either sign. -/
def isZero : Binary64 → Bool
  | .finite _ significand _ => significand == 0
  | _ => false

end Binary64

end ScoreLang
