import ScoreLang.Number.Shortest
import ScoreLang.Text.Integer

/-!
# Values of the Machine

The machine computes with integers of any size and with floating-point numbers, which arise from
divisions. An operation on an integer and a floating-point number takes the floating-point number
nearest to the integer; it fails if that is infinite. Comparisons are exact.
-/

namespace ScoreLang

/-- A value of the machine. -/
inductive Value where
  | integer (n : Int)
  /-- A floating-point number. -/
  | real (x : Binary64)
  deriving DecidableEq, Repr

/-- Why an operation on values has no result. -/
inductive ValueFault where
  /-- An integer or a quotient is beyond the floating-point numbers, or an infinite number is to
  become an integer. -/
  | tooLarge
  /-- The result of an undefined operation is to become an integer. -/
  | notANumber
  /-- An integer has too many digits. -/
  | integer (fault : Text.IntegerFault)
  deriving DecidableEq, Repr

namespace Value

/-- The floating-point number for a value. -/
def toReal : Value → Except ValueFault Binary64
  | .real x => .ok x
  | .integer n =>
    match Binary64.ofInt n with
    | .infinite _ => .error .tooLarge
    | x => .ok x

/-- The integer part of a value. -/
def truncate : Value → Except ValueFault Int
  | .integer n => .ok n
  | .real .notANumber => .error .notANumber
  | .real (.infinite _) => .error .tooLarge
  | .real (.finite negative significand exponent) =>
    let (num, den) := Binary64.scaled significand exponent
    .ok (Binary64.signed negative (num / den))

/-- The text of a value. -/
def text : Value → Except Text.IntegerFault String
  | .integer n => Text.writeInteger n
  | .real x => .ok x.text

/-- Whether a value is zero. -/
def isZero : Value → Bool
  | .integer n => n == 0
  | .real x => x.isZero

/-! ### Arithmetic -/

/-- An operation that is given for integers and for floating-point numbers. -/
def combine (onIntegers : Int → Int → Int) (onReals : Binary64 → Binary64 → Binary64)
    (a b : Value) : Except ValueFault Value :=
  match a, b with
  | .integer m, .integer n => .ok (.integer (onIntegers m n))
  | a, b => do return .real (onReals (← a.toReal) (← b.toReal))

/-- The sum. -/
def add : Value → Value → Except ValueFault Value := combine (· + ·) Binary64.add

/-- The difference. -/
def sub : Value → Value → Except ValueFault Value := combine (· - ·) Binary64.sub

/-- The product. -/
def mul : Value → Value → Except ValueFault Value := combine (· * ·) Binary64.mul

/-- The quotient, which is a floating-point number also for integers: the one nearest to the exact
quotient. -/
def div (a b : Value) : Except ValueFault Value :=
  match a, b with
  | .integer m, .integer n =>
    match Binary64.round (decide (m < 0) != decide (n < 0)) m.natAbs n.natAbs with
    | .infinite _ => .error .tooLarge
    | x => .ok (.real x)
  | a, b => do return .real (Binary64.div (← a.toReal) (← b.toReal))

/-! ### Comparison -/

/-- A place on the line of numbers. -/
inductive Place where
  /-- Before all numbers. -/
  | bottom
  /-- A quotient of an integer and a positive natural number. -/
  | quotient (num : Int) (den : Nat)
  /-- After all numbers. -/
  | top
  deriving DecidableEq, Repr

/-- How two places are ordered. -/
def Place.order : Place → Place → Ordering
  | .bottom, .bottom => .eq
  | .bottom, _ => .lt
  | _, .bottom => .gt
  | .top, .top => .eq
  | .top, _ => .gt
  | _, .top => .lt
  | .quotient a b, .quotient c d => compare (a * d) (c * b)

/-- Where a value is on the line of numbers, if anywhere. -/
def place? : Value → Option Place
  | .integer n => some (.quotient n 1)
  | .real .notANumber => none
  | .real (.infinite negative) => some (if negative then .bottom else .top)
  | .real (.finite negative significand exponent) =>
    let (num, den) := Binary64.scaled significand exponent
    some (.quotient (Binary64.signed negative num) den)

/-- How two values are ordered; `none` if one of them is not a number. -/
def order? (a b : Value) : Option Ordering := do
  return (← a.place?).order (← b.place?)

/-- Whether two values are equal. -/
def same (a b : Value) : Bool := order? a b == some .eq

/-- Whether the first value is less than the second one. -/
def isLess (a b : Value) : Bool := order? a b == some .lt

/-- Whether the first value is at most the second one. -/
def isAtMost (a b : Value) : Bool := isLess a b || same a b

end Value

end ScoreLang
