import ScoreLang.Number.Binary64

/-!
# Logarithms of Powers of Two

The binary logarithm of a power of two, computed in floating point as a quotient of natural
logarithms: the natural logarithm of the power is rounded, that of two is rounded, and so is their
quotient. Three roundings do not always give the exponent back; `logOfPower 29` lies just above 29.
-/

namespace ScoreLang.Binary64

/-- The natural logarithm of two to forty decimal places, as a quotient. -/
def lnTwo : Nat × Nat := (6931471805599453094172321214581765680755, Nat.pow 10 40)

/-- The floating-point number nearest to the natural logarithm of a power of two. -/
def lnOfPower (exponent : Nat) : Binary64 :=
  round false (exponent * lnTwo.1) lnTwo.2

/-- The binary logarithm of a power of two as a quotient of floating-point numbers. -/
def logOfPower (exponent : Nat) : Binary64 :=
  div (lnOfPower exponent) (lnOfPower 1)

/-- Whether the binary logarithm of a power of two comes out as the exponent. -/
def isExactPower (exponent : Nat) : Bool :=
  logOfPower exponent == ofInt exponent

end ScoreLang.Binary64
