/-!
Rounded numbers: quotients rounded to the nearest number, a half to the even neighbour, with their
decimals; and natural numbers in double precision, with the 64 bits of a double.
-/

namespace StateSync.Decimal

/-- The quotient rounded to the nearest number, a half to the even neighbour. -/
def roundDiv (num den : Nat) : Nat :=
  let q := num / den
  let twiceRest := 2 * (num % den)
  if den < twiceRest ∨ (twiceRest = den ∧ q % 2 = 1) then q + 1 else q

/-- Digits of a number, filled with zeros in front up to a width. -/
def padded (width n : Nat) : String :=
  let digits := toString n
  String.ofList (List.replicate (width - digits.length) '0') ++ digits

/-- A quotient with two decimal places, rounded from its exact value. -/
def hundredths (num den : Nat) : String :=
  let scaled := roundDiv (100 * num) den
  toString (scaled / 100) ++ "." ++ padded 2 (scaled % 100)

end StateSync.Decimal

namespace StateSync.Binary64

/-- Bits behind the leading bit of a double. -/
def fractionBits : Nat := 52

/-- The bits of a number below those that a double keeps. -/
def excessBits (n : Nat) : Nat := n.log2 - fractionBits

/-- The number rounded to the nearest double, a half to the even neighbour. -/
def nearest (n : Nat) : Nat := Decimal.roundDiv n (1 <<< excessBits n) <<< excessBits n

/-- The bits of the double `n / 2 ^ shift`, for an `n` that is a double itself. -/
def bits (n shift : Nat) : UInt64 :=
  if n = 0 then 0
  else
    let exponent := n.log2
    let fraction := ((n <<< fractionBits) >>> exponent) - (1 <<< fractionBits)
    UInt64.ofNat (((1023 + exponent - shift) <<< fractionBits) + fraction)

end StateSync.Binary64
