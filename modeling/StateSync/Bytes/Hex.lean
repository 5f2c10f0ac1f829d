import StateSync.Bytes

/-! Hexadecimal text: two lower-case digits a byte, read back in either case. -/

namespace StateSync.Bytes

/-- The digit of a value below sixteen. -/
def hexDigit (n : Nat) : Char :=
  if n < 10 then Char.ofNat (48 + n) else Char.ofNat (87 + n)

/-- The value of a hexadecimal digit. -/
def hexValue? (c : Char) : Option Nat :=
  if '0' ≤ c ∧ c ≤ '9' then some (c.toNat - 48)
  else if 'a' ≤ c ∧ c ≤ 'f' then some (c.toNat - 87)
  else if 'A' ≤ c ∧ c ≤ 'F' then some (c.toNat - 55)
  else none

def hexDigits (bs : Bytes) : List Char :=
  bs.flatMap fun b => [hexDigit (b.toNat / 16), hexDigit (b.toNat % 16)]

/-- A byte string as text, two digits a byte. -/
def toHex (bs : Bytes) : String := String.ofList (hexDigits bs)

/-- Reads pairs of digits; an odd digit or any other character is refused. -/
def ofHexDigits? : List Char → Option Bytes
  | [] => some []
  | [_] => none
  | high :: low :: rest => do
    let h ← hexValue? high
    let l ← hexValue? low
    let bs ← ofHexDigits? rest
    return UInt8.ofNat (16 * h + l) :: bs

def ofHex? (text : String) : Option Bytes := ofHexDigits? text.toList

end StateSync.Bytes
