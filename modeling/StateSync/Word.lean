/-! 64-bit words that stop at their bounds, and their decimal text. -/

namespace StateSync.Word

/-- The greatest word. -/
def greatest : UInt64 := UInt64.ofNat (UInt64.size - 1)

/-- The sum of two words, or the greatest word if the sum does not fit. -/
def saturatingAdd (a b : UInt64) : UInt64 :=
  if a.toNat + b.toNat < UInt64.size then a + b else greatest

/-- The difference of two words, or zero if the second is greater. -/
def saturatingSub (a b : UInt64) : UInt64 := if b ≤ a then a - b else 0

/-- The value of a run of decimal digits, refused at any other character. -/
def digitsValue? : List Char → Nat → Option Nat
  | [], n => some n
  | c :: cs, n => if c.isDigit then digitsValue? cs (10 * n + (c.toNat - 48)) else none

/-- Reads a word from decimal digits with an optional plus sign in front. -/
def ofText? (text : String) : Option UInt64 :=
  let digits := match text.toList with
    | '+' :: rest => rest
    | all => all
  match digits with
  | [] => none
  | digits => match digitsValue? digits 0 with
    | some n => if n < UInt64.size then some (UInt64.ofNat n) else none
    | none => none

theorem le_greatest (a : UInt64) : a ≤ greatest := by
  have bound := a.toNat_lt_size
  exact UInt64.le_iff_toNat_le.mpr (Nat.le_sub_one_of_lt bound)

theorem toNat_saturatingAdd (a b : UInt64) :
    (saturatingAdd a b).toNat = min (a.toNat + b.toNat) (UInt64.size - 1) := by
  have hsize : UInt64.size = 18446744073709551616 := rfl
  unfold saturatingAdd
  split
  · next h => rw [UInt64.toNat_add, Nat.mod_eq_of_lt h]; omega
  · next h => rw [greatest, UInt64.toNat_ofNat', hsize] at *; omega

theorem toNat_saturatingSub (a b : UInt64) : (saturatingSub a b).toNat = a.toNat - b.toNat := by
  unfold saturatingSub
  split
  · next h => exact UInt64.toNat_sub_of_le _ _ h
  · next h =>
    have hlt : a.toNat < b.toNat := Nat.lt_of_not_le fun hle => h (UInt64.le_iff_toNat_le.mpr hle)
    rw [UInt64.toNat_zero]
    omega

end StateSync.Word
