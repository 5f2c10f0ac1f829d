import Mathlib
import StateSync.Bytes

/-!
The numbers that byte strings spell. Main statements: a string of `k` bytes spells a number below
`256 ^ k`, and writing a number in `k` bytes keeps it modulo `256 ^ k`. Byte strings are compared
byte by byte, a proper prefix first.
-/

namespace StateSync.Bytes

theorem toNatReversed_lt (bs : Bytes) : toNatReversed bs < 256 ^ bs.length := by
  induction bs with
  | nil => simp [toNatReversed]
  | cons b bs ih =>
    have hb := b.toNat_lt
    rw [toNatReversed, List.length_cons, Nat.pow_succ]
    omega

theorem toNatReversed_ofNatReversed (width n : Nat) :
    toNatReversed (ofNatReversed width n) = n % 256 ^ width := by
  induction width generalizing n with
  | zero => simp [ofNatReversed, toNatReversed, Nat.mod_one]
  | succ width ih =>
    have hb : (UInt8.ofNat n).toNat = n % 256 := UInt8.toNat_ofNat'
    rw [ofNatReversed, toNatReversed, ih, hb, Nat.pow_succ, Nat.mul_comm (256 ^ width) 256,
      Nat.mod_mul]

theorem toNat_lt (bs : Bytes) : toNat bs < 256 ^ bs.length := by
  simpa [toNat] using toNatReversed_lt bs.reverse

theorem toNat_ofNat (width n : Nat) : toNat (ofNat width n) = n % 256 ^ width := by
  simp [toNat, ofNat, toNatReversed_ofNatReversed]

/-- A number is read back if it fits into its bytes. -/
theorem toNat_ofNat_of_lt {width n : Nat} (h : n < 256 ^ width) : toNat (ofNat width n) = n := by
  rw [toNat_ofNat, Nat.mod_eq_of_lt h]

/-- The comparison of byte strings is their lexicographic order. -/
theorem compare_eq_lt {a b : Bytes} : compare a b = .lt ↔ a < b := by
  induction a generalizing b with
  | nil =>
    cases b with
    | nil => simp
    | cons y ys => simp
  | cons x xs ih =>
    cases b with
    | nil => simp
    | cons y ys =>
      rw [List.compare_cons_cons, Ordering.then_eq_lt, List.cons_lt_cons_iff, Std.compare_eq_lt,
        Std.LawfulEqOrd.compare_eq_iff_eq, ih]

end StateSync.Bytes
