/-! Byte strings and the big-endian numbers written in them. -/

namespace StateSync

/-- A byte string. -/
abbrev Bytes := List UInt8

namespace Bytes

/-- The number that a byte string spells, least significant byte first. -/
def toNatReversed : Bytes → Nat
  | [] => 0
  | b :: bs => b.toNat + 256 * toNatReversed bs

/-- The low `width` bytes of a number, least significant first. -/
def ofNatReversed : (width n : Nat) → Bytes
  | 0, _ => []
  | width + 1, n => UInt8.ofNat n :: ofNatReversed width (n / 256)

/-- The number that a byte string spells, most significant byte first. -/
def toNat (bs : Bytes) : Nat := toNatReversed bs.reverse

/-- The low `width` bytes of a number, most significant first. -/
def ofNat (width n : Nat) : Bytes := (ofNatReversed width n).reverse

@[simp] theorem length_ofNatReversed (width n : Nat) :
    (ofNatReversed width n).length = width := by
  induction width generalizing n with
  | zero => rfl
  | succ width ih => simp [ofNatReversed, ih]

@[simp] theorem length_ofNat (width n : Nat) : (ofNat width n).length = width := by
  simp [ofNat]

theorem ofNatReversed_toNatReversed (bs : Bytes) :
    ofNatReversed bs.length (toNatReversed bs) = bs := by
  induction bs with
  | nil => rfl
  | cons b bs ih =>
    have hb := b.toNat_lt
    have hlow : UInt8.ofNat (b.toNat + 256 * toNatReversed bs) = b := by
      apply UInt8.toNat_inj.mp
      rw [UInt8.toNat_ofNat']
      omega
    have hhigh : (b.toNat + 256 * toNatReversed bs) / 256 = toNatReversed bs := by omega
    rw [List.length_cons, toNatReversed, ofNatReversed, hlow, hhigh, ih]

theorem ofNat_toNat (bs : Bytes) : ofNat bs.length (toNat bs) = bs := by
  have h := ofNatReversed_toNatReversed bs.reverse
  rw [List.length_reverse] at h
  simp [toNat, ofNat, h]

end Bytes

end StateSync
