import Mathlib
import StateSync.Bytes.Lemmas
import StateSync.Hash

/-!
The numbers, order and bytes of hashes. Main statements: 32 bytes and hashes are in one-to-one
correspondence, each written form read back.
-/

namespace StateSync.Hash

theorem toNat_lt (h : Hash) : h.toNat < 2 ^ 256 := h.bits.isLt

@[simp] theorem toNat_ofNat (n : Nat) : (ofNat n).toNat = n % 2 ^ 256 := BitVec.toNat_ofNat n 256

theorem ofBytes_toBytes (h : Hash) : ofBytes h.toBytes = h := by
  have hlt := h.toNat_lt
  apply toNat_inj.mp
  rw [ofBytes, toNat_ofNat, toBytes, Bytes.toNat_ofNat]
  omega

theorem toBytes_ofBytes {bs : Bytes} (h : bs.length = 32) : (ofBytes bs).toBytes = bs := by
  have hlt := Bytes.toNat_lt bs
  rw [h] at hlt
  rw [toBytes, ofBytes, toNat_ofNat, Nat.mod_eq_of_lt (by omega), ← h, Bytes.ofNat_toNat]

theorem toBytes_inj {a b : Hash} : a.toBytes = b.toBytes ↔ a = b :=
  ⟨fun h => by rw [← ofBytes_toBytes a, h, ofBytes_toBytes], fun h => h ▸ rfl⟩

theorem compare_eq_lt {a b : Hash} : compare a b = .lt ↔ a.toNat < b.toNat := by
  change compareOfLessAndEq a.bits b.bits = .lt ↔ a.bits.toNat < b.bits.toNat
  rw [compareOfLessAndEq_eq_lt]
  exact BitVec.lt_def

theorem toNat_greatest : greatest.toNat = 2 ^ 256 - 1 := by
  decide +kernel

/-- The order of the numbers, by which `compare` goes as well. -/
instance : LinearOrder Hash where
  le a b := a.toNat ≤ b.toNat
  lt a b := a.toNat < b.toNat
  le_refl a := Nat.le_refl a.toNat
  le_trans _ _ _ := Nat.le_trans
  lt_iff_le_not_ge _ _ := Nat.lt_iff_le_and_not_ge
  le_antisymm _ _ h h' := toNat_inj.mp (Nat.le_antisymm h h')
  le_total a b := Nat.le_total a.toNat b.toNat
  toDecidableLE a b := inferInstanceAs (Decidable (a.toNat ≤ b.toNat))
  toDecidableLT a b := inferInstanceAs (Decidable (a.toNat < b.toNat))
  toDecidableEq := inferInstance
  toOrd := inferInstance
  compare_eq_compareOfLessAndEq a b := by
    change compareOfLessAndEq a.bits b.bits = if a.toNat < b.toNat then _ else _
    simp [compareOfLessAndEq, BitVec.lt_def, toNat, ← toNat_inj, BitVec.toNat_eq]

theorem zero_le (a : Hash) : zero ≤ a := Nat.zero_le a.toNat

theorem le_greatest (a : Hash) : a ≤ greatest := by
  have bound := a.toNat_lt
  change a.toNat ≤ greatest.toNat
  rw [toNat_greatest]
  omega

/-- Nothing is ahead of the greatest hash. -/
theorem compare_greatest_ne_lt (a : Hash) : compare greatest a ≠ .lt := by
  intro h
  have ahead := compare_eq_lt.mp h
  have bound := a.toNat_lt
  rw [toNat_greatest] at ahead
  omega

/-- Everything else is behind the greatest hash. -/
theorem compare_greatest {a : Hash} (h : a ≠ greatest) : compare a greatest = .lt := by
  have bound := a.toNat_lt
  have apart : a.toNat ≠ greatest.toNat := fun same => h (toNat_inj.mp same)
  rw [compare_eq_lt]
  rw [toNat_greatest] at apart ⊢
  omega

end StateSync.Hash
