import Std.Data.TreeMap
import StateSync.Bytes.Hex

/-! 256-bit hashes: state roots, content hashes and account paths, ordered as numbers. -/

namespace StateSync

/-- A 256-bit hash. -/
structure Hash where
  bits : BitVec 256
deriving DecidableEq

namespace Hash

/-- The all-zero hash. -/
def zero : Hash := ⟨0⟩

/-- The greatest hash, every bit set. -/
def greatest : Hash := ⟨BitVec.allOnes 256⟩

instance : Inhabited Hash := ⟨zero⟩

def toNat (h : Hash) : Nat := h.bits.toNat

/-- The hash whose number is `n` modulo 2^256. -/
def ofNat (n : Nat) : Hash := ⟨BitVec.ofNat 256 n⟩

/-- Hashes are ordered as numbers, which is the order of their 32 bytes. -/
instance : Ord Hash := ⟨compareOn Hash.bits⟩

instance : Std.TransOrd Hash := inferInstanceAs (Std.TransCmp (compareOn Hash.bits))

instance : Std.LawfulEqOrd Hash where
  eq_of_compare {a b} h := by
    have hb : a.bits = b.bits := Std.LawfulEqOrd.eq_of_compare h
    cases a; cases b; exact congrArg Hash.mk hb

/-- The 32 bytes of a hash, most significant first. -/
def toBytes (h : Hash) : Bytes := Bytes.ofNat 32 h.toNat

/-- The hash that a byte string spells, most significant byte first. -/
def ofBytes (bs : Bytes) : Hash := ofNat (Bytes.toNat bs)

/-- The text of a hash: 64 hexadecimal digits behind `0x`. -/
def text (h : Hash) : String := "0x" ++ Bytes.toHex h.toBytes

theorem toNat_inj {a b : Hash} : a.toNat = b.toNat ↔ a = b :=
  ⟨fun h => by cases a; cases b; exact congrArg Hash.mk (BitVec.eq_of_toNat_eq h),
    fun h => h ▸ rfl⟩

@[simp] theorem length_toBytes (h : Hash) : h.toBytes.length = 32 := Bytes.length_ofNat 32 _

end Hash

end StateSync
