import StateSync.Bytes

/-!
Key filters: sets of byte strings that may claim a key they do not hold, but never deny one they
do. The filter here sets a few bits for every key.
-/

namespace StateSync.Store

class KeyFilter (φ : Type) where
  /-- A filter without keys, made for a number of them. -/
  empty : (expected : Nat) → φ
  insert : φ → Bytes → φ
  contains : φ → Bytes → Bool

/-- A filter claims every key that was put into it. -/
class LawfulKeyFilter (φ : Type) [KeyFilter φ] : Prop where
  contains_insert_self : ∀ (f : φ) (key : Bytes), KeyFilter.contains (KeyFilter.insert f key) key
  contains_insert_of_contains : ∀ (f : φ) (key other : Bytes),
    KeyFilter.contains f other → KeyFilter.contains (KeyFilter.insert f key) other

def KeyFilter.insertAll {φ : Type} [KeyFilter φ] (f : φ) (keys : List Bytes) : φ :=
  keys.foldl KeyFilter.insert f

structure BloomFilter where
  bits : Array Bool

namespace BloomFilter

/-- The least number of bits. -/
def leastBits : Nat := 1024

/-- Bits for each expected key. -/
def bitsPerKey : Nat := 8

/-- A multiplicative digest of a key, different for every seed. -/
def digest (seed : UInt64) (key : Bytes) : UInt64 :=
  key.foldl (fun h b => (h ^^^ b.toUInt64) * 0x100000001b3) (0xcbf29ce484222325 ^^^ seed)

/-- The bits that stand for a key. -/
def positions (f : BloomFilter) (key : Bytes) : List Nat :=
  [0, 1, 2].map fun (seed : UInt64) => (digest seed key).toNat % f.bits.size

def empty (expected : Nat) : BloomFilter :=
  ⟨Array.replicate (max leastBits (bitsPerKey * expected)) false⟩

def insert (f : BloomFilter) (key : Bytes) : BloomFilter :=
  ⟨(f.positions key).foldl (fun bits i => bits.setIfInBounds i true) f.bits⟩

def contains (f : BloomFilter) (key : Bytes) : Bool :=
  (f.positions key).all fun i => f.bits.getD i true

instance : KeyFilter BloomFilter where
  empty := empty
  insert := insert
  contains := contains

/-- Setting bits never clears one. -/
theorem getD_set_of_getD (bits : Array Bool) (ps : List Nat) {i : Nat} (h : bits.getD i true) :
    (ps.foldl (fun bits i => bits.setIfInBounds i true) bits).getD i true := by
  induction ps generalizing bits with
  | nil => exact h
  | cons p ps ih =>
    apply ih
    by_cases hp : p = i
    · subst hp
      by_cases hs : p < bits.size <;> simp [Array.getD, hs]
    · simp only [Array.getD_eq_getD_getElem?] at h ⊢
      rwa [Array.getElem?_setIfInBounds_ne hp]

theorem getD_set_of_mem (bits : Array Bool) {ps : List Nat} {i : Nat} (h : i ∈ ps) :
    (ps.foldl (fun bits i => bits.setIfInBounds i true) bits).getD i true := by
  induction ps generalizing bits with
  | nil => exact absurd h List.not_mem_nil
  | cons p ps ih =>
    rw [List.foldl_cons]
    obtain rfl | h := List.mem_cons.mp h
    · apply getD_set_of_getD
      by_cases hs : i < bits.size <;> simp [Array.getD, hs]
    · exact ih _ h

theorem positions_insert (f : BloomFilter) (key other : Bytes) :
    (f.insert key).positions other = f.positions other := by
  simp [positions, insert]

instance : LawfulKeyFilter BloomFilter where
  contains_insert_self f key := by
    show (f.insert key).contains key
    rw [contains, positions_insert, List.all_eq_true]
    exact fun i hi => getD_set_of_mem f.bits hi
  contains_insert_of_contains f key other h := by
    have h' : f.contains other := h
    show (f.insert key).contains other
    rw [contains, List.all_eq_true] at h'
    rw [contains, positions_insert, List.all_eq_true]
    exact fun i hi => getD_set_of_getD f.bits _ (h' i hi)

end BloomFilter

end StateSync.Store
