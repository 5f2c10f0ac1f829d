import StateSync.Hash

/-! Nibble paths: half-bytes, most significant first, closed by a terminator above a value. -/

namespace StateSync.Trie

/-- A path through a trie, one nibble a step. -/
structure Nibbles where
  toList : List UInt8
deriving DecidableEq

namespace Nibbles

/-- The last step of a path that ends in a value. -/
def terminator : UInt8 := 16

/-- Paths are ordered step by step, a proper prefix first. -/
instance : Ord Nibbles := ⟨compareOn Nibbles.toList⟩

instance : Std.TransOrd Nibbles := inferInstanceAs (Std.TransCmp (compareOn Nibbles.toList))

instance : Std.LawfulEqOrd Nibbles where
  eq_of_compare {a b} h := by
    have hl : a.toList = b.toList := Std.LawfulEqOrd.eq_of_compare h
    cases a; cases b; exact congrArg Nibbles.mk hl

instance : Inhabited Nibbles := ⟨⟨[]⟩⟩

/-- The high and low half of every byte. -/
def split (bs : Bytes) : List UInt8 := bs.flatMap fun b => [b / 16, b % 16]

/-- The path of a byte string, closed by the terminator if it ends in a value. -/
def ofBytes (bs : Bytes) (leaf : Bool) : Nibbles :=
  ⟨split bs ++ if leaf then [terminator] else []⟩

/-- The path ends in a value. -/
def isLeaf (n : Nibbles) : Bool := n.toList.getLast? == some terminator

/-- The steps of a path without its terminator. -/
def steps (n : Nibbles) : List UInt8 := if n.isLeaf then n.toList.dropLast else n.toList

def length (n : Nibbles) : Nat := n.toList.length

def isEmpty (n : Nibbles) : Bool := n.toList.isEmpty

def get? (n : Nibbles) (i : Nat) : Option UInt8 := n.toList[i]?

/-- One more step at the end. -/
def push (n : Nibbles) (step : UInt8) : Nibbles := ⟨n.toList ++ [step]⟩

def append (a b : Nibbles) : Nibbles := ⟨a.toList ++ b.toList⟩

instance : Append Nibbles := ⟨append⟩

/-- The second path is a prefix of the first. -/
def startsWith (a b : Nibbles) : Bool := b.toList.isPrefixOf a.toList

/-- Two steps to a byte, the earlier one in the high half; a lone last step is followed by zero. -/
def join : List UInt8 → Bytes
  | [] => []
  | [high] => [high <<< 4]
  | high :: low :: rest => ((high <<< 4) ||| low) :: join rest

/-- The bytes of a path, its terminator left out. -/
def toBytes (n : Nibbles) : Bytes := join n.steps

/-- Every step is a nibble, except that the last may be the terminator. -/
def WellFormed (n : Nibbles) : Prop := ∀ step ∈ n.steps, step < 16

@[simp] theorem toList_append (a b : Nibbles) : (a ++ b).toList = a.toList ++ b.toList := rfl

theorem split_cons (b : UInt8) (bs : Bytes) : split (b :: bs) = b / 16 :: b % 16 :: split bs := rfl

theorem length_split (bs : Bytes) : (split bs).length = 2 * bs.length := by
  induction bs with
  | nil => rfl
  | cons b bs ih => rw [split_cons]; simp only [List.length_cons, ih]; omega

theorem split_lt (bs : Bytes) : ∀ step ∈ split bs, step < 16 := by
  intro step h
  obtain ⟨b, _, hb⟩ := List.mem_flatMap.mp h
  have hlt := b.toNat_lt
  have : step.toNat < 16 := by
    simp only [List.mem_cons, List.not_mem_nil, or_false] at hb
    obtain rfl | rfl := hb
    · rw [UInt8.toNat_div]; exact Nat.div_lt_of_lt_mul hlt
    · rw [UInt8.toNat_mod]; exact Nat.mod_lt _ (by decide)
  exact UInt8.lt_iff_toNat_lt.mpr this

theorem halves_joined (b : UInt8) : ((b / 16) <<< 4) ||| b % 16 = b := by
  obtain ⟨b⟩ := b
  revert b
  decide +kernel

/-- Whole bytes in front of some steps are joined to themselves. -/
theorem join_split_append (bs : Bytes) (steps : List UInt8) :
    join (split bs ++ steps) = bs ++ join steps := by
  induction bs with
  | nil => rfl
  | cons b bs ih =>
    rw [split_cons, List.cons_append, List.cons_append, join, halves_joined, ih, List.cons_append]

theorem join_split (bs : Bytes) : join (split bs) = bs := by
  have whole := join_split_append bs []
  rwa [List.append_nil, join, List.append_nil] at whole

end Nibbles

end StateSync.Trie
