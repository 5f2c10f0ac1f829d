import StateSync.Trie.Nibbles

/-!
The hex-prefix code of nibble paths. The high half of the first byte is two or more for a leaf
and odd for an odd number of steps; an odd first step sits in the low half, the others are packed
in pairs.
-/

namespace StateSync.Trie.Nibbles

/-- Adjacent steps packed in pairs. -/
def pack : List UInt8 → Bytes
  | high :: low :: rest => (high * 16 + low) :: pack rest
  | _ => []

/-- The first byte of a path without an odd step. -/
def flag (leaf : Bool) : UInt8 := if leaf then 0x20 else 0x00

/-- Flag byte and packed steps. -/
def packed (leaf : Bool) (steps : List UInt8) : Bytes :=
  match steps.length % 2, steps with
  | 1, first :: rest => (flag leaf + (0x10 + first)) :: pack rest
  | _, steps => flag leaf :: pack steps

/-- The hex-prefix code of a path. -/
def compact (n : Nibbles) : Bytes := packed n.isLeaf n.steps

/-- The first byte marks the path of a leaf. -/
def marksLeaf (first : UInt8) : Bool := 32 ≤ first

/-- The first byte carries a step of its own. -/
def marksOdd (first : UInt8) : Bool := first / 16 % 2 == 1

/-- The path of any byte string: unused bits of the first byte are ignored. -/
def ofCompact : Bytes → Nibbles
  | [] => ⟨[]⟩
  | first :: rest =>
    ⟨(if marksOdd first then [first % 16] else []) ++ split rest ++
      if marksLeaf first then [terminator] else []⟩

/-- A code that `compact` writes: a known flag, and no bits where no step is. -/
def Canonical : Bytes → Prop
  | [] => False
  | first :: _ => first / 16 ≤ 3 ∧ (first / 16 % 2 = 0 → first % 16 = 0)

instance : DecidablePred Canonical
  | [] => inferInstanceAs (Decidable False)
  | first :: _ =>
    inferInstanceAs (Decidable (first / 16 ≤ 3 ∧ (first / 16 % 2 = 0 → first % 16 = 0)))

end StateSync.Trie.Nibbles
