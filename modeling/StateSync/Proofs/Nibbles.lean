import Mathlib
import StateSync.Trie.Nibbles

/-!
Paths as steps and an ending. Every path is its steps followed by the terminator or by nothing, and
the two are read off again if the steps are nibbles.
-/

namespace StateSync.Trie.Nibbles

/-- The path of some steps, closed by the terminator if it ends in a value. -/
def ofSteps (steps : List UInt8) (leaf : Bool) : Nibbles :=
  ⟨steps ++ if leaf then [terminator] else []⟩

theorem toList_eq_of_isLeaf {n : Nibbles} (h : n.isLeaf = true) :
    n.toList = n.steps ++ [terminator] := by
  have last : n.toList.getLast? = some terminator := by simpa [isLeaf] using h
  rw [steps, if_pos h]
  exact (List.dropLast_append_getLast? _ last).symm

theorem ofSteps_steps (n : Nibbles) : ofSteps n.steps n.isLeaf = n := by
  cases leaf : n.isLeaf with
  | false => simp [ofSteps, steps, leaf]
  | true => simp [ofSteps, ← toList_eq_of_isLeaf leaf]

theorem steps_mk_append_terminator (steps : List UInt8) :
    Nibbles.steps ⟨steps ++ [terminator]⟩ = steps := by
  simp [Nibbles.steps, isLeaf]

theorem isLeaf_ofSteps {steps : List UInt8} (nibbles : ∀ step ∈ steps, step < 16) (leaf : Bool) :
    (ofSteps steps leaf).isLeaf = leaf := by
  cases leaf with
  | true => simp [ofSteps, isLeaf]
  | false =>
    rw [ofSteps, isLeaf, if_neg Bool.false_ne_true, List.append_nil, beq_eq_false_iff_ne]
    intro last
    have small := nibbles _ (List.mem_of_getLast? last)
    exact absurd small (by decide)

theorem steps_ofSteps {steps : List UInt8} (nibbles : ∀ step ∈ steps, step < 16) (leaf : Bool) :
    (ofSteps steps leaf).steps = steps := by
  rw [Nibbles.steps, isLeaf_ofSteps nibbles]
  cases leaf <;> simp [ofSteps]

theorem wellFormed_ofSteps {steps : List UInt8} (nibbles : ∀ step ∈ steps, step < 16)
    (leaf : Bool) : (ofSteps steps leaf).WellFormed := by
  rw [WellFormed, steps_ofSteps nibbles]
  exact nibbles

end StateSync.Trie.Nibbles
