import StateSync.Store.Arena
import StateSync.Store.Delta

/-! Branches: block states that link to the state they were made from. -/

namespace StateSync.Store

/-- A tracked state and the slot of its parent, which only the base lacks. -/
structure Branch where
  state : BlockState
  parent : Option Nat

namespace Branch

/-- One more than the block in a slot, and zero for a free slot. -/
def height (branches : Arena Branch) (slot : Nat) : Nat :=
  match branches.get? slot with
  | some branch => branch.state.block.toNat + 1
  | none => 0

/--
The branches from a slot towards the base, with their slots. A link is followed only to an older
block, so the walk ends; in a cache every link leads to an older block.
-/
def ancestry (branches : Arena Branch) (slot : Nat) : List (Nat × Branch) :=
  match branches.get? slot with
  | none => []
  | some branch =>
    (slot, branch) :: match branch.parent with
      | none => []
      | some parent =>
        if height branches parent < height branches slot then ancestry branches parent else []
termination_by height branches slot

end Branch

end StateSync.Store
