import StateSync.Store.BranchCache

/-! Walks from a root to the base of a branch cache that outlive the calls between their steps. -/

namespace StateSync.Store

/-- A walk from a root to the base, made step by step. It notices when the cache changes. -/
structure BranchCursor where
  next : Option Nat
  /-- The version of the cache when the walk began, counted as the cache counts it. -/
  version : Nat
deriving DecidableEq

namespace BranchCursor

variable {φ : Type}

/-- A cursor at the branch of a root. -/
def ofRoot (c : BranchCache φ) (root : Hash) : BranchCursor := ⟨c.roots[root]?, c.version⟩

/-- The next state towards the base, which itself is not shown. -/
def advance (cursor : BranchCursor) (c : BranchCache φ) :
    Except BranchError (Option BlockState) × BranchCursor :=
  if c.version ≠ cursor.version then
    (.error (.modifiedDuringTraversal cursor.version c.version), cursor)
  else match cursor.next.bind c.branches.get? with
    | none => (.ok none, cursor)
    | some branch =>
      match branch.parent with
      | none => (.ok none, { cursor with next := none })
      | some parent => (.ok (some branch.state), { cursor with next := some parent })

/-- The states that a cursor shows in up to a number of steps. -/
def states (c : BranchCache φ) : (steps : Nat) → BranchCursor → List BlockState
  | 0, _ => []
  | steps + 1, cursor =>
    match cursor.advance c with
    | (.ok (some state), cursor) => state :: states c steps cursor
    | _ => []

end BranchCursor

/-- The states that a new cursor shows from a root; there are no more than tracked states. -/
def BranchCache.walk {φ : Type} (c : BranchCache φ) (root : Hash) : List BlockState :=
  BranchCursor.states c c.size (.ofRoot c root)

end StateSync.Store
