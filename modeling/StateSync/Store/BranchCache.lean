import StateSync.Error
import StateSync.Store.Branch
import StateSync.Store.KeyFilter

/-!
The branch cache: a bounded history of block states over persisted state. Every tracked state is
a branch that holds what its block changed and links to its parent; all links lead to the base,
which stands for the persisted state and holds no changes. When a new block gets too far ahead of
the base, the base moves one branch towards it and the branches off that line are forgotten.
-/

namespace StateSync.Store

structure BranchCache (φ : Type) where
  /-- How far the newest block may be ahead of the base. -/
  span : Nat
  branches : Arena Branch := {}
  /-- The slot of every tracked root. -/
  roots : Std.TreeMap Hash Nat := ∅
  base : Option Nat := none
  /--
  Counts the changes of the cache. A counter of 64 bits parts from it only after 2 ^ 64 changes of
  one cache.
  -/
  version : Nat := 0
  /-- Holds every key of every tracked delta. -/
  filter : φ

namespace BranchCache

variable {φ : Type}

/-- A cache without states. A span of zero counts as one: a new block is never flattened. -/
def ofSpan [KeyFilter φ] (span : Nat) : BranchCache φ where
  span := max span 1
  filter := KeyFilter.empty 0

/-- The tracked state in a slot. -/
def state? (c : BranchCache φ) (slot : Nat) : Option BlockState :=
  (c.branches.get? slot).map Branch.state

/-- The state that is taken to be persisted. -/
def baseState? (c : BranchCache φ) : Option BlockState := c.base.bind c.state?

def contains (c : BranchCache φ) (root : Hash) : Bool := c.roots.contains root

/-- The number of tracked states, the base included. -/
def size (c : BranchCache φ) : Nat := c.branches.size

def isInitialized (c : BranchCache φ) : Bool := c.base.isSome

/-- Puts a branch into the cache and tells its slot. -/
def track [KeyFilter φ] (c : BranchCache φ) (branch : Branch) : Nat × BranchCache φ :=
  let (slot, branches) := c.branches.insert branch
  (slot, { c with
    branches
    roots := c.roots.insert branch.state.root slot
    version := c.version + 1
    filter := KeyFilter.insertAll c.filter ((branch.state.delta.map Delta.keys).getD []) })

/-- Installs the base; a cache has only one. -/
def init [KeyFilter φ] (c : BranchCache φ) (block : UInt64) (root : Hash) :
    Except BranchError (BranchCache φ) :=
  match c.base with
  | some _ => .error .alreadyInitialized
  | none =>
    let (slot, c) := c.track { state := { block, root, delta := none }, parent := none }
    .ok { c with base := some slot }

/-- Forgets the branch in a slot. -/
def forget (c : BranchCache φ) (slot : Nat) : BranchCache φ :=
  match c.state? slot with
  | some state =>
    { c with branches := c.branches.remove slot, roots := c.roots.erase state.root }
  | none => c

/-- The links from a slot lead to the base. -/
def reaches (c : BranchCache φ) (base slot : Nat) : Bool :=
  (Branch.ancestry c.branches slot).any fun entry => entry.1 == base

/--
Forgets every branch whose links do not lead to the base. They are known before the first of them is
forgotten, so it does not matter to the others in which order they go.
-/
def forgetDetached (c : BranchCache φ) (base : Nat) : BranchCache φ :=
  (c.branches.live.filter fun slot => !c.reaches base slot).foldl forget c

/-- The keys of all tracked deltas. -/
def trackedKeys (c : BranchCache φ) : List Bytes :=
  c.branches.toList.flatMap fun entry => (entry.2.state.delta.map Delta.keys).getD []

/-- Makes the filter anew from the keys that are still tracked. -/
def rebuildFilter [KeyFilter φ] (c : BranchCache φ) : BranchCache φ :=
  let keys := c.trackedKeys
  { c with filter := KeyFilter.insertAll (KeyFilter.empty keys.length) keys }

/-- The branch next to the base on the line from a slot, or a line's end that has no parent. -/
def nextToBase? (c : BranchCache φ) (base slot : Nat) : Option (Nat × Branch) :=
  (Branch.ancestry c.branches slot).find? fun entry =>
    entry.2.parent == none || entry.2.parent == some base

/-- The branch in a slot takes the place of the base: it loses its link and its changes. -/
def rebase (c : BranchCache φ) (base slot : Nat) : BranchCache φ :=
  let c := c.forget base
  { c with
    branches := c.branches.modify slot fun branch =>
      { branch with state := { branch.state with delta := none }, parent := none }
    base := some slot
    version := c.version + 1 }

/--
Moves the base one branch towards a slot and hands out the state that it takes the place of,
with the changes that are now to be persisted. The branch in the slot itself stays.
-/
def flatten [KeyFilter φ] (c : BranchCache φ) (base slot : Nat) :
    Except BranchError (Option BlockState × BranchCache φ) :=
  match c.nextToBase? base slot with
  | none => .error (.danglingLink slot)
  | some (next, branch) =>
    if next = slot then .ok (none, c)
    else match c.branches.get? base with
      | none => .error (.danglingLink base)
      | some _ =>
        .ok (some branch.state, ((c.rebase base next).forgetDetached next).rebuildFilter)

/-- A block lies no further ahead of the base than the span. -/
def withinSpan (c : BranchCache φ) (block : UInt64) : Bool :=
  let baseBlock := (c.baseState?.map BlockState.block).getD 0
  (block - baseBlock).toNat ≤ c.span

/--
Tracks the state of a new block. A root that is tracked already is ignored. If the block is
further ahead of the base than the span, the base moves once and the state it moved to is handed
out.
-/
def insert [KeyFilter φ] (c : BranchCache φ) (block : UInt64) (root : Hash) (delta : Option Delta)
    (parentRoot : Hash) : Except BranchError (Option BlockState × BranchCache φ) :=
  match c.base with
  | none => .error .notInitialized
  | some base =>
    if c.contains root then .ok (none, c)
    else match c.roots[parentRoot]? with
      | none => .error (.unknownParent parentRoot)
      | some parent =>
        match c.state? parent with
        | none => .error (.danglingLink parent)
        | some parentState =>
          if block ≤ parentState.block then .error (.notNewer block parentState.block)
          else
            let (slot, c) := c.track { state := { block, root, delta }, parent := some parent }
            if c.withinSpan block then .ok (none, c) else c.flatten base slot

end BranchCache

end StateSync.Store
