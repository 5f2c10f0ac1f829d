import StateSync.Store.BranchCache

/-!
Reading the state at one root. In the branch cache the newest change on the chain from the root to
the base counts; a key without change there is read from the persisted store.
-/

namespace StateSync.Store

open Trie

namespace BranchCache

variable {φ : Type}

/-- The states from a root to the base, newest first. -/
def chain (c : BranchCache φ) (root : Hash) : List BlockState :=
  match c.roots[root]? with
  | some slot => (Branch.ancestry c.branches slot).map fun entry => entry.2.state
  | none => []

/-- The newest change of a key on the chain of a root. -/
def chainLookup (c : BranchCache φ) (kind : DeltaKind) (key : Bytes) (root : Hash) :
    Option Bytes :=
  (c.chain root).findSome? fun state => state.change? kind key

/-- The newest change of a key on the chain of a root; the filter spares most fruitless walks. -/
def lookup [KeyFilter φ] (c : BranchCache φ) (kind : DeltaKind) (key : Bytes) (root : Hash) :
    Option Bytes :=
  if KeyFilter.contains c.filter key then c.chainLookup kind key root else none

/-- The tracked state of a root, the base excepted. -/
def branch? (c : BranchCache φ) (root : Hash) : Option BlockState :=
  match c.roots[root]? with
  | some slot => if c.base = some slot then none else c.state? slot
  | none => none

end BranchCache

structure LayeredReader (φ σ : Type) where
  root : Hash
  cache : BranchCache φ
  store : σ
  kind : DeltaKind

/-- A reader cannot be written to. -/
instance {φ σ : Type} [KeyFilter φ] [ByteStore σ] : ByteStore (LayeredReader φ σ) where
  get r key :=
    match r.cache.lookup r.kind key r.root with
    | some value => .ok (some value)
    | none => ByteStore.get r.store key
  putAll r _ := (.error (.database .readOnly), r)

end StateSync.Store
