import StateSync.Store.ByteStore

/-! What one block changes: values given to keys, in two tables. -/

namespace StateSync.Store

/-- The two tables of changes that a block makes. -/
inductive DeltaKind
  | leaves
  | nodes
deriving DecidableEq

/-- The changes of one block. -/
structure Delta where
  leaves : Rows := ∅
  nodes : Rows := ∅

namespace Delta

def rows (d : Delta) : DeltaKind → Rows
  | .leaves => d.leaves
  | .nodes => d.nodes

def isEmpty (d : Delta) : Bool := d.leaves.isEmpty && d.nodes.isEmpty

/-- Writes the changes to a byte store, leaves first. -/
def writeTo {σ : Type} [ByteStore σ] (d : Delta) (store : σ) : Except TrieError Unit × σ :=
  ByteStore.putAll store (d.leaves.toList ++ d.nodes.toList)

/-- The keys of both tables. -/
def keys (d : Delta) : List Bytes := d.leaves.keys ++ d.nodes.keys

end Delta

/-- The state of one block, by what changed since its parent. -/
structure BlockState where
  block : UInt64
  root : Hash
  delta : Option Delta

/-- The value that a block gave to a key. -/
def BlockState.change? (s : BlockState) (kind : DeltaKind) (key : Bytes) : Option Bytes :=
  s.delta.bind fun d => (d.rows kind)[key]?

end StateSync.Store
