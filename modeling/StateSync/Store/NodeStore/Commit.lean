import StateSync.Store.NodeStore

/-! Committing nodes: a node is checked against its key, taken into memory and queued. -/

namespace StateSync.Store.NodeStore

open Trie

variable {κ : Type} [NodeKey κ]

/-- Puts a key at the end of its block's queue. -/
def enqueue (pending : Std.TreeMap UInt64 (List κ)) (block : UInt64) (key : κ) :
    Std.TreeMap UInt64 (List κ) :=
  pending.insert block (pending.getD block [] ++ [key])

/-- An earlier commit of the same block has queued the node already. -/
def alreadyQueued (previous : Option CachedNode) (block : UInt64) : Bool :=
  match previous with
  | some node => node.block == block && !node.persisted
  | none => false

/-- Takes a node into memory and queues it for its block. -/
def store (s : NodeStore κ) (block : UInt64) (key : κ) (payload : Bytes) : NodeStore κ :=
  let node : CachedNode := { rowKey := NodeKey.toBytes key, payload, block, persisted := false }
  let previous := s.nodes[key]?
  { s with
    nodes := s.nodes.insert key node
    memory := s.memory + node.memory - (previous.map CachedNode.memory).getD 0
    pending :=
      if alreadyQueued previous block then s.pending else enqueue s.pending block key }

/-- Commits a node for a block above the boundary, if its payload belongs under its key. -/
def commit (s : NodeStore κ) (block : UInt64) (key : κ) (payload : Bytes) :
    Except StoreError (NodeStore κ) :=
  match NodeKey.verify key payload with
  | .error fault => .error (.trie (.verify fault))
  | .ok () =>
    match s.boundary with
    | some boundary =>
      if block ≤ boundary then
        .error (.storage (.violation (.commitBelowBoundary block boundary)))
      else .ok (s.store block key payload)
    | none => .ok (s.store block key payload)

end StateSync.Store.NodeStore
