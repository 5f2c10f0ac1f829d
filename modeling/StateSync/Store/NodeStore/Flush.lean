import StateSync.Store.NodeStore

/-!
Flushing and pruning. A flush writes the nodes that are queued up to a block in one batch and
settles their queues. Then persisted nodes leave memory, oldest block first, until the rest fits the
limit.
-/

namespace StateSync.Store.NodeStore

open Trie

variable {κ : Type} [NodeKey κ]

/-- The keys queued for blocks that a test selects, older blocks first. -/
def queued (s : NodeStore κ) (due : UInt64 → Bool) : List κ :=
  (s.pending.toList.filter fun entry => due entry.1).flatMap Prod.snd

/-- The row of a key, if it is in memory and not yet in the backend. -/
def unpersistedRow? (s : NodeStore κ) (key : κ) : Option (Bytes × Bytes) :=
  match s.nodes[key]? with
  | some node => if node.persisted then none else some node.row
  | none => none

/-- The rows that a flush up to a block writes. -/
def batch (s : NodeStore κ) (block : UInt64) : List (Bytes × Bytes) :=
  (s.queued (· ≤ block)).filterMap s.unpersistedRow?

/-- Marks a node as persisted, if it is in memory. -/
def markPersisted (nodes : Std.TreeMap κ CachedNode) (key : κ) : Std.TreeMap κ CachedNode :=
  match nodes[key]? with
  | some node => nodes.insert key { node with persisted := true }
  | none => nodes

/--
Settles the queues below the block after a boundary. The greatest block number has no block
after it: a queue for that block itself is never settled.
-/
def settle (s : NodeStore κ) (block : UInt64) : NodeStore κ :=
  let bound := Word.saturatingAdd block 1
  { s with
    nodes := (s.queued (· < bound)).foldl markPersisted s.nodes
    pending := s.pending.filter fun queuedBlock _ => !(queuedBlock < bound)
    boundary := some block }

/-- Writes everything queued up to a block to the backend in one batch. -/
def flush (s : NodeStore κ) (block : UInt64) : Except StorageFault (NodeStore κ) :=
  match s.backend.putAll .trieNodes (s.batch block) with
  | .error fault => .error fault
  | .ok backend => .ok ({ s with backend }.settle block)

/-- Drops nodes from memory in the given order while the memory is above a limit. -/
def evict (limit : Nat) : List κ → NodeStore κ → NodeStore κ
  | [], s => s
  | key :: keys, s =>
    if s.memory ≤ limit then s
    else match s.nodes[key]? with
      | some node =>
        evict limit keys { s with nodes := s.nodes.erase key, memory := s.memory - node.memory }
      | none => evict limit keys s

/-- The persisted nodes in memory with their blocks. -/
def evictable (s : NodeStore κ) : List (κ × CachedNode) :=
  s.nodes.toList.filter fun entry => entry.2.persisted

/-- The persisted nodes in memory, oldest block first. -/
def evictionOrder (s : NodeStore κ) : List κ :=
  (s.eviction.arrange s.evictable).map Prod.fst

/-- Drops persisted nodes from memory, oldest block first, until the rest fits the limit. -/
def prune (s : NodeStore κ) : NodeStore κ :=
  match s.pruning.limit? with
  | some limit => if s.pruning.exceeded s.memory then evict limit s.evictionOrder s else s
  | none => s

end StateSync.Store.NodeStore
