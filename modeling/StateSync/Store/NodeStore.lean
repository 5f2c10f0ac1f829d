import StateSync.Channel
import StateSync.Store.Backend
import StateSync.Store.Config
import StateSync.Trie.Resolver

/-!
The node store: recently committed nodes in memory over a durable backend. Nodes are committed
block by block, flushed when the persistence policy says so, and leave memory under the pruning
policy once they are flushed. Reads look in memory first and in the backend second.
-/

namespace StateSync.Store

open Trie

/-- A node in memory. -/
structure CachedNode where
  rowKey : Bytes
  payload : Bytes
  /-- The block of the last commit. -/
  block : UInt64
  persisted : Bool
deriving DecidableEq

namespace CachedNode

/-- An allowance for the map entry of a node. -/
def entryOverhead : Nat := 24

/-- The memory a node is taken to occupy. -/
def memory (n : CachedNode) : Nat := n.rowKey.length + n.payload.length + entryOverhead

def row (n : CachedNode) : Bytes × Bytes := (n.rowKey, n.payload)

end CachedNode

/--
An order of eviction: older blocks come first. In which order the nodes of one block come is left
to the store; nothing but the laws is known of it.
-/
structure EvictionOrder (κ : Type) where
  /-- Some nodes in the order in which they are to leave. It may depend on all of them. -/
  arrange : List (κ × CachedNode) → List (κ × CachedNode)
  perm : ∀ nodes, (arrange nodes).Perm nodes
  sorted : ∀ nodes, (arrange nodes).Pairwise fun a b => a.2.block ≤ b.2.block

/-- The order that keeps the nodes of one block as it finds them. -/
def EvictionOrder.stable (κ : Type) : EvictionOrder κ where
  arrange nodes := nodes.mergeSort fun a b => a.2.block ≤ b.2.block
  perm nodes := nodes.mergeSort_perm _
  sorted nodes := by
    refine (List.pairwise_mergeSort (fun a b c first second => ?_) (fun a b => ?_) nodes).imp
      of_decide_eq_true
    · exact decide_eq_true (UInt64.le_trans (of_decide_eq_true first) (of_decide_eq_true second))
    · rw [Bool.or_eq_true, decide_eq_true_iff, decide_eq_true_iff]
      exact UInt64.le_total a.2.block b.2.block

/-- Boundary events kept for a slow receiver. -/
def boundaryCapacity : Nat := 64

structure NodeStore (κ : Type) [NodeKey κ] where
  backend : Backend
  persistence : Persistence
  pruning : Pruning
  eviction : EvictionOrder κ := .stable κ
  nodes : Std.TreeMap κ CachedNode := ∅
  /-- The keys committed for each block and not yet flushed, in order of commit. -/
  pending : Std.TreeMap UInt64 (List κ) := ∅
  /-- The roots of finished commits, each with its last block. -/
  roots : Std.TreeMap Hash UInt64 := ∅
  /-- The last block up to which everything was flushed. -/
  boundary : Option UInt64 := none
  /-- The memory of all cached nodes. -/
  memory : Nat := 0
  witness : Witness := {}
  boundaries : Channel UInt64 := { capacity := boundaryCapacity }

namespace NodeStore

variable {κ : Type} [NodeKey κ]

def ofConfig (backend : Backend) (config : Config) : NodeStore κ where
  backend
  persistence := config.persistence
  pruning := config.pruning

def hasRoot (s : NodeStore κ) (root : Hash) : Bool := s.roots.contains root

def cachedNodes (s : NodeStore κ) : Nat := s.nodes.size

/-- The block lies at or below the boundary. -/
def settled (s : NodeStore κ) (block : UInt64) : Bool :=
  match s.boundary with
  | some boundary => block ≤ boundary
  | none => false

/-- The node is in the backend: by its flag if it is in memory, else by its row. -/
def isPersisted (s : NodeStore κ) (key : κ) : Except StoreError Bool :=
  match s.nodes[key]? with
  | some node => .ok node.persisted
  | none =>
    match s.backend.get .trieNodes (NodeKey.toBytes key) with
    | .ok row => .ok row.isSome
    | .error fault => .error (.storage fault)

/-- The payload under a key, from memory or else from the backend. -/
def lookup (s : NodeStore κ) (key : κ) : Except StorageFault (Option Bytes) :=
  match s.nodes[key]? with
  | some node => .ok (some node.payload)
  | none => s.backend.get .trieNodes (NodeKey.toBytes key)

/-- Records a payload that a read found, unless the read asks not to. -/
def recordRead (s : NodeStore κ) (found : Option Bytes) (flags : ReadFlags) : NodeStore κ :=
  match found with
  | some payload =>
    if flags.skipWitness then s else { s with witness := s.witness.record payload }
  | none => s

def load (s : NodeStore κ) (key : κ) (flags : ReadFlags) :
    Except TrieError (Option Bytes) × NodeStore κ :=
  match s.lookup key with
  | .ok found => (.ok found, s.recordRead found flags)
  | .error fault => (.error (.database (.storage fault)), s)

/-- The node in memory under a key; unknown if there is none or its payload does not decode. -/
def find (s : NodeStore κ) (key : κ) : Handle κ :=
  match s.nodes[key]? with
  | some node =>
    match Handle.ofPayload key node.payload with
    | .ok handle => handle
    | .error _ => .unknown key
  | none => .unknown key

instance : Resolver (NodeStore κ) κ where
  find := find
  load := load

def enableWitness (s : NodeStore κ) : NodeStore κ := { s with witness := s.witness.enable }

/-- Stops recording and hands out the payloads read since it was turned on. -/
def takeWitness (s : NodeStore κ) : Std.TreeMap Hash Bytes × NodeStore κ :=
  (s.witness.take.1, { s with witness := s.witness.take.2 })

/-- A summary of the store: how it addresses nodes, its policies, the memory in use. -/
def text (s : NodeStore κ) : String :=
  "TrieStore \x7b capability: " ++ (NodeKey.addressing κ).text ++
    ", persistence: " ++ s.persistence.text ++ ", pruning: " ++ s.pruning.text ++
    s!", memory_used: {s.memory}" ++ " \x7d"

end NodeStore

end StateSync.Store
