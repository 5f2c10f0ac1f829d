import StateSync.Store.NodeStore.Commit
import StateSync.Store.NodeStore.Flush

/-!
Stores that nodes are committed to, block by block. A node store is one: when the commit of a trie
is finished on a due block, the store flushes, prunes and announces.
-/

namespace StateSync.Store

open Trie

/-- Which trie a finished commit belongs to. -/
inductive TrieKind
  | state
  | storage
deriving DecidableEq

/-- A store that nodes are committed to, block by block. -/
class CommitStore (ρ : Type) (κ : outParam Type) extends Resolver ρ κ where
  commit : ρ → (block : UInt64) → κ → (payload : Bytes) → Except StoreError ρ
  /-- Finishes the commit of one trie for a block; the answer is the boundary this led to. -/
  finish : ρ → TrieKind → (block : UInt64) → (root : Hash) →
    Except StoreError (Option UInt64) × ρ
  /-- The root belongs to a finished commit. -/
  hasRoot : ρ → Hash → Bool
  /-- Announces the boundaries. -/
  boundaries : ρ → Channel UInt64

namespace NodeStore

variable {κ : Type} [NodeKey κ]

/-- A root is known from the moment its commit is finished, flushed or not. -/
def addRoot (s : NodeStore κ) (root : Hash) (block : UInt64) : NodeStore κ :=
  { s with roots := s.roots.insert root block }

/-- Finishing this commit flushes: it closes a state trie above the boundary on a due block. -/
def flushesOn (s : NodeStore κ) (kind : TrieKind) (block : UInt64) : Bool :=
  kind == .state && s.persistence.flushes block && !s.settled block

/--
Finishes the commit of one trie for a block. If that flushes, the answer is the new boundary,
which is also announced to the subscribers.
-/
def finish (s : NodeStore κ) (kind : TrieKind) (block : UInt64) (root : Hash) :
    Except StoreError (Option UInt64) × NodeStore κ :=
  let s := s.addRoot root block
  if s.flushesOn kind block then
    match s.flush block with
    | .error fault => (.error (.storage fault), s)
    | .ok flushed =>
      let pruned := flushed.prune
      (.ok (some block), { pruned with boundaries := pruned.boundaries.send block })
  else (.ok none, s)

instance : CommitStore (NodeStore κ) κ where
  commit := commit
  finish := finish
  hasRoot := hasRoot
  boundaries := boundaries

end NodeStore

end StateSync.Store
