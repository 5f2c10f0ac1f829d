import StateSync.Store.NodeStore.Finish

/-!
Read-only views of a node store, for executing on a trial basis: reads see the store and record
no witness, commits are dropped, and no event ever arrives.
-/

namespace StateSync.Store

open Trie

structure ReadOnlyView (κ : Type) [NodeKey κ] where
  store : NodeStore κ

def NodeStore.readOnly {κ : Type} [NodeKey κ] (s : NodeStore κ) : ReadOnlyView κ := ⟨s⟩

namespace ReadOnlyView

variable {κ : Type} [NodeKey κ]

/-- Reads without a trace in the witness. -/
def load (v : ReadOnlyView κ) (key : κ) (flags : ReadFlags) :
    Except TrieError (Option Bytes) × ReadOnlyView κ :=
  let (found, store) := v.store.load key (flags.union ⟨true⟩)
  (found, ⟨store⟩)

/-- Commits are dropped, so no boundary is ever reached or announced. -/
instance : CommitStore (ReadOnlyView κ) κ where
  find v key := v.store.find key
  load := load
  commit v _ _ _ := .ok v
  finish v _ _ _ := (.ok none, v)
  hasRoot v root := v.store.hasRoot root
  boundaries _ := .silent

end ReadOnlyView

end StateSync.Store
