import StateSync.Proofs.NodeStore.Calls

/-!
Calls made step by step, on a store that every step changes in place. What was changed before a step
fails stays changed, so what a failed call leaves depends on the order of its steps. A commit is
checked before it changes anything. A finished commit has added its root when its batch is written,
and after that nothing can fail. So commits and finishes come out as they do in one piece.
-/

namespace StateSync.Store.NodeStore

open Trie

/-- Steps on a store. If one of them fails, the changes made before it are not taken back. -/
abbrev Steps (κ : Type) [NodeKey κ] (α : Type) := ExceptT StoreError (StateM (NodeStore κ)) α

variable {κ α β : Type} [NodeKey κ]

namespace Steps

/-- The answer of some steps, and the store that they leave. -/
def runOn (steps : Steps κ α) (s : NodeStore κ) : Except StoreError α × NodeStore κ :=
  StateT.run (ExceptT.run steps) s

/-- After a step that fails no other is made. -/
@[simp] theorem runOn_bind (steps : Steps κ α) (next : α → Steps κ β) (s : NodeStore κ) :
    runOn (steps >>= next) s =
      match steps.runOn s with
      | (.ok a, t) => (next a).runOn t
      | (.error e, t) => (.error e, t) := by
  unfold runOn
  rw [ExceptT.run_bind, StateT.run_bind]
  generalize StateT.run (ExceptT.run steps) s = r
  obtain ⟨e | a, t⟩ := r <;> rfl

@[simp] theorem runOn_pure (a : α) (s : NodeStore κ) :
    runOn (pure a : Steps κ α) s = (.ok a, s) := rfl

@[simp] theorem runOn_throw (e : StoreError) (s : NodeStore κ) :
    runOn (throw e : Steps κ α) s = (.error e, s) := rfl

@[simp] theorem runOn_get (s : NodeStore κ) :
    runOn (get : Steps κ (NodeStore κ)) s = (.ok s, s) := rfl

@[simp] theorem runOn_modify (change : NodeStore κ → NodeStore κ) (s : NodeStore κ) :
    runOn (modify change : Steps κ PUnit) s = (.ok ⟨⟩, change s) := rfl

end Steps

section Committing

/-- Fails unless the payload belongs under the key. -/
def requireVerified (key : κ) (payload : Bytes) : Steps κ Unit :=
  match NodeKey.verify key payload with
  | .error fault => throw (.trie (.verify fault))
  | .ok () => return

/-- Fails unless the block lies above the boundary. -/
def requireAbove (block : UInt64) : Steps κ Unit := do
  match (← get).boundary with
  | some boundary =>
    if block ≤ boundary then
      throw (.storage (.violation (.commitBelowBoundary block boundary)))
  | none => return

/-- Puts a node into memory and hands out the one that was in its place. -/
def exchange (key : κ) (node : CachedNode) : Steps κ (Option CachedNode) := do
  modify fun s => { s with memory := s.memory + node.memory }
  let previous := (← get).nodes[key]?
  modify fun s => { s with nodes := s.nodes.insert key node }
  modify fun s => { s with memory := s.memory - (previous.map CachedNode.memory).getD 0 }
  return previous

def storeInPlace (block : UInt64) (key : κ) (payload : Bytes) : Steps κ Unit := do
  let previous ← exchange key { rowKey := NodeKey.toBytes key, payload, block, persisted := false }
  unless alreadyQueued previous block do
    modify fun s => { s with pending := enqueue s.pending block key }

/-- A commit, which is checked before it changes anything. -/
def commitInPlace (block : UInt64) (key : κ) (payload : Bytes) : Steps κ Unit := do
  requireVerified key payload
  requireAbove block
  storeInPlace block key payload

theorem storeInPlace_eq (s : NodeStore κ) (block : UInt64) (key : κ) (payload : Bytes) :
    (storeInPlace block key payload).runOn s = (.ok (), s.store block key payload) := by
  unfold storeInPlace exchange store
  simp only [Steps.runOn_bind, Steps.runOn_modify, Steps.runOn_get, Steps.runOn_pure]
  cases alreadyQueued s.nodes[key]? block <;> rfl

theorem commitInPlace_eq (s : NodeStore κ) (block : UInt64) (key : κ) (payload : Bytes) :
    (commitInPlace block key payload).runOn s =
      ((s.commit block key payload).map fun _ => (), (Call.commit block key payload).run s) := by
  unfold commitInPlace requireVerified requireAbove Call.run commit
  cases verified : NodeKey.verify key payload with
  | error fault => simp [verified, Except.map]
  | ok =>
    cases known : s.boundary with
    | none => simp [verified, known, storeInPlace_eq, Except.map]
    | some boundary =>
      by_cases below : block ≤ boundary
      · simp [verified, known, below, Except.map]
      · simp [verified, known, below, storeInPlace_eq, Except.map]

end Committing

section Finishing

/-- Writes the rows of all nodes that are queued up to a block, or none of them. -/
def writeBatch (block : UInt64) : Steps κ Unit := do
  let s ← get
  match s.backend.putAll .trieNodes (s.batch block) with
  | .error fault => throw (.storage fault)
  | .ok backend => modify fun s => { s with backend }

def settleInPlace (block : UInt64) : Steps κ Unit := do
  let bound := Word.saturatingAdd block 1
  let due := (← get).queued (· < bound)
  modify fun s => { s with
    pending := s.pending.filter fun queuedBlock _ => !(queuedBlock < bound) }
  forM due fun key => modify fun s => { s with nodes := markPersisted s.nodes key }
  modify fun s => { s with boundary := some block }

/-- A flush, which settles the queues of what it has written. -/
def flushInPlace (block : UInt64) : Steps κ Unit := do
  writeBatch block
  settleInPlace block

/-- The end of the commit of one trie: its root is known before anything is flushed. -/
def finishInPlace (kind : TrieKind) (block : UInt64) (root : Hash) : Steps κ (Option UInt64) := do
  modify fun s => s.addRoot root block
  if (← get).flushesOn kind block then
    flushInPlace block
    modify prune
    modify fun s => { s with boundaries := s.boundaries.send block }
    return some block
  else
    return none

theorem runOn_forM_markPersisted (keys : List κ) (s : NodeStore κ) :
    Steps.runOn (forM keys fun key => modify fun s => { s with nodes := markPersisted s.nodes key })
      s = (.ok (), { s with nodes := keys.foldl markPersisted s.nodes }) := by
  induction keys generalizing s with
  | nil => rfl
  | cons key keys ih =>
    rw [List.forM_cons, Steps.runOn_bind, Steps.runOn_modify]
    exact ih _

theorem settleInPlace_eq (s : NodeStore κ) (block : UInt64) :
    (settleInPlace block).runOn s = (.ok (), s.settle block) := by
  unfold settleInPlace
  simp only [Steps.runOn_bind, Steps.runOn_get, Steps.runOn_modify, runOn_forM_markPersisted]
  rfl

theorem flushInPlace_eq (s : NodeStore κ) (block : UInt64) :
    (flushInPlace block).runOn s =
      (((s.flush block).map fun _ => ()).mapError .storage, (s.flush block).toOption.getD s) := by
  unfold flushInPlace writeBatch flush
  cases put : s.backend.putAll .trieNodes (s.batch block) with
  | error fault =>
    simp only [Steps.runOn_bind, Steps.runOn_get, Steps.runOn_throw, put]
    rfl
  | ok backend =>
    simp only [Steps.runOn_bind, Steps.runOn_get, Steps.runOn_modify, settleInPlace_eq, put]
    rfl

theorem finishInPlace_eq (s : NodeStore κ) (kind : TrieKind) (block : UInt64) (root : Hash) :
    (finishInPlace kind block root).runOn s = s.finish kind block root := by
  unfold finishInPlace finish
  simp only [Steps.runOn_bind, Steps.runOn_get, Steps.runOn_modify]
  cases (s.addRoot root block).flushesOn kind block with
  | false => rfl
  | true =>
    simp only [if_true, Steps.runOn_bind, Steps.runOn_modify, Steps.runOn_pure, flushInPlace_eq]
    cases (s.addRoot root block).flush block <;> rfl

end Finishing

end StateSync.Store.NodeStore
