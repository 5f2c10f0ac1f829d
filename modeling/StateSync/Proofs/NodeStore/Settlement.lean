import StateSync.Proofs.NodeStore.Queues

/-!
What a boundary settles. A flush takes the queues below the block after its own, and a node that no
queue holds is persisted and may be dropped from memory. For the greatest block number there is no
block after it: its own queue is written and stays.
-/

namespace StateSync.Store.NodeStore

open Trie

variable {κ : Type} [NodeKey κ] {s t : NodeStore κ} {block : UInt64}

/-- A store comes to another, where the blocks that are due are settled and the others wait. -/
structure Settles (s t : NodeStore κ) (due : UInt64 → Prop) : Prop where
  drained : ∀ queuedBlock key, t.Queued queuedBlock key → ¬due queuedBlock
  marked : ∀ (key : κ) (node : CachedNode), t.nodes[key]? = some node → due node.block →
    t.isPersisted key = .ok true
  kept : ∀ later, ¬due later → t.pending[later]? = s.pending[later]?
  /-- Memory is above its limit only when nothing that is settled is left in it. -/
  fits : ∀ limit, s.pruning.limit? = some limit → t.memory ≤ limit ∨
    ∀ (key : κ) (node : CachedNode), t.nodes[key]? = some node → ¬due node.block

/-- A node that is not persisted waits in a queue, so a block is settled by draining its queue. -/
theorem Settles.of_drained {due : UInt64 → Prop}
    (queued : ∀ (key : κ) (node : CachedNode), t.nodes[key]? = some node →
      node.persisted = false → t.Queued node.block key)
    (drained : ∀ queuedBlock key, t.Queued queuedBlock key → ¬due queuedBlock)
    (kept : ∀ later, ¬due later → t.pending[later]? = s.pending[later]?)
    (fits : ∀ limit, s.pruning.limit? = some limit → t.memory ≤ limit ∨
      ∀ (key : κ) (node : CachedNode), t.nodes[key]? = some node → node.persisted = false) :
    Settles s t due where
  drained := drained
  marked key node live isDue := by
    have persisted : node.persisted = true := by
      by_contra unflagged
      exact drained _ _ (queued key node live (Bool.eq_false_of_not_eq_true unflagged)) isDue
    unfold isPersisted
    rw [live]
    exact congrArg Except.ok persisted
  kept := kept
  fits limit known := (fits limit known).imp_right fun unflagged key node live =>
    drained _ _ (queued key node live (unflagged key node live))

section Pruning

variable [Std.TransOrd κ] [Std.LawfulEqOrd κ] [DecidableEq κ]

/-- Eviction goes on until the rest fits the limit or every node of the order is dropped. -/
theorem evict_fits (limit : Nat) (keys : List κ) (s : NodeStore κ) :
    (evict limit keys s).memory ≤ limit ∨
      ∀ key ∈ keys, (evict limit keys s).nodes[key]? = none := by
  obtain ⟨gone, rest, rfl, dropped, -, stop⟩ := evict_eq limit keys s
  refine stop.imp_right ?_
  rintro rfl key mem
  rw [List.append_nil] at mem
  rw [dropped, getElem?_foldl_dropNode, if_pos mem]

/-- Pruning keeps a persisted node only within the limit. -/
theorem prune_fits {limit : Nat} (known : s.pruning.limit? = some limit) :
    s.prune.memory ≤ limit ∨
      ∀ (key : κ) (node : CachedNode), s.prune.nodes[key]? = some node →
        node.persisted = false := by
  refine (evict_fits limit s.evictionOrder s).imp (fun fits => ?_) fun dropped key node live => ?_
  · rwa [prune_eq_evict known]
  · by_contra persisted
    have old := getElem?_of_prune live
    have listed := mem_evictionOrder.mpr ⟨node, old, Bool.eq_true_of_not_eq_false persisted⟩
    rw [prune_eq_evict known, dropped key listed] at live
    cases live

end Pruning

section Announced

variable {kind : TrieKind} {root : Hash} {boundary : UInt64}

/-- A boundary is announced by a flush up to it, after which the store is pruned. -/
theorem flushed_of_finish (announced : (s.finish kind block root).1 = .ok (some boundary)) :
    boundary = block ∧ ∃ flushed, (s.addRoot root block).flush block = .ok flushed ∧
      (s.finish kind block root).2 =
        { flushed.prune with boundaries := flushed.prune.boundaries.send block } := by
  have finished := finish_finished s kind block root
  generalize (s.finish kind block root).2 = after at finished ⊢
  rw [announced] at finished
  cases finished with
  | flushed due done => exact ⟨rfl, _, done, rfl⟩

theorem getElem?_pending_finish
    (announced : (s.finish kind block root).1 = .ok (some boundary)) (queuedBlock : UInt64) :
    (s.finish kind block root).2.pending[queuedBlock]? =
      if queuedBlock < Word.saturatingAdd block 1 then none else s.pending[queuedBlock]? := by
  obtain ⟨-, flushed, done, after⟩ := flushed_of_finish announced
  obtain ⟨backend, -, rfl⟩ := flush_eq done
  rw [after]
  exact (congrArg (·[queuedBlock]?) (pending_prune _)).trans getElem?_pending_settle

theorem queued_finish (announced : (s.finish kind block root).1 = .ok (some boundary))
    (queuedBlock : UInt64) (key : κ) : (s.finish kind block root).2.Queued queuedBlock key ↔
      s.Queued queuedBlock key ∧ ¬queuedBlock < Word.saturatingAdd block 1 := by
  unfold Queued
  rw [getElem?_pending_finish announced]
  split <;> simp [*]

theorem finish_fits [Std.TransOrd κ] [Std.LawfulEqOrd κ] [DecidableEq κ]
    (announced : (s.finish kind block root).1 = .ok (some boundary)) {limit : Nat}
    (known : s.pruning.limit? = some limit) :
    (s.finish kind block root).2.memory ≤ limit ∨ ∀ (key : κ) (node : CachedNode),
      (s.finish kind block root).2.nodes[key]? = some node → node.persisted = false := by
  obtain ⟨-, flushed, done, after⟩ := flushed_of_finish announced
  obtain ⟨backend, -, rfl⟩ := flush_eq done
  rw [after]
  exact prune_fits known

end Announced

namespace Journal

variable [DecidableEq κ] [Std.TransOrd κ] [Std.LawfulEqOrd κ] {keys : Set κ} {backend : Backend}
  {j : Journal κ} {kind : TrieKind} {root : Hash} {boundary : UInt64}

theorem settles_of_drained (h : Reachable keys backend j)
    (announced : (j.store.finish kind block root).1 = .ok (some boundary)) {due : UInt64 → Prop}
    (drained : ∀ queuedBlock key, (j.store.finish kind block root).2.Queued queuedBlock key →
      ¬due queuedBlock)
    (reached : ∀ queuedBlock, queuedBlock < Word.saturatingAdd block 1 → due queuedBlock) :
    j.store.Settles (j.store.finish kind block root).2 due := by
  have finished : Reachable keys backend (j.call (.finish kind block root)) := h.call trivial
  refine .of_drained (scheduled_reachable finished).unpersisted drained (fun later undue => ?_)
    fun limit known => finish_fits announced known
  rw [getElem?_pending_finish announced, if_neg (mt (reached later) undue)]

/--
A boundary settles the blocks below the one after it. These are all the blocks up to the boundary,
unless that is the greatest block number and something waits for it.
-/
theorem finish_settles_iff (h : Reachable keys backend j)
    (announced : (j.store.finish kind block root).1 = .ok (some boundary)) :
    let t := (j.store.finish kind block root).2
    boundary = block ∧ j.store.Settles t (· < Word.saturatingAdd block 1) ∧
      (j.store.Settles t (· ≤ block) ↔
        (block = Word.greatest → ∀ key, ¬j.store.Queued block key)) := by
  have queued := queued_finish announced
  refine ⟨(flushed_of_finish announced).1, settles_of_drained h announced
    (fun queuedBlock key waits => ((queued queuedBlock key).mp waits).2) (fun _ => id),
    fun settled greatest key waits => ?_, fun idle => ?_⟩
  · have stays : ¬block < Word.saturatingAdd block 1 := by
      rw [greatest]
      exact UInt64.not_lt.mpr (Word.le_greatest _)
    exact settled.drained block key ((queued block key).mpr ⟨waits, stays⟩) (UInt64.le_refl _)
  · refine settles_of_drained h announced (fun queuedBlock key waits le => ?_)
      fun _ => le_of_lt_saturatingAdd
    obtain ⟨old, stays⟩ := (queued queuedBlock key).mp waits
    have greatest := eq_greatest_of_not_lt le stays
    have same : queuedBlock = block := by
      rw [greatest] at le ⊢
      exact UInt64.le_antisymm le (Word.le_greatest block)
    rw [same] at greatest old
    exact idle greatest key old

/-- A node that is committed for the greatest block number. -/
def forGreatest : Journal Position :=
  Journal.call { store := { backend := {}, persistence := .archive, pruning := .disabled } }
    (.commit Word.greatest (child 1) [0x11])

/-- Its boundary is announced and its row written, but the node still waits and is not persisted. -/
theorem finish_settles_iff_forGreatest :
    let s := forGreatest.store
    let finished := s.finish .state Word.greatest .zero
    finished.1 = .ok (some Word.greatest) ∧ ¬s.Settles finished.2 (· ≤ Word.greatest) ∧
      finished.2.backend.trieNodes[NodeKey.toBytes (child 1)]? = some [0x11] ∧
      finished.2.isPersisted (child 1) = .ok false := by
  intro s finished
  have h : Reachable Set.univ {} forGreatest := .call .start trivial
  have announced : finished.1 = .ok (some Word.greatest) := by decide +kernel
  have waits : s.Queued Word.greatest (child 1) := ⟨[child 1], rfl, List.mem_cons_self⟩
  refine ⟨announced, fun settled => ?_, by decide +kernel, by decide +kernel⟩
  exact (finish_settles_iff h announced).2.2.mp settled rfl (child 1) waits

end Journal

end StateSync.Store.NodeStore
