import StateSync.Proofs.NodeStore.Contents

/-!
What waits to be flushed. The queues hold exactly the accepted commits above the boundary, and a
node that is not persisted waits in the queue of its own block.
-/

namespace StateSync.Store.NodeStore

open Trie

variable {κ : Type}

section Last

variable [DecidableEq κ]

/-- The last of some commits under a key, the newest commit first. -/
def lastCommit? (commits : List (Commit κ)) (key : κ) : Option (Commit κ) :=
  commits.find? fun c => c.key = key

theorem lastCommit?_cons (c : Commit κ) (commits : List (Commit κ)) (key : κ) :
    lastCommit? (c :: commits) key = if c.key = key then some c else lastCommit? commits key := by
  rw [lastCommit?, List.find?_cons]
  by_cases same : c.key = key <;> simp [same, lastCommit?]

theorem lastPayload_eq (commits : List (Commit κ)) (key : κ) :
    lastPayload commits key = (lastCommit? commits key).map Commit.payload := by
  induction commits with
  | nil => rfl
  | cons c commits ih =>
    rw [lastPayload_cons, lastCommit?_cons, ih]
    split <;> rfl

end Last

variable [NodeKey κ] {s : NodeStore κ} {block queuedBlock : UInt64} {key queuedKey : κ}

/-- A key waits in the queue of a block. -/
def Queued (s : NodeStore κ) (block : UInt64) (key : κ) : Prop :=
  ∃ keys, s.pending[block]? = some keys ∧ key ∈ keys

theorem mem_queued {due : UInt64 → Bool} :
    key ∈ s.queued due ↔ ∃ block, due block = true ∧ s.Queued block key := by
  constructor
  · intro h
    obtain ⟨⟨block, keys⟩, mem, hkey⟩ := List.mem_flatMap.mp h
    obtain ⟨listed, hdue⟩ := List.mem_filter.mp mem
    exact ⟨block, hdue, keys, Std.TreeMap.mem_toList_iff_getElem?_eq_some.mp listed, hkey⟩
  · rintro ⟨block, hdue, keys, listed, hkey⟩
    have mem := Std.TreeMap.mem_toList_iff_getElem?_eq_some.mpr listed
    exact List.mem_flatMap.mpr ⟨(block, keys), List.mem_filter.mpr ⟨mem, hdue⟩, hkey⟩

omit [NodeKey κ] in
theorem getElem?_enqueue (pending : Std.TreeMap UInt64 (List κ)) (block other : UInt64) (key : κ) :
    (enqueue pending block key)[other]? =
      if block = other then some ((pending[block]?).getD [] ++ [key]) else pending[other]? := by
  rw [enqueue, Std.TreeMap.getElem?_insert, Std.TreeMap.getD_eq_getD_getElem?]
  simp only [Std.LawfulEqOrd.compare_eq_iff_eq]

/-- A commit queues its key for its block, where an earlier commit may have put it already. -/
theorem queued_store {payload : Bytes}
    (already : alreadyQueued s.nodes[key]? block = true → s.Queued block key) :
    (s.store block key payload).Queued queuedBlock queuedKey ↔
      s.Queued queuedBlock queuedKey ∨ queuedBlock = block ∧ queuedKey = key := by
  unfold Queued store
  dsimp only
  cases previous : alreadyQueued s.nodes[key]? block with
  | true =>
    simp only [if_true, iff_self_or]
    rintro ⟨rfl, rfl⟩
    exact already previous
  | false =>
    simp only [Bool.false_eq_true, if_false, getElem?_enqueue]
    by_cases same : block = queuedBlock
    · subst same
      cases s.pending[block]? <;> simp
    · simp [same, Ne.symm same]

/-- A flush takes out the queues below the block after its own. -/
theorem getElem?_pending_settle : (s.settle block).pending[queuedBlock]? =
    if queuedBlock < Word.saturatingAdd block 1 then none else s.pending[queuedBlock]? := by
  unfold settle
  rw [Std.TreeMap.getElem?_filter']
  by_cases taken : queuedBlock < Word.saturatingAdd block 1 <;>
    cases s.pending[queuedBlock]? <;> simp [Option.filter, -UInt64.not_lt, taken]

theorem queued_settle : (s.settle block).Queued queuedBlock queuedKey ↔
    s.Queued queuedBlock queuedKey ∧ ¬queuedBlock < Word.saturatingAdd block 1 := by
  unfold Queued
  rw [getElem?_pending_settle]
  split <;> simp [*]

theorem settled_settle (later : UInt64) :
    (s.settle block).settled later = decide (later ≤ block) := rfl

/-- A block up to the boundary stays so when a flush moves the boundary. -/
theorem settled_settle_of_settled {later : UInt64} (above : s.settled block = false)
    (h : s.settled later = true) : (s.settle block).settled later = true := by
  unfold settled at above h
  rw [settled_settle]
  cases known : s.boundary with
  | none => simp [known] at h
  | some boundary =>
    simp only [known, decide_eq_false_iff_not, decide_eq_true_eq, UInt64.le_iff_toNat_le]
      at above h ⊢
    omega

/-- Only the greatest block number leaves a queue behind at its own flush. -/
theorem eq_greatest_of_not_lt (le : queuedBlock ≤ block)
    (kept : ¬queuedBlock < Word.saturatingAdd block 1) : queuedBlock = Word.greatest := by
  refine UInt64.le_antisymm (Word.le_greatest _) (UInt64.le_iff_toNat_le.mpr ?_)
  rw [UInt64.lt_iff_toNat_lt, Word.toNat_saturatingAdd, UInt64.toNat_one] at kept
  rw [UInt64.le_iff_toNat_le] at le
  have bound := Word.greatest.toNat_lt_size
  omega

namespace Journal

variable [DecidableEq κ] {j : Journal κ}

/-- Whatever is not yet flushed waits in the queues, and nothing else does. -/
structure Scheduled (j : Journal κ) : Prop where
  /-- A node in memory is the last commit under its key. -/
  last : ∀ key node, j.store.nodes[key]? = some node →
    lastCommit? j.commits key = some ⟨node.block, key, node.payload⟩
  unpersisted : ∀ key node, j.store.nodes[key]? = some node → node.persisted = false →
    j.store.Queued node.block key
  /-- A commit above the boundary is queued. -/
  listed : ∀ c ∈ j.commits, j.store.settled c.block = false → j.store.Queued c.block c.key
  origin : ∀ block key, j.store.Queued block key → ∃ c ∈ j.commits, c.block = block ∧ c.key = key
  /-- A queue is left over up to the boundary only when no block is above it. -/
  leftover : ∀ block key, j.store.Queued block key → j.store.settled block = true →
    ∀ later, j.store.settled later = true

variable [Std.TransOrd κ] [Std.LawfulEqOrd κ]

omit [Std.LawfulEqOrd κ] in
theorem scheduled_start (backend : Backend) (persistence : Persistence) (pruning : Pruning)
    (eviction : EvictionOrder κ) :
    Scheduled { store := ({ backend, persistence, pruning, eviction } : NodeStore κ) } := by
  have noNode : ∀ key : κ, (∅ : Std.TreeMap κ CachedNode)[key]? = none := fun key => by simp
  have noQueue : ∀ block : UInt64, (∅ : Std.TreeMap UInt64 (List κ))[block]? = none :=
    fun block => by simp
  refine ⟨fun key node h => ?_, fun key node h _ => ?_, fun c mem => ?_, fun block key h => ?_,
    fun block key h => ?_⟩
  · cases (noNode key).symm.trans h
  · cases (noNode key).symm.trans h
  · cases mem
  · obtain ⟨_, h, _⟩ := h
    cases (noQueue block).symm.trans h
  · obtain ⟨_, h, _⟩ := h
    cases (noQueue block).symm.trans h

omit [Std.TransOrd κ] [Std.LawfulEqOrd κ] in
/-- Nodes may leave memory; beyond them only queues and boundary matter. -/
theorem Scheduled.congr {s : NodeStore κ} (hj : j.Scheduled)
    (nodes : ∀ (key : κ) (node : CachedNode),
      s.nodes[key]? = some node → j.store.nodes[key]? = some node)
    (pending : s.pending = j.store.pending) (boundary : s.boundary = j.store.boundary) :
    Scheduled { j with store := s } := by
  have queued : ∀ block key, s.Queued block key ↔ j.store.Queued block key := fun block key => by
    rw [Queued, Queued, pending]
  have settled : ∀ block, s.settled block = j.store.settled block := fun block => by
    rw [NodeStore.settled, NodeStore.settled, boundary]
  refine ⟨fun key node h => hj.last key node (nodes key node h), fun key node h flag => ?_,
    fun c mem above => ?_, fun block key h => ?_, fun block key h below later => ?_⟩
  · exact (queued _ _).mpr (hj.unpersisted key node (nodes key node h) flag)
  · exact (queued _ _).mpr (hj.listed c mem ((settled _).symm.trans above))
  · exact hj.origin block key ((queued _ _).mp h)
  · have old := hj.leftover block key ((queued _ _).mp h) ((settled _).symm.trans below)
    exact (settled later).trans (old later)

theorem scheduled_store {block : UInt64} {key : κ} {payload : Bytes} (hj : j.Scheduled)
    (above : j.store.settled block = false) : Scheduled
      { store := j.store.store block key payload
        commits := ⟨block, key, payload⟩ :: j.commits } := by
  have get := getElem?_nodes_store j.store block key
  -- the earlier commit of the same block is what queued the key
  have already : alreadyQueued j.store.nodes[key]? block = true → j.store.Queued block key := by
    intro h
    unfold alreadyQueued at h
    split at h
    · next node live =>
      rw [Bool.and_eq_true, beq_iff_eq, Bool.not_eq_true'] at h
      exact h.1 ▸ hj.unpersisted key node live h.2
    · cases h
  have queued : ∀ queuedBlock queuedKey,
      (j.store.store block key payload).Queued queuedBlock queuedKey ↔
        j.store.Queued queuedBlock queuedKey ∨ queuedBlock = block ∧ queuedKey = key :=
    fun _ _ => queued_store already
  refine ⟨fun other node h => ?_, fun other node h flag => ?_, fun c mem unsettled => ?_,
    fun queuedBlock queuedKey h => ?_, fun queuedBlock queuedKey h below => ?_⟩
  · rw [lastCommit?_cons]
    dsimp only at h ⊢
    rw [get] at h
    by_cases same : key = other
    · subst same
      rw [if_pos rfl] at h ⊢
      obtain rfl := Option.some.inj h
      rfl
    · rw [if_neg same] at h ⊢
      exact hj.last other node h
  · dsimp only at h ⊢
    rw [get] at h
    by_cases same : key = other
    · subst same
      rw [if_pos rfl] at h
      obtain rfl := Option.some.inj h
      exact (queued _ _).mpr (.inr ⟨rfl, rfl⟩)
    · rw [if_neg same] at h
      exact (queued _ _).mpr (.inl (hj.unpersisted other node h flag))
  · rcases List.mem_cons.mp mem with rfl | mem
    · exact (queued _ _).mpr (.inr ⟨rfl, rfl⟩)
    · exact (queued _ _).mpr (.inl (hj.listed c mem unsettled))
  · rcases (queued _ _).mp h with old | ⟨rfl, rfl⟩
    · obtain ⟨c, mem, hc⟩ := hj.origin _ _ old
      exact ⟨c, List.mem_cons_of_mem _ mem, hc⟩
    · exact ⟨_, List.mem_cons_self, rfl, rfl⟩
  · rcases (queued _ _).mp h with old | ⟨rfl, rfl⟩
    · exact hj.leftover _ _ old below
    · cases above.symm.trans below

theorem scheduled_flush {block : UInt64} {s : NodeStore κ} (hj : j.Scheduled)
    (above : j.store.settled block = false) (done : j.store.flush block = .ok s) :
    Scheduled { j with store := s } := by
  have get := getElem?_nodes_flush done
  obtain ⟨written, _, rfl⟩ := flush_eq done
  refine ⟨fun key node h => ?_, fun key node h flag => ?_, fun c mem unsettled => ?_,
    fun queuedBlock key h => ?_, fun queuedBlock key h below later => ?_⟩
  · obtain ⟨old, live, hnode⟩ := Option.map_eq_some_iff.mp ((get key).symm.trans h)
    refine (hj.last key old live).trans ?_
    split at hnode <;> subst hnode <;> rfl
  · obtain ⟨old, live, hnode⟩ := Option.map_eq_some_iff.mp ((get key).symm.trans h)
    split at hnode
    · subst hnode
      cases flag
    · next unmarked =>
      subst hnode
      have waits := hj.unpersisted key old live flag
      refine queued_settle.mpr ⟨waits, fun below => unmarked ?_⟩
      exact mem_queued.mpr ⟨old.block, decide_eq_true below, waits⟩
  · have old : j.store.settled c.block = false := by
      by_contra below
      rw [Bool.not_eq_false] at below
      cases unsettled.symm.trans (settled_settle_of_settled above below)
    refine queued_settle.mpr ⟨hj.listed c mem old, fun below => ?_⟩
    cases unsettled.symm.trans (decide_eq_true (le_of_lt_saturatingAdd below))
  · exact hj.origin _ _ (queued_settle.mp h).1
  · have le : queuedBlock ≤ block := of_decide_eq_true below
    obtain rfl := eq_greatest_of_not_lt le (queued_settle.mp h).2
    exact decide_eq_true (UInt64.le_trans (Word.le_greatest later) le)

theorem scheduled_prune (hj : j.Scheduled) : Scheduled { j with store := j.store.prune } :=
  hj.congr (fun _ _ => getElem?_of_prune) (pending_prune _) (boundary_prune _)

theorem scheduled_call (hj : j.Scheduled) (c : Call κ) : (j.call c).Scheduled := by
  have step := called j c
  generalize c.announced? j.store = announced at step
  generalize j.call c = after at step ⊢
  cases step with
  | quiet same =>
    exact hj.congr (fun _ _ h => same.nodes ▸ h) same.pending same.boundary
  | stored above => exact scheduled_store hj above
  | @flushed _ block root _ _ above done same =>
    have start : Scheduled { j with store := j.store.addRoot root block } :=
      hj.congr (fun _ _ h => h) rfl rfl
    have pruned := scheduled_prune (scheduled_flush start above done)
    exact pruned.congr (fun _ _ h => same.nodes ▸ h) same.pending same.boundary

theorem scheduled_reachable {keys : Set κ} {backend : Backend} (h : Reachable keys backend j) :
    j.Scheduled := by
  induction h with
  | start => exact scheduled_start backend _ _ _
  | call _ _ ih => exact scheduled_call ih _

end Journal

end StateSync.Store.NodeStore
