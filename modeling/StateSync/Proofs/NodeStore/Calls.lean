import StateSync.Proofs.ByteStore
import StateSync.Store.NodeStore.Finish

/-! Derived facts on what each call leaves of a node store. -/

namespace StateSync.Store.NodeStore

open Trie

/-- A call on a node store, or a change of the faults of its backend. -/
inductive Call (κ : Type)
  | commit (block : UInt64) (key : κ) (payload : Bytes)
  | finish (kind : TrieKind) (block : UInt64) (root : Hash)
  | load (key : κ) (flags : ReadFlags)
  | enableWitness
  | takeWitness
  | setFaults (readFault writeFault : Option StorageFault)

variable {κ : Type} [NodeKey κ] {s t : NodeStore κ}

/-- The store after a call. A refused commit leaves it as it was. -/
def Call.run : Call κ → NodeStore κ → NodeStore κ
  | commit block key payload, s =>
    match s.commit block key payload with
    | .ok t => t
    | .error _ => s
  | finish kind block root, s => (s.finish kind block root).2
  | load key flags, s => (s.load key flags).2
  | enableWitness, s => s.enableWitness
  | takeWitness, s => s.takeWitness.2
  | setFaults readFault writeFault, s =>
    { s with backend := s.backend.withFaults readFault writeFault }

/-- The store after some calls. -/
def after (s : NodeStore κ) (calls : List (Call κ)) : NodeStore κ :=
  calls.foldl (fun s c => c.run s) s

/-- The boundary that a call announces: it has flushed up to that block. -/
def Call.announced? : Call κ → NodeStore κ → Option UInt64
  | finish kind block root, s => (s.finish kind block root).1.toOption.join
  | _, _ => none

/-- Stores that hold the same, in memory, in rows and in queues, up to the same boundary. -/
structure Agrees (s t : NodeStore κ) : Prop where
  nodes : t.nodes = s.nodes
  pending : t.pending = s.pending
  boundary : t.boundary = s.boundary
  rows : t.backend.trieNodes = s.backend.trieNodes

theorem store_of_commit {block : UInt64} {key : κ} {payload : Bytes}
    (h : s.commit block key payload = .ok t) : t = s.store block key payload := by
  unfold commit at h
  split at h
  · cases h
  · split at h
    · split at h
      · cases h
      · exact (Except.ok.inj h).symm
    · exact (Except.ok.inj h).symm

/-- A commit is accepted above the boundary only. -/
theorem settled_of_commit {block : UInt64} {key : κ} {payload : Bytes}
    (h : s.commit block key payload = .ok t) : s.settled block = false := by
  unfold commit at h
  unfold settled
  split at h
  · cases h
  · split at h
    · next boundary known =>
      split at h
      · cases h
      · next above => simpa [known] using above
    · simp only [*]

/-- What a finished trie comes to. -/
inductive Finished (s : NodeStore κ) (kind : TrieKind) (block : UInt64) :
    Except StoreError (Option UInt64) → NodeStore κ → Prop
  | kept (idle : s.flushesOn kind block = false) : Finished s kind block (.ok none) s
  | failed {fault : StorageFault} (due : s.flushesOn kind block = true)
      (failed : s.flush block = .error fault) : Finished s kind block (.error (.storage fault)) s
  | flushed {t : NodeStore κ} (due : s.flushesOn kind block = true)
      (done : s.flush block = .ok t) : Finished s kind block (.ok (some block))
        { t.prune with boundaries := t.prune.boundaries.send block }

theorem finish_finished (s : NodeStore κ) (kind : TrieKind) (block : UInt64) (root : Hash) :
    Finished (s.addRoot root block) kind block (s.finish kind block root).1
      (s.finish kind block root).2 := by
  unfold finish
  dsimp only
  split
  · next due =>
    split
    · next failed => exact .failed due failed
    · next done => exact .flushed due done
  · next idle => exact .kept (Bool.eq_false_of_not_eq_true idle)

theorem flushesOn_eq_true {kind : TrieKind} {block : UInt64} :
    s.flushesOn kind block = true ↔
      kind = .state ∧ s.persistence.flushes block = true ∧ s.settled block = false := by
  simp only [flushesOn, Bool.and_eq_true, beq_iff_eq, Bool.not_eq_true', and_assoc]

theorem settled_of_flushesOn {kind : TrieKind} {block : UInt64}
    (h : s.flushesOn kind block = true) : s.settled block = false :=
  (flushesOn_eq_true.mp h).2.2

theorem flush_eq {block : UInt64} (h : s.flush block = .ok t) : ∃ backend,
    s.backend.putAll .trieNodes (s.batch block) = .ok backend ∧
      t = { s with backend }.settle block := by
  unfold flush at h
  split at h
  · cases h
  · next backend done => exact ⟨backend, done, (Except.ok.inj h).symm⟩

/-- Finishing a commit fails with the batch of its flush, and only so. -/
theorem fst_finish (s : NodeStore κ) (kind : TrieKind) (block : UInt64) (root : Hash) :
    (s.finish kind block root).1 =
      if s.flushesOn kind block then
        match s.backend.putAll .trieNodes (s.batch block) with
        | .error fault => .error (.storage fault)
        | .ok _ => .ok (some block)
      else .ok none := by
  have due : (s.addRoot root block).flushesOn kind block = s.flushesOn kind block := rfl
  have same : (s.addRoot root block).batch block = s.batch block := rfl
  have backend : (s.addRoot root block).backend = s.backend := rfl
  unfold finish flush
  dsimp only
  rw [due, same, backend]
  split
  · cases s.backend.putAll .trieNodes (s.batch block) <;> rfl
  · rfl

/-- A batch has the rows of the nodes that are queued and not persisted. -/
theorem mem_batch {block : UInt64} {row : Bytes × Bytes} : row ∈ s.batch block ↔
    ∃ key ∈ s.queued (· ≤ block), ∃ node : CachedNode, s.nodes[key]? = some node ∧
      node.persisted = false ∧ node.row = row := by
  rw [batch, List.mem_filterMap]
  refine exists_congr fun key => and_congr_right fun _ => ?_
  cases live : s.nodes[key]? with
  | none => simp [unpersistedRow?, live]
  | some node => cases flag : node.persisted <;> simp [unpersistedRow?, live, flag]

/-- A flush adds the batch to the rows. -/
theorem getElem?_rows_flush {block : UInt64} (done : s.flush block = .ok t) (key : Bytes) :
    t.backend.trieNodes[key]? =
      (lastValue (s.batch block) key).or s.backend.trieNodes[key]? := by
  obtain ⟨backend, put, rfl⟩ := flush_eq done
  obtain rfl := Backend.putAll_eq put
  exact getElem?_insertMany _ _ _

theorem queued_mono {due due' : UInt64 → Bool} {key : κ} (le : ∀ block, due block → due' block)
    (h : key ∈ s.queued due) : key ∈ s.queued due' := by
  obtain ⟨entry, mem, hkey⟩ := List.mem_flatMap.mp h
  obtain ⟨listed, hdue⟩ := List.mem_filter.mp mem
  exact List.mem_flatMap.mpr ⟨entry, List.mem_filter.mpr ⟨listed, le _ hdue⟩, hkey⟩

theorem le_of_lt_saturatingAdd {block queuedBlock : UInt64}
    (h : queuedBlock < Word.saturatingAdd block 1) : queuedBlock ≤ block := by
  rw [UInt64.lt_iff_toNat_lt, Word.toNat_saturatingAdd, UInt64.toNat_one] at h
  refine UInt64.le_iff_toNat_le.mpr ?_
  omega

/-- What a flush settles it has written. -/
theorem queued_of_settled {block : UInt64} {key : κ}
    (h : key ∈ s.queued (· < Word.saturatingAdd block 1)) : key ∈ s.queued (· ≤ block) :=
  queued_mono (fun _ below => decide_eq_true (le_of_lt_saturatingAdd (of_decide_eq_true below))) h

/-- A read changes at most the witness. -/
theorem load_eq (s : NodeStore κ) (key : κ) (flags : ReadFlags) :
    ∃ witness, (s.load key flags).2 = { s with witness } := by
  unfold load
  split
  · next found _ =>
    cases found with
    | none => exact ⟨s.witness, rfl⟩
    | some payload =>
      cases skip : flags.skipWitness with
      | true => exact ⟨s.witness, by simp only [recordRead, skip, if_true]⟩
      | false =>
        refine ⟨s.witness.record payload, ?_⟩
        simp only [recordRead, skip, Bool.false_eq_true, if_false]
  · exact ⟨s.witness, rfl⟩

/-- A load returns what a lookup finds, whether it is recorded or not. -/
theorem load_eq_ok_iff {key : κ} {flags : ReadFlags} {found : Option Bytes} :
    (s.load key flags).1 = .ok found ↔ s.lookup key = .ok found := by
  unfold load
  cases s.lookup key with
  | ok same => simp only [Except.ok.injEq]
  | error fault => exact ⟨nofun, nofun⟩

theorem evict_of_le {limit : Nat} (fits : s.memory ≤ limit) (keys : List κ) :
    evict limit keys s = s := by
  cases keys with
  | nil => rfl
  | cons => exact if_pos fits

/-- A store without the node under a key, and without the memory that it is taken to occupy. -/
def dropNode (s : NodeStore κ) (key : κ) : NodeStore κ :=
  match s.nodes[key]? with
  | some node => { s with nodes := s.nodes.erase key, memory := s.memory - node.memory }
  | none => s

theorem dropNode_frame (s : NodeStore κ) (key : κ) :
    ∃ nodes memory, s.dropNode key = { s with nodes, memory } := by
  unfold dropNode
  split
  · exact ⟨_, _, rfl⟩
  · exact ⟨s.nodes, s.memory, rfl⟩

theorem foldl_dropNode_frame (keys : List κ) (s : NodeStore κ) :
    ∃ nodes memory, keys.foldl dropNode s = { s with nodes, memory } := by
  induction keys generalizing s with
  | nil => exact ⟨s.nodes, s.memory, rfl⟩
  | cons key keys ih =>
    obtain ⟨nodes, memory, heq⟩ := dropNode_frame s key
    rw [List.foldl_cons, heq]
    exact ih { s with nodes, memory }

theorem evict_cons (limit : Nat) (key : κ) (keys : List κ) (s : NodeStore κ) :
    evict limit (key :: keys) s =
      if s.memory ≤ limit then s else evict limit keys (s.dropNode key) := by
  rw [evict]
  split
  · rfl
  · cases live : s.nodes[key]? with
    | none => simp only [dropNode, live]
    | some node => simp only [dropNode, live]

/--
Eviction drops a first part of its order, every key of it while the memory is above the limit. It
stops when the rest fits or nothing of the order is left.
-/
theorem evict_eq (limit : Nat) (keys : List κ) (s : NodeStore κ) : ∃ gone rest,
    keys = gone ++ rest ∧ evict limit keys s = gone.foldl dropNode s ∧
      (∀ n < gone.length, limit < ((gone.take n).foldl dropNode s).memory) ∧
      ((evict limit keys s).memory ≤ limit ∨ rest = []) := by
  induction keys generalizing s with
  | nil => exact ⟨[], [], rfl, rfl, nofun, .inr rfl⟩
  | cons key keys ih =>
    rw [evict_cons]
    by_cases fits : s.memory ≤ limit
    · rw [if_pos fits]
      exact ⟨[], key :: keys, rfl, rfl, nofun, .inl fits⟩
    · rw [if_neg fits]
      obtain ⟨gone, rest, parts, dropped, above, stop⟩ := ih (s.dropNode key)
      refine ⟨key :: gone, rest, congrArg (List.cons key) parts, dropped, fun n hn => ?_, stop⟩
      cases n with
      | zero => exact Nat.lt_of_not_le fits
      | succ n => exact above n (Nat.lt_of_succ_lt_succ hn)

/-- Eviction changes the nodes in memory and their account. -/
theorem evict_frame (limit : Nat) (keys : List κ) (s : NodeStore κ) :
    ∃ nodes memory, evict limit keys s = { s with nodes, memory } := by
  obtain ⟨gone, rest, -, dropped, -⟩ := evict_eq limit keys s
  rw [dropped]
  exact foldl_dropNode_frame gone s

/-- Under a limit, pruning is eviction in the order of blocks: within the limit it stops at once. -/
theorem prune_eq_evict {limit : Nat} (known : s.pruning.limit? = some limit) :
    s.prune = evict limit s.evictionOrder s := by
  unfold prune
  cases policy : s.pruning with
  | disabled =>
    rw [policy] at known
    cases known
  | memoryLimit bound =>
    rw [policy] at known
    obtain rfl := Option.some.inj known
    change (if decide (bound < s.memory) = true then evict bound s.evictionOrder s else s) = _
    by_cases fits : s.memory ≤ bound
    · rw [evict_of_le fits, ite_self]
    · rw [if_pos (decide_eq_true (Nat.lt_of_not_le fits))]

theorem prune_of_no_limit (unknown : s.pruning.limit? = none) : s.prune = s := by
  unfold prune
  rw [unknown]

theorem prune_frame (s : NodeStore κ) : ∃ nodes memory, s.prune = { s with nodes, memory } := by
  cases known : s.pruning.limit? with
  | none => exact ⟨s.nodes, s.memory, prune_of_no_limit known⟩
  | some limit =>
    rw [prune_eq_evict known]
    exact evict_frame _ _ s

theorem backend_prune (s : NodeStore κ) : s.prune.backend = s.backend := by
  obtain ⟨nodes, memory, heq⟩ := prune_frame s
  rw [heq]

theorem pending_prune (s : NodeStore κ) : s.prune.pending = s.pending := by
  obtain ⟨nodes, memory, heq⟩ := prune_frame s
  rw [heq]

theorem boundary_prune (s : NodeStore κ) : s.prune.boundary = s.boundary := by
  obtain ⟨nodes, memory, heq⟩ := prune_frame s
  rw [heq]

/-- What a call comes to: the boundary that it announces and the store after it. -/
inductive Stepped (s : NodeStore κ) : Call κ → Option UInt64 → NodeStore κ → Prop
  | refused {block : UInt64} {key : κ} {payload : Bytes} {e : StoreError}
      (refusal : s.commit block key payload = .error e) :
      Stepped s (.commit block key payload) none s
  | stored {block : UInt64} {key : κ} {payload : Bytes} (above : s.settled block = false)
      (accepted : s.commit block key payload = .ok (s.store block key payload)) :
      Stepped s (.commit block key payload) none (s.store block key payload)
  | noted {kind : TrieKind} {block : UInt64} {root : Hash} :
      Stepped s (.finish kind block root) none (s.addRoot root block)
  | flushed {kind : TrieKind} {block : UInt64} {root : Hash} {t : NodeStore κ}
      (due : s.flushesOn kind block = true) (done : (s.addRoot root block).flush block = .ok t) :
      Stepped s (.finish kind block root) (some block)
        { t.prune with boundaries := t.prune.boundaries.send block }
  | loaded {key : κ} {flags : ReadFlags} {witness : Witness} :
      Stepped s (.load key flags) none { s with witness }
  | enabled : Stepped s .enableWitness none s.enableWitness
  | taken : Stepped s .takeWitness none s.takeWitness.2
  | faulted {readFault writeFault : Option StorageFault} :
      Stepped s (.setFaults readFault writeFault) none
        { s with backend := s.backend.withFaults readFault writeFault }

theorem stepped (s : NodeStore κ) (c : Call κ) : Stepped s c (c.announced? s) (c.run s) := by
  cases c with
  | commit block key payload =>
    rw [Call.run]
    split
    · next accepted =>
      obtain rfl := store_of_commit accepted
      exact .stored (settled_of_commit accepted) accepted
    · next refusal => exact .refused refusal
  | finish kind block root =>
    have finished := finish_finished s kind block root
    change Stepped s _ (s.finish kind block root).1.toOption.join (s.finish kind block root).2
    generalize (s.finish kind block root).1 = answer at finished ⊢
    generalize (s.finish kind block root).2 = t at finished ⊢
    cases finished with
    | kept | failed => exact .noted
    | flushed due done => exact .flushed due done
  | load key flags =>
    obtain ⟨witness, heq⟩ := load_eq s key flags
    change Stepped s _ none (s.load key flags).2
    rw [heq]
    exact .loaded
  | enableWitness => exact .enabled
  | takeWitness => exact .taken
  | setFaults => exact .faulted

variable [Std.TransOrd κ] [Std.LawfulEqOrd κ] [DecidableEq κ]

theorem getElem?_insert (nodes : Std.TreeMap κ CachedNode) (key other : κ) (node : CachedNode) :
    (nodes.insert key node)[other]? = if key = other then some node else nodes[other]? := by
  rw [Std.TreeMap.getElem?_insert]
  simp only [Std.LawfulEqOrd.compare_eq_iff_eq]

theorem getElem?_erase (nodes : Std.TreeMap κ CachedNode) (key other : κ) :
    (nodes.erase key)[other]? = if key = other then none else nodes[other]? := by
  rw [Std.TreeMap.getElem?_erase]
  simp only [Std.LawfulEqOrd.compare_eq_iff_eq]

theorem getElem?_nodes_store (s : NodeStore κ) (block : UInt64) (key other : κ) (payload : Bytes) :
    (s.store block key payload).nodes[other]? =
      if key = other then some ⟨NodeKey.toBytes key, payload, block, false⟩ else s.nodes[other]? :=
  getElem?_insert _ _ _ _

theorem getElem?_markPersisted (nodes : Std.TreeMap κ CachedNode) (key other : κ) :
    (markPersisted nodes key)[other]? =
      nodes[other]?.map fun node =>
        if key = other then { node with persisted := true } else node := by
  unfold markPersisted
  by_cases same : key = other
  · subst same
    split
    · next node h => simp [h]
    · next h => simp [h]
  · split
    · simp [getElem?_insert, same]
    · simp [same]

theorem getElem?_foldl_markPersisted (keys : List κ) (nodes : Std.TreeMap κ CachedNode) (key : κ) :
    (keys.foldl markPersisted nodes)[key]? =
      nodes[key]?.map fun node =>
        if key ∈ keys then { node with persisted := true } else node := by
  induction keys generalizing nodes with
  | nil => simp
  | cons first keys ih =>
    rw [List.foldl_cons, ih, getElem?_markPersisted, Option.map_map]
    congr 1
    funext node
    by_cases same : first = key
    · subst same
      simp
    · simp [same, Ne.symm same]

/-- A flush marks the nodes that it settles, and leaves the others as they were. -/
theorem getElem?_nodes_flush {block : UInt64} (done : s.flush block = .ok t) (key : κ) :
    t.nodes[key]? = s.nodes[key]?.map fun node =>
      if key ∈ s.queued (· < Word.saturatingAdd block 1) then { node with persisted := true }
      else node := by
  obtain ⟨backend, _, rfl⟩ := flush_eq done
  exact getElem?_foldl_markPersisted _ _ _

theorem getElem?_dropNode (s : NodeStore κ) (key other : κ) :
    (s.dropNode key).nodes[other]? = if key = other then none else s.nodes[other]? := by
  unfold dropNode
  split
  · exact getElem?_erase _ _ _
  · next missing =>
    split
    · next same => rw [← same, missing]
    · rfl

theorem getElem?_foldl_dropNode (keys : List κ) (s : NodeStore κ) (key : κ) :
    (keys.foldl dropNode s).nodes[key]? = if key ∈ keys then none else s.nodes[key]? := by
  induction keys generalizing s with
  | nil => simp
  | cons first keys ih =>
    rw [List.foldl_cons, ih, getElem?_dropNode]
    by_cases same : first = key
    · simp [same]
    · simp [same, Ne.symm same]

/-- Eviction drops nodes of the given order only. -/
theorem getElem?_evict (limit : Nat) (keys : List κ) (s : NodeStore κ) (key : κ) :
    (evict limit keys s).nodes[key]? = s.nodes[key]? ∨
      key ∈ keys ∧ (evict limit keys s).nodes[key]? = none := by
  obtain ⟨gone, rest, rfl, dropped, -, -⟩ := evict_eq limit keys s
  rw [dropped, getElem?_foldl_dropNode]
  by_cases mem : key ∈ gone
  · exact .inr ⟨List.mem_append_left _ mem, if_pos mem⟩
  · exact .inl (if_neg mem)

omit [DecidableEq κ] in
theorem mem_evictionOrder {key : κ} : key ∈ s.evictionOrder ↔
    ∃ node, s.nodes[key]? = some node ∧ node.persisted = true := by
  simp only [evictionOrder, List.mem_map, (s.eviction.perm _).mem_iff, evictable, List.mem_filter]
  constructor
  · rintro ⟨entry, ⟨mem, flag⟩, rfl⟩
    exact ⟨entry.2, Std.TreeMap.mem_toList_iff_getElem?_eq_some.mp mem, flag⟩
  · rintro ⟨node, live, flag⟩
    exact ⟨(key, node), ⟨Std.TreeMap.mem_toList_iff_getElem?_eq_some.mpr live, flag⟩, rfl⟩

/-- A key is where it was, or its persisted node has left memory. -/
def KeptOrDropped (s : NodeStore κ) (nodes : Std.TreeMap κ CachedNode) (key : κ) : Prop :=
  nodes[key]? = s.nodes[key]? ∨
    nodes[key]? = none ∧ ∃ node : CachedNode, s.nodes[key]? = some node ∧ node.persisted = true

theorem keptOrDropped_prune (s : NodeStore κ) (key : κ) : s.KeptOrDropped s.prune.nodes key := by
  cases known : s.pruning.limit? with
  | none =>
    rw [prune_of_no_limit known]
    exact .inl rfl
  | some limit =>
    rw [prune_eq_evict known]
    rcases getElem?_evict limit s.evictionOrder s key with kept | ⟨mem, gone⟩
    · exact .inl kept
    · exact .inr ⟨gone, mem_evictionOrder.mp mem⟩

/-- Pruning drops persisted nodes only. -/
theorem prune_eq (s : NodeStore κ) : ∃ nodes memory, s.prune = { s with nodes, memory } ∧
    ∀ key, s.KeptOrDropped nodes key := by
  obtain ⟨nodes, memory, heq⟩ := prune_frame s
  refine ⟨nodes, memory, heq, fun key => ?_⟩
  have kept := keptOrDropped_prune s key
  rwa [heq] at kept

theorem getElem?_of_prune {key : κ} {node : CachedNode} (live : s.prune.nodes[key]? = some node) :
    s.nodes[key]? = some node := by
  obtain ⟨nodes, memory, heq, kept⟩ := prune_eq s
  rw [heq] at live
  rcases kept key with same | ⟨gone, -⟩
  · exact same.symm.trans live
  · cases gone.symm.trans live

end StateSync.Store.NodeStore
