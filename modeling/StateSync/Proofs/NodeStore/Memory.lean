import StateSync.Proofs.NodeStore.Eviction

/-!
The account of memory. It is changed where a node comes in, is replaced or leaves, and read where a
store is pruned; it is never counted anew. It is exact all the same, after every run: no difference
that is taken from it would be negative, and pruning goes by what the nodes in memory occupy.
-/

namespace StateSync.Store.NodeStore

open Trie

variable {κ : Type} [NodeKey κ] {s t : NodeStore κ} {nodes others : Std.TreeMap κ CachedNode}

section Counting

variable [Std.TransOrd κ] [Std.LawfulEqOrd κ]

/-- Maps with the same entries occupy the same memory. -/
theorem toList_congr (same : ∀ key : κ, nodes[key]? = others[key]?) :
    nodes.toList = others.toList :=
  (Std.TreeMap.Equiv.of_forall_constGet?_eq same).toList_eq

variable [DecidableEq κ]

/-- What a map occupies but for one key, and what the node under that key does. -/
theorem occupied_split (nodes : Std.TreeMap κ CachedNode) (key : κ) :
    occupied nodes.toList = (nodes[key]?.map CachedNode.memory).getD 0 +
      occupied (nodes.toList.filter fun entry => ¬key == entry.1) := by
  cases live : nodes[key]? with
  | none =>
    have all : ∀ entry ∈ nodes.toList, decide (¬key == entry.1) = true := by
      intro entry mem
      refine decide_eq_true fun same => ?_
      have found := Std.TreeMap.mem_toList_iff_getElem?_eq_some.mp mem
      rw [← eq_of_beq same, live] at found
      cases found
    rw [List.filter_eq_self.mpr all]
    exact (Nat.zero_add _).symm
  | some node =>
    have again : (nodes.insert key node).toList = nodes.toList := by
      refine toList_congr fun other => ?_
      rw [getElem?_insert]
      split
      · next same => rw [← same, live]
      · rfl
    have split := occupied_perm (Std.TreeMap.toList_insert_perm (t := nodes) (k := key) (v := node))
    rw [again, occupied_cons] at split
    exact split

/-- A new node takes the place of the one under its key. -/
theorem occupied_insert (nodes : Std.TreeMap κ CachedNode) (key : κ) (node : CachedNode) :
    occupied (nodes.insert key node).toList + (nodes[key]?.map CachedNode.memory).getD 0 =
      occupied nodes.toList + node.memory := by
  have inserted := occupied_perm (Std.TreeMap.toList_insert_perm (t := nodes) (k := key) (v := node))
  rw [occupied_cons] at inserted
  have split := occupied_split nodes key
  omega

theorem occupied_erase {key : κ} {node : CachedNode} (live : nodes[key]? = some node) :
    occupied (nodes.erase key).toList + node.memory = occupied nodes.toList := by
  have back : ((nodes.erase key).insert key node).toList = nodes.toList := by
    refine toList_congr fun other => ?_
    rw [getElem?_insert, getElem?_erase]
    split
    · next same => rw [← same, live]
    · rfl
  have inserted := occupied_insert (nodes.erase key) key node
  rw [back, getElem?_erase, if_pos rfl] at inserted
  exact inserted.symm

theorem occupied_markPersisted (nodes : Std.TreeMap κ CachedNode) (key : κ) :
    occupied (markPersisted nodes key).toList = occupied nodes.toList := by
  unfold markPersisted
  split
  · next node live =>
    have marked := occupied_insert nodes key { node with persisted := true }
    rw [live] at marked
    have size : CachedNode.memory { node with persisted := true } = node.memory := rfl
    rw [size] at marked
    exact Nat.add_right_cancel marked
  · rfl

theorem occupied_foldl_markPersisted (keys : List κ) (nodes : Std.TreeMap κ CachedNode) :
    occupied (keys.foldl markPersisted nodes).toList = occupied nodes.toList := by
  induction keys generalizing nodes with
  | nil => rfl
  | cons key keys ih => rw [List.foldl_cons, ih, occupied_markPersisted]

end Counting

/-- The account is what the nodes in memory occupy, each of them under its own row key. -/
structure Exact (s : NodeStore κ) : Prop where
  rowKey : ∀ (key : κ) (node : CachedNode), s.nodes[key]? = some node →
    node.rowKey = NodeKey.toBytes key
  memory : s.memory = occupied s.nodes.toList

theorem Exact.congr (h : s.Exact) (nodes : t.nodes = s.nodes) (memory : t.memory = s.memory) :
    t.Exact := by
  refine ⟨fun key node live => ?_, ?_⟩
  · rw [nodes] at live
    exact h.rowKey key node live
  · rw [nodes, memory, h.memory]

theorem exact_new [Std.TransOrd κ] (backend : Backend) (persistence : Persistence)
    (pruning : Pruning) (eviction : EvictionOrder κ) :
    Exact ({ backend, persistence, pruning, eviction } : NodeStore κ) := by
  refine ⟨fun key node live => ?_, rfl⟩
  have empty : (∅ : Std.TreeMap κ CachedNode)[key]? = none := by simp
  cases empty.symm.trans live

section Steps

variable [Std.TransOrd κ] [Std.LawfulEqOrd κ] [DecidableEq κ]

/-- A node that is replaced was in the account. -/
theorem Exact.replaced_le (h : s.Exact) (key : κ) :
    (s.nodes[key]?.map CachedNode.memory).getD 0 ≤ s.memory := by
  have split := occupied_split s.nodes key
  rw [h.memory]
  omega

theorem Exact.memory_le (h : s.Exact) {key : κ} {node : CachedNode}
    (live : s.nodes[key]? = some node) : node.memory ≤ s.memory := by
  have le := h.replaced_le key
  rw [live] at le
  exact le

theorem Exact.store (h : s.Exact) (block : UInt64) (key : κ) (payload : Bytes) :
    (s.store block key payload).Exact := by
  constructor
  case rowKey =>
    intro other node live
    rw [getElem?_nodes_store] at live
    split at live
    · next same =>
      obtain rfl := Option.some.inj live
      rw [same]
    · exact h.rowKey other node live
  case memory =>
    have inserted := occupied_insert s.nodes key ⟨NodeKey.toBytes key, payload, block, false⟩
    have account := h.memory
    change s.memory + CachedNode.memory _ - _ = occupied (s.nodes.insert key _).toList
    omega

/-- A flush writes and marks nodes, and keeps them. -/
theorem Exact.flush (h : s.Exact) {block : UInt64} (done : s.flush block = .ok t) : t.Exact := by
  constructor
  case rowKey =>
    intro key node live
    rw [getElem?_nodes_flush done] at live
    obtain ⟨old, held, rfl⟩ := Option.map_eq_some_iff.mp live
    rw [← h.rowKey key old held]
    split <;> rfl
  case memory =>
    obtain ⟨backend, -, rfl⟩ := flush_eq done
    exact h.memory.trans (occupied_foldl_markPersisted _ _).symm

theorem Exact.dropNode (h : s.Exact) (key : κ) : (s.dropNode key).Exact := by
  cases live : s.nodes[key]? with
  | none =>
    have same : s.dropNode key = s := by simp only [NodeStore.dropNode, live]
    rwa [same]
  | some node =>
    rw [dropNode_of_live live]
    constructor
    case rowKey =>
      intro other kept stays
      dsimp only at stays
      rw [getElem?_erase] at stays
      split at stays
      · cases stays
      · exact h.rowKey other kept stays
    case memory =>
      have erased := occupied_erase live
      have account := h.memory
      change s.memory - node.memory = occupied (s.nodes.erase key).toList
      omega

theorem Exact.evict (h : s.Exact) (limit : Nat) (keys : List κ) : (evict limit keys s).Exact := by
  induction keys generalizing s with
  | nil => exact h
  | cons key keys ih =>
    rw [evict_cons]
    split
    · exact h
    · exact ih (h.dropNode key)

theorem Exact.prune (h : s.Exact) : s.prune.Exact := by
  cases known : s.pruning.limit? with
  | none => rwa [prune_of_no_limit known]
  | some limit =>
    rw [prune_eq_evict known]
    exact h.evict limit s.evictionOrder

theorem Exact.run (h : s.Exact) (c : Call κ) : (c.run s).Exact := by
  have step := stepped s c
  generalize c.announced? s = announced at step
  generalize c.run s = t at step ⊢
  cases step with
  | refused => exact h
  | stored => exact h.store _ _ _
  | noted | loaded | enabled | taken | faulted => exact h.congr rfl rfl
  | @flushed kind block root t due done =>
    have noted : (s.addRoot root block).Exact := h.congr rfl rfl
    exact (noted.flush done).prune.congr rfl rfl

theorem exact_after (h : s.Exact) (calls : List (Call κ)) : (s.after calls).Exact := by
  induction calls generalizing s with
  | nil => exact h
  | cons c calls ih => exact ih (h.run c)

end Steps

section Audit

/-! An audited store breaks down where its account would run over, fall below zero or be misread. -/

/-- The sum of two amounts, which must lie below a capacity. -/
def add? (capacity a b : Nat) : Option Nat := if a + b < capacity then some (a + b) else none

/-- The difference of two amounts, which must not be negative. -/
def sub? (a b : Nat) : Option Nat := if b ≤ a then some (a - b) else none

/-- The account, which must be what the nodes in memory occupy. -/
def account? (s : NodeStore κ) : Option Nat :=
  if s.memory = occupied s.nodes.toList then some s.memory else none

/-- Takes a node into memory: its memory is added, and what it replaces is taken off. -/
def store? (capacity : Nat) (s : NodeStore κ) (block : UInt64) (key : κ) (payload : Bytes) :
    Option (NodeStore κ) := do
  let node : CachedNode := { rowKey := NodeKey.toBytes key, payload, block, persisted := false }
  let grown ← add? capacity s.memory node.memory
  let memory ← match s.nodes[key]? with
    | some previous => sub? grown previous.memory
    | none => some grown
  return { s.store block key payload with memory }

/-- Drops nodes in the given order while the account is above a limit. -/
def evict? (limit : Nat) : List κ → NodeStore κ → Option (NodeStore κ)
  | [], s => some s
  | key :: keys, s => do
    let memory ← s.account?
    if memory ≤ limit then return s
    match s.nodes[key]? with
    | some node =>
      let rest ← sub? memory node.memory
      evict? limit keys { s with nodes := s.nodes.erase key, memory := rest }
    | none => evict? limit keys s

def prune? (s : NodeStore κ) : Option (NodeStore κ) :=
  match s.pruning.limit? with
  | some limit => do
    let memory ← s.account?
    if s.pruning.exceeded memory then evict? limit s.evictionOrder s else return s
  | none => some s

/-- An audited call. Only an accepted commit and a flush that is done touch the account. -/
def Call.run? (capacity : Nat) : Call κ → NodeStore κ → Option (NodeStore κ)
  | commit block key payload, s =>
    match s.commit block key payload with
    | .ok _ => s.store? capacity block key payload
    | .error _ => some s
  | finish kind block root, s =>
    let s := s.addRoot root block
    if s.flushesOn kind block then
      match s.flush block with
      | .error _ => some s
      | .ok flushed => do
        let pruned ← flushed.prune?
        return { pruned with boundaries := pruned.boundaries.send block }
    else some s
  | load key flags, s => some ((load key flags).run s)
  | enableWitness, s => some (enableWitness.run s)
  | takeWitness, s => some (takeWitness.run s)
  | setFaults readFault writeFault, s => some ((setFaults readFault writeFault).run s)

/-- The store after some audited calls. -/
def after? (capacity : Nat) (s : NodeStore κ) (calls : List (Call κ)) : Option (NodeStore κ) :=
  calls.foldlM (fun s c => c.run? capacity s) s

/-- What a payload occupies under a key: its row and an allowance. -/
def footprint (key : κ) (payload : Bytes) : Nat :=
  (NodeKey.toBytes key).length + payload.length + 24

/-- What the payload of a commit occupies, if it is accepted. -/
def Call.size : Call κ → Nat
  | commit _ key payload => footprint key payload
  | _ => 0

/-- Beside what is in memory there is room for the node of a commit, if it is accepted. -/
def Call.Fits (capacity : Nat) (s : NodeStore κ) : Call κ → Prop
  | commit block key payload => (s.commit block key payload).isOk = true →
    occupied s.nodes.toList + footprint key payload < capacity
  | _ => True

/-- There is room for every node that is accepted on a run. -/
def Fits (capacity : Nat) : NodeStore κ → List (Call κ) → Prop
  | _, [] => True
  | s, c :: calls => c.Fits capacity s ∧ Fits capacity (c.run s) calls

theorem memory_evict_le (limit : Nat) (keys : List κ) (s : NodeStore κ) :
    (NodeStore.evict limit keys s).memory ≤ s.memory := by
  induction keys generalizing s with
  | nil => exact Nat.le_refl _
  | cons key keys ih =>
    rw [NodeStore.evict]
    split
    · exact Nat.le_refl _
    · split
      · exact (ih _).trans (Nat.sub_le _ _)
      · exact ih s

/-- A call adds to the account at most what it commits. -/
theorem memory_run_le (s : NodeStore κ) (c : Call κ) :
    (c.run s).memory ≤ s.memory + c.size := by
  have step := stepped s c
  generalize c.announced? s = announced at step
  generalize c.run s = t at step ⊢
  cases step with
  | refused | noted | loaded | enabled | taken | faulted => exact Nat.le_add_right _ _
  | stored => exact Nat.sub_le _ _
  | @flushed kind block root t due done =>
    have kept : t.memory = s.memory := by
      obtain ⟨backend, -, rfl⟩ := flush_eq done
      rfl
    change t.prune.memory ≤ s.memory
    rw [← kept]
    cases known : t.pruning.limit? with
    | none => rw [prune_of_no_limit known]
    | some limit =>
      rw [prune_eq_evict known]
      exact memory_evict_le limit _ t

theorem Exact.memory_eq (h : s.Exact) [Std.TransOrd κ] [Std.LawfulEqOrd κ] :
    s.memory = (s.nodes.toList.map fun entry => footprint entry.1 entry.2.payload).sum := by
  rw [h.memory, occupied]
  refine congrArg List.sum (List.map_congr_left fun entry mem => ?_)
  have live := Std.TreeMap.mem_toList_iff_getElem?_eq_some.mp mem
  rw [footprint, ← h.rowKey entry.1 entry.2 live]
  rfl

theorem Exact.account?_eq (h : s.Exact) : s.account? = some s.memory := if_pos h.memory

variable [Std.TransOrd κ] [Std.LawfulEqOrd κ] [DecidableEq κ] {capacity : Nat}

theorem Exact.store?_eq (h : s.Exact) (block : UInt64) {key : κ} {payload : Bytes}
    (fits : occupied s.nodes.toList + footprint key payload < capacity) :
    s.store? capacity block key payload = some (s.store block key payload) := by
  have added : add? capacity s.memory
      (CachedNode.memory ⟨NodeKey.toBytes key, payload, block, false⟩) =
        some (s.memory + footprint key payload) := by
    rw [← h.memory] at fits
    exact if_pos fits
  have replaced := h.replaced_le key
  simp only [store?, NodeStore.store, added, Option.bind_eq_bind, Option.bind_some]
  cases live : s.nodes[key]? with
  | none => rfl
  | some previous =>
    rw [live] at replaced
    have covered : previous.memory ≤ s.memory + footprint key payload :=
      Nat.le_add_right_of_le replaced
    simp only [sub?, if_pos covered, Option.bind_some]
    rfl

/-- The account is right whenever it is compared with the limit, and covers what leaves. -/
theorem Exact.evict?_eq (h : s.Exact) (limit : Nat) (keys : List κ) :
    evict? limit keys s = some (NodeStore.evict limit keys s) := by
  induction keys generalizing s with
  | nil => rfl
  | cons key keys ih =>
    rw [evict?, NodeStore.evict, h.account?_eq]
    simp only [Option.bind_eq_bind, Option.bind_some]
    split
    · rfl
    · cases live : s.nodes[key]? with
      | none => exact ih h
      | some node =>
        have dropped := h.dropNode key
        rw [dropNode_of_live live] at dropped
        simp only [sub?, if_pos (h.memory_le live), Option.bind_some]
        exact ih dropped

theorem Exact.prune?_eq (h : s.Exact) : s.prune? = some s.prune := by
  unfold prune? NodeStore.prune
  cases s.pruning.limit? with
  | none => rfl
  | some limit =>
    simp only [h.account?_eq, Option.bind_eq_bind, Option.bind_some]
    split
    · exact h.evict?_eq limit s.evictionOrder
    · rfl

/-- Where the account is exact and there is room, an audited call does what a call does. -/
theorem Exact.run?_eq (h : s.Exact) {c : Call κ} (fits : c.Fits capacity s) :
    c.run? capacity s = some (c.run s) := by
  cases c with
  | commit block key payload =>
    rw [Call.run?, Call.run]
    cases answer : s.commit block key payload with
    | error fault => rfl
    | ok t =>
      have accepted : (s.commit block key payload).isOk = true := by rw [answer]; rfl
      rw [store_of_commit answer]
      exact h.store?_eq block (fits accepted)
  | finish kind block root =>
    have noted : (s.addRoot root block).Exact := h.congr rfl rfl
    rw [Call.run?, Call.run, finish]
    dsimp only
    split
    · cases done : (s.addRoot root block).flush block with
      | error fault => rfl
      | ok flushed =>
        simp only [(noted.flush done).prune?_eq, Option.bind_eq_bind, Option.bind_some]
        rfl
    · rfl
  | load | enableWitness | takeWitness | setFaults => rfl

theorem Exact.after?_eq (h : s.Exact) {calls : List (Call κ)} (fits : s.Fits capacity calls) :
    s.after? capacity calls = some (s.after calls) := by
  induction calls generalizing s with
  | nil => rfl
  | cons c calls ih =>
    obtain ⟨first, rest⟩ := fits
    rw [after?, List.foldlM_cons, h.run?_eq first]
    exact ih (h.run c) rest

/-- There is room on a run if there is room for all that it commits together. -/
theorem Exact.fits_of_total (h : s.Exact) {calls : List (Call κ)}
    (total : s.memory + (calls.map Call.size).sum < capacity) : s.Fits capacity calls := by
  induction calls generalizing s with
  | nil => trivial
  | cons c calls ih =>
    rw [List.map_cons, List.sum_cons] at total
    constructor
    · cases c with
      | commit block key payload =>
        intro accepted
        change s.memory + (footprint key payload + _) < capacity at total
        rw [← h.memory]
        omega
      | finish | load | enableWitness | takeWitness | setFaults => trivial
    · have grown := memory_run_le s c
      exact ih (h.run c) (by omega)

/--
After any run of a new store the account is the number of bytes in the row keys and payloads of all
nodes in memory and an allowance of 24 for each. As long as these numbers fit into their words, no
sum on the way ran over, no difference fell below zero, and pruning went by the true number.
-/
theorem memory_exact (backend : Backend) (persistence : Persistence) (pruning : Pruning)
    (eviction : EvictionOrder κ) (calls : List (Call κ)) :
    let start : NodeStore κ := { backend, persistence, pruning, eviction }
    let s := start.after calls
    s.memory = (s.nodes.toList.map fun entry => footprint entry.1 entry.2.payload).sum ∧
      ∀ capacity, start.Fits capacity calls → start.after? capacity calls = some s := by
  intro start s
  have first := exact_new backend persistence pruning eviction
  exact ⟨(exact_after first calls).memory_eq, fun capacity fits => first.after?_eq fits⟩

end Audit

namespace Journal

/-- An empty store that flushes every other block and may keep two small nodes of a flush. -/
def tight : NodeStore Position :=
  { backend := {}, persistence := .interval 2, pruning := .memoryLimit 60 }

/--
Two nodes are committed again and again, with payloads of other lengths: for the same block and for
a later one, after a flush has dropped the node and after one has written it. Two commits are
refused, and a flush fails.
-/
def recommits : List (Call Position) :=
  [.commit 1 (child 1) [0x11, 0x12], .commit 1 (child 1) [0x13], .commit 2 (child 1) [],
    .commit 2 (child 1) [0x14, 0x15, 0x16], .commit 3 (child 2) [0x21, 0x22, 0x23, 0x24],
    .setFaults none (some (.described "full")), .finish .state 2 .zero, .setFaults none none,
    .finish .state 2 .zero, .commit 2 (child 2) [0x25], .commit 3 (child 2) [0x26],
    .commit 4 (child 1) [0x17], .finish .state 4 .zero, .commit 5 (child 1) [0x18, 0x19]]

theorem memory_exact_recommits :
    tight.Fits UInt64.size recommits ∧
      tight.after? UInt64.size recommits = some (tight.after recommits) ∧
      (tight.after (recommits.take 8)).memory = 61 ∧ (tight.after (recommits.take 9)).memory = 31 ∧
      (tight.after recommits).memory = 57 := by
  have fits : tight.Fits UInt64.size recommits :=
    (exact_new {} (.interval 2) (.memoryLimit 60) (.stable Position)).fits_of_total
      (by decide +kernel)
  have exact := memory_exact {} (.interval 2) (.memoryLimit 60) (.stable Position)
  refine ⟨fits, (exact recommits).2 UInt64.size fits, ?_, ?_, ?_⟩
  · exact (exact (recommits.take 8)).1.trans (by decide +kernel)
  · exact (exact (recommits.take 9)).1.trans (by decide +kernel)
  · exact (exact recommits).1.trans (by decide +kernel)

end Journal

end StateSync.Store.NodeStore
