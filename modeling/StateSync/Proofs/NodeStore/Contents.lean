import StateSync.Proofs.NodeStore.Calls
import StateSync.Proofs.Position

/-!
What a node store holds. Under keys with distinct rows it is a map: a read finds the payload of
the last accepted commit, however often nodes were flushed and dropped from memory since.
-/

namespace StateSync.Store.NodeStore

open Trie

variable {κ : Type}

/-- An accepted commit. -/
structure Commit (κ : Type) where
  block : UInt64
  key : κ
  payload : Bytes

/-- The payload of the last of some commits under a key, the newest commit first. -/
def lastPayload [DecidableEq κ] (commits : List (Commit κ)) (key : κ) : Option Bytes :=
  commits.findSome? fun c => if c.key = key then some c.payload else none

theorem lastPayload_cons [DecidableEq κ] (c : Commit κ) (commits : List (Commit κ)) (key : κ) :
    lastPayload (c :: commits) key =
      if c.key = key then some c.payload else lastPayload commits key := by
  rw [lastPayload, List.findSome?_cons]
  by_cases same : c.key = key
  · simp [same]
  · simp [same, lastPayload]

variable [NodeKey κ]

/-- All commits are under keys of a set. -/
def Call.Over (keys : Set κ) : Call κ → Prop
  | commit _ key _ => key ∈ keys
  | _ => True

/-- The commit that a call makes, if it is one and is accepted. -/
def Call.accepted (c : Call κ) (s : NodeStore κ) : List (Commit κ) :=
  match c with
  | commit block key payload =>
    match s.commit block key payload with
    | .ok _ => [⟨block, key, payload⟩]
    | .error _ => []
  | _ => []

/-- A node store and the commits that it accepted, newest first. -/
structure Journal (κ : Type) [NodeKey κ] where
  store : NodeStore κ
  commits : List (Commit κ) := []

namespace Journal

/-- The journal after a call. -/
def call (j : Journal κ) (c : Call κ) : Journal κ where
  store := c.run j.store
  commits := c.accepted j.store ++ j.commits

/-- What a new store over a backend comes to by calls, with commits under keys of a set. -/
inductive Reachable (keys : Set κ) (backend : Backend) : Journal κ → Prop
  | start {persistence : Persistence} {pruning : Pruning} {eviction : EvictionOrder κ} :
      Reachable keys backend { store := { backend, persistence, pruning, eviction } }
  | call {j : Journal κ} {c : Call κ} :
      Reachable keys backend j → c.Over keys → Reachable keys backend (j.call c)

/-- What a call comes to: the boundary that it announces and the journal after it. -/
inductive Called (j : Journal κ) : Call κ → Option UInt64 → Journal κ → Prop
  | quiet {c : Call κ} {s : NodeStore κ} (same : Agrees j.store s) :
      Called j c none { j with store := s }
  | stored {block : UInt64} {key : κ} {payload : Bytes} (above : j.store.settled block = false) :
      Called j (.commit block key payload) none
        { store := j.store.store block key payload
          commits := ⟨block, key, payload⟩ :: j.commits }
  | flushed {kind : TrieKind} {block : UInt64} {root : Hash} {s t : NodeStore κ}
      (above : j.store.settled block = false)
      (done : (j.store.addRoot root block).flush block = .ok t) (same : Agrees t.prune s) :
      Called j (.finish kind block root) (some block) { j with store := s }

theorem called (j : Journal κ) (c : Call κ) : Called j c (c.announced? j.store) (j.call c) := by
  have step := stepped j.store c
  unfold call
  generalize c.announced? j.store = announced at step ⊢
  generalize c.run j.store = s at step ⊢
  cases step with
  | @refused block key payload _ refusal =>
    have none : Call.accepted (.commit block key payload) j.store = [] := by
      simp only [Call.accepted, refusal]
    rw [none]
    exact .quiet ⟨rfl, rfl, rfl, rfl⟩
  | @stored block key payload above accepted =>
    have one : Call.accepted (.commit block key payload) j.store = [⟨block, key, payload⟩] := by
      simp only [Call.accepted, accepted]
    rw [one]
    exact .stored above
  | noted | loaded | enabled | taken | faulted => exact .quiet ⟨rfl, rfl, rfl, rfl⟩
  | flushed due done => exact .flushed (settled_of_flushesOn due) done ⟨rfl, rfl, rfl, rfl⟩

variable [DecidableEq κ] {keys : Set κ} {backend : Backend} {j : Journal κ}

/-- The payload last committed under a key, or else its first row. -/
def contents (j : Journal κ) (backend : Backend) (key : κ) : Option Bytes :=
  (lastPayload j.commits key).or backend.trieNodes[NodeKey.toBytes key]?

/-- The row of a key in the backend. -/
def row (j : Journal κ) (key : κ) : Option Bytes :=
  j.store.backend.trieNodes[NodeKey.toBytes key]?

/-- A node in memory is the last commit under its key, and in its row if it is persisted. -/
structure Holds (keys : Set κ) (j : Journal κ) (key : κ) (node : CachedNode) : Prop where
  key_mem : key ∈ keys
  rowKey : node.rowKey = NodeKey.toBytes key
  payload : lastPayload j.commits key = some node.payload
  row : node.persisted = true →
    j.store.backend.trieNodes[NodeKey.toBytes key]? = some node.payload

/-- Nodes in memory are the last commits, and the rows of all other keys are what they hold. -/
structure Sound (keys : Set κ) (backend : Backend) (j : Journal κ) : Prop where
  cached : ∀ key node, j.store.nodes[key]? = some node → j.Holds keys key node
  uncached : ∀ key ∈ keys, j.store.nodes[key]? = none →
    j.store.backend.trieNodes[NodeKey.toBytes key]? = j.contents backend key

theorem sound_start (keys : Set κ) (backend : Backend) (persistence : Persistence)
    (pruning : Pruning) (eviction : EvictionOrder κ) [Std.TransOrd κ] :
    Sound keys backend { store := { backend, persistence, pruning, eviction } } := by
  refine ⟨fun key node h => ?_, fun _ _ _ => rfl⟩
  have none : (∅ : Std.TreeMap κ CachedNode)[key]? = none := by simp
  cases none.symm.trans h

theorem Sound.congr {s : NodeStore κ} (hj : Sound keys backend j) (same : Agrees j.store s) :
    Sound keys backend { j with store := s } := by
  refine ⟨fun key node h => ?_, fun key mem h => ?_⟩
  · have held := hj.cached key node (same.nodes ▸ h)
    exact ⟨held.key_mem, held.rowKey, held.payload, fun flag => by rw [same.rows, held.row flag]⟩
  · dsimp only at h ⊢
    rw [same.rows, hj.uncached key mem (same.nodes ▸ h)]
    rfl

/-- Only a node that is not persisted is ahead of its row. -/
theorem Sound.row_eq_contents (hj : Sound keys backend j) {key : κ} (mem : key ∈ keys)
    (flushed : ∀ node : CachedNode, j.store.nodes[key]? = some node → node.persisted = true) :
    j.row key = j.contents backend key := by
  cases live : j.store.nodes[key]? with
  | none => exact hj.uncached key mem live
  | some node =>
    have held := hj.cached key node live
    rw [row, held.row (flushed node live), contents, held.payload]
    rfl

variable [Std.TransOrd κ] [Std.LawfulEqOrd κ]

theorem sound_store {block : UInt64} {key : κ} {payload : Bytes} (hj : Sound keys backend j)
    (mem : key ∈ keys) : Sound keys backend
      { store := j.store.store block key payload
        commits := ⟨block, key, payload⟩ :: j.commits } := by
  have get := getElem?_nodes_store j.store block key
  refine ⟨fun other node h => ?_, fun other hother h => ?_⟩
  · dsimp only at h
    rw [get] at h
    by_cases same : key = other
    · subst same
      rw [if_pos rfl] at h
      obtain rfl := Option.some.inj h
      refine ⟨mem, rfl, ?_, fun flag => by cases flag⟩
      exact (lastPayload_cons _ _ _).trans (if_pos rfl)
    · rw [if_neg same] at h
      have held := hj.cached other node h
      refine ⟨held.key_mem, held.rowKey, ?_, held.row⟩
      exact ((lastPayload_cons _ _ _).trans (if_neg same)).trans held.payload
  · dsimp only at h
    rw [get] at h
    by_cases same : key = other
    · rw [if_pos same] at h
      cases h
    · rw [if_neg same] at h
      have last := (lastPayload_cons ⟨block, key, payload⟩ j.commits other).trans (if_neg same)
      exact (hj.uncached other hother h).trans
        (congrArg (Option.or · backend.trieNodes[NodeKey.toBytes other]?) last.symm)

omit [Std.TransOrd κ] [Std.LawfulEqOrd κ] in
/-- The row of a key in a batch is that of its own node. -/
theorem lastValue_batch (distinct : Set.InjOn NodeKey.toBytes keys) (hj : Sound keys backend j)
    {block : UInt64} {key : κ} (mem : key ∈ keys) {payload : Bytes}
    (h : lastValue (j.store.batch block) (NodeKey.toBytes key) = some payload) :
    key ∈ j.store.queued (· ≤ block) ∧
      ∃ node, j.store.nodes[key]? = some node ∧ node.payload = payload := by
  obtain ⟨other, due, node, live, -, row⟩ := mem_batch.mp (lastValue_eq_some h)
  have held := hj.cached other node live
  have same : NodeKey.toBytes other = NodeKey.toBytes key :=
    held.rowKey.symm.trans (congrArg Prod.fst row)
  obtain rfl := distinct held.key_mem mem same
  exact ⟨due, node, live, congrArg Prod.snd row⟩

omit [Std.TransOrd κ] [Std.LawfulEqOrd κ] in
/-- A queued node without a row in the batch is persisted. -/
theorem persisted_of_lastValue_batch (hj : Sound keys backend j) {block : UInt64} {key : κ}
    {node : CachedNode} (due : key ∈ j.store.queued (· ≤ block))
    (live : j.store.nodes[key]? = some node)
    (h : lastValue (j.store.batch block) (NodeKey.toBytes key) = none) :
    node.persisted = true := by
  by_contra unflagged
  refine lastValue_eq_none.mp h node.payload (mem_batch.mpr ⟨key, due, node, live, ?_, ?_⟩)
  · exact Bool.eq_false_of_not_eq_true unflagged
  · rw [CachedNode.row, (hj.cached key node live).rowKey]

omit [Std.TransOrd κ] [Std.LawfulEqOrd κ] in
/-- A flush puts the last commit of each key that is due into its row, and no other. -/
theorem row_flush (distinct : Set.InjOn NodeKey.toBytes keys) (hj : Sound keys backend j)
    {block : UInt64} {s : NodeStore κ} (done : j.store.flush block = .ok s) {key : κ}
    (mem : key ∈ keys) :
    row { j with store := s } key =
      if key ∈ j.store.queued (· ≤ block) then j.contents backend key else j.row key := by
  refine (getElem?_rows_flush done _).trans ?_
  cases last : lastValue (j.store.batch block) (NodeKey.toBytes key) with
  | some payload =>
    obtain ⟨due, node, live, rfl⟩ := lastValue_batch distinct hj mem last
    simp [due, contents, (hj.cached key node live).payload]
  | none =>
    split
    · next due =>
      exact hj.row_eq_contents mem fun node live => persisted_of_lastValue_batch hj due live last
    · rfl

/-- A flush that succeeds puts every node that it marks into its row. -/
theorem sound_flush (distinct : Set.InjOn NodeKey.toBytes keys) (hj : Sound keys backend j)
    {block : UInt64} {s : NodeStore κ} (done : j.store.flush block = .ok s) :
    Sound keys backend { j with store := s } := by
  have row := fun {key} (mem : key ∈ keys) => row_flush distinct hj done mem
  have get := getElem?_nodes_flush done
  refine ⟨fun key node h => ?_, fun key mem h => ?_⟩
  · obtain ⟨old, live, hnode⟩ := Option.map_eq_some_iff.mp ((get key).symm.trans h)
    have held := hj.cached key old live
    have same : node.rowKey = old.rowKey ∧ node.payload = old.payload := by
      split at hnode <;> subst hnode <;> exact ⟨rfl, rfl⟩
    refine ⟨held.key_mem, same.1.trans held.rowKey, same.2 ▸ held.payload, fun flag => ?_⟩
    rw [same.2]
    refine (row held.key_mem).trans ?_
    split
    · simp [contents, held.payload]
    · next undue =>
      -- what is marked was due, so the node was persisted before
      rw [if_neg fun marked => undue (queued_of_settled marked)] at hnode
      exact held.row (hnode ▸ flag)
  · have absent := Option.map_eq_none_iff.mp ((get key).symm.trans h)
    refine (row mem).trans ?_
    split
    · rfl
    · exact hj.uncached key mem absent

/-- A node that pruning drops is in its row. -/
theorem sound_prune (hj : Sound keys backend j) :
    Sound keys backend { j with store := j.store.prune } := by
  obtain ⟨nodes, memory, heq, kept⟩ := prune_eq j.store
  rw [heq]
  refine ⟨fun key node h => ?_, fun key mem h => ?_⟩
  · rcases kept key with same | ⟨gone, _⟩
    · have held := hj.cached key node (same.symm.trans h)
      exact ⟨held.key_mem, held.rowKey, held.payload, held.row⟩
    · cases gone.symm.trans h
  · rcases kept key with same | ⟨_, node, live, flag⟩
    · exact hj.uncached key mem (same.symm.trans h)
    · refine hj.row_eq_contents mem fun other hother => ?_
      rwa [← Option.some.inj (live.symm.trans hother)]

theorem sound_call (distinct : Set.InjOn NodeKey.toBytes keys) (hj : Sound keys backend j)
    {c : Call κ} (inKeys : c.Over keys) : Sound keys backend (j.call c) := by
  have step := called j c
  generalize c.announced? j.store = announced at step
  generalize j.call c = after at step ⊢
  cases step with
  | quiet same => exact hj.congr same
  | stored above => exact sound_store hj inKeys
  | @flushed _ block root _ _ above done same =>
    have start := hj.congr (s := j.store.addRoot root block) ⟨rfl, rfl, rfl, rfl⟩
    exact (sound_prune (sound_flush distinct start done)).congr same

theorem sound_reachable (distinct : Set.InjOn NodeKey.toBytes keys)
    (h : Reachable keys backend j) : Sound keys backend j := by
  induction h with
  | start => exact sound_start keys backend _ _ _
  | call _ inKeys ih => exact sound_call distinct ih inKeys

/--
A read finds the last accepted commit under a key, or else its first row, as long as the backend
can be read. No flush and no pruning in between makes a difference.
-/
theorem load_eq_contents (distinct : Set.InjOn NodeKey.toBytes keys)
    (h : Reachable keys backend j) {key : κ} (mem : key ∈ keys) (flags : ReadFlags) :
    (j.store.load key flags).1 = .ok (j.contents backend key) ∨
      ∃ fault, j.store.backend.readFault = some fault ∧ j.store.nodes[key]? = none ∧
        (j.store.load key flags).1 = .error (.database (.storage fault)) := by
  have hj := sound_reachable distinct h
  cases live : j.store.nodes[key]? with
  | some node =>
    left
    have found : j.store.lookup key = .ok (some node.payload) := by simp [lookup, live]
    rw [load, found, contents, (hj.cached key node live).payload]
    rfl
  | none =>
    have row := hj.uncached key mem live
    cases fault : j.store.backend.readFault with
    | some fault' =>
      right
      have found : j.store.lookup key = .error fault' := by simp [lookup, live, Backend.get, fault]
      exact ⟨fault', rfl, rfl, by rw [load, found]⟩
    | none =>
      left
      have found : j.store.lookup key = .ok (j.contents backend key) := by
        simp [lookup, live, Backend.get, fault, Backend.rows, row]
      rw [load, found]

/-- The position of a child of the root of the state trie. -/
def child (step : UInt8) : Position := { account := none, path := ⟨[step]⟩ }

def children : Set Position := { p | p ∈ [child 1, child 2, child 3, child 4] }

theorem injOn_children : Set.InjOn NodeKey.toBytes children := by
  refine (Position.injOn_toBytes false).mono fun p mem => ?_
  have nibble : ∀ step ∈ [1, 2, 3, 4], (child step).path.WellFormed ∧
      (child step).path.isLeaf = false := by
    unfold Nibbles.WellFormed
    decide +kernel
  simp only [children, List.mem_cons, List.not_mem_nil, or_false, Set.mem_ofPred_eq] at mem
  rcases mem with rfl | rfl | rfl | rfl <;> exact nibble _ (by decide)

/-- A row for each of two positions. -/
def twoRows : Backend :=
  { trieNodes := (∅ : Rows).insertMany
      [(NodeKey.toBytes (child 1), [1]), (NodeKey.toBytes (child 2), [2])] }

/-- A commit that is flushed and dropped, and one that a failed flush leaves in memory. -/
def droppedThenKept : Journal Position :=
  let j : Journal Position :=
    { store := { backend := twoRows, persistence := .archive, pruning := .memoryLimit 0 } }
  let j := (j.call (.commit 1 (child 1) [11])).call (.finish .state 1 .zero)
  let j := (j.call (.commit 2 (child 3) [33])).call (.setFaults none (some (.described "full")))
  j.call (.finish .state 2 .zero)

theorem load_eq_contents_droppedThenKept :
    droppedThenKept.store.nodes[child 1]? = none ∧
    ∀ row ∈ [(child 1, some [11]), (child 2, some [2]), (child 3, some [33]), (child 4, none)],
      (droppedThenKept.store.load row.1 .none).1 = .ok row.2 := by
  have h : Reachable children twoRows droppedThenKept := by
    refine .call (.call (.call (.call (.call .start ?_) ?_) ?_) ?_) ?_
    all_goals simp [Call.Over, children]
  refine ⟨by decide +kernel, fun row mem => ?_⟩
  have position : row.1 ∈ children := by
    simp only [List.mem_cons, List.not_mem_nil, or_false] at mem
    rcases mem with rfl | rfl | rfl | rfl <;> simp [children]
  rcases load_eq_contents injOn_children h position .none with found | ⟨fault, unread, _⟩
  · rw [found]
    clear found position
    revert row
    decide +kernel
  · have readable : droppedThenKept.store.backend.readFault = none := by decide +kernel
    rw [readable] at unread
    cases unread

end Journal

end StateSync.Store.NodeStore
