import StateSync.Proofs.NodeStore.Queues

/-!
What survives the process. At a boundary the rows hold every key that was last committed up to it,
and a key that the store calls persisted is read from its row just as from the running store.
-/

namespace StateSync.Store.NodeStore.Journal

open Trie

variable {κ : Type} [NodeKey κ] [DecidableEq κ] {keys : Set κ} {backend : Backend} {j : Journal κ}

/-- The keys that were last committed up to a block are in their rows, as last committed. -/
def DurableUpTo (j : Journal κ) (keys : Set κ) (block : UInt64) : Prop :=
  ∀ key ∈ keys, ∀ c, lastCommit? j.commits key = some c → c.block ≤ block →
    j.row key = some c.payload

/--
The running store loads a payload under a key, and the same payload is loaded from any disk that
has its rows: without a cache as well as by a new store.
-/
def Recoverable (j : Journal κ) (key : κ) : Prop :=
  ∃ payload, ∀ flags, (j.store.load key flags).1 = .ok (some payload) ∧
    ∀ disk : Backend, disk.trieNodes = j.store.backend.trieNodes → disk.readFault = none →
      (Resolver.load (⟨disk, Table.trieNodes.name⟩ : Uncached TableStore κ) key flags).1 =
        .ok (some payload) ∧
      ∀ persistence pruning eviction,
        (({ backend := disk, persistence, pruning, eviction } : NodeStore κ).load key flags).1 =
          .ok (some payload)

theorem lookup_of_isPersisted (hj : Sound keys backend j) {key : κ}
    (h : j.store.isPersisted key = .ok true) :
    ∃ payload, j.store.lookup key = .ok (some payload) ∧ j.row key = some payload := by
  unfold isPersisted at h
  unfold lookup
  split at h
  · next node live =>
    have flag := Except.ok.inj h
    exact ⟨node.payload, rfl, (hj.cached key node live).row flag⟩
  · split at h
    · next stored got =>
      obtain ⟨payload, rfl⟩ := Option.isSome_iff_exists.mp (Except.ok.inj h)
      exact ⟨payload, got, Backend.rows_of_get got⟩
    · cases h

theorem recoverable_of_isPersisted [Std.TransOrd κ] (hj : Sound keys backend j) {key : κ}
    (h : j.store.isPersisted key = .ok true) : j.Recoverable key := by
  obtain ⟨payload, found, stored⟩ := lookup_of_isPersisted hj h
  refine ⟨payload, fun flags => ⟨load_eq_ok_iff.mpr found, fun disk same readable => ?_⟩⟩
  have onDisk : (disk.rows .trieNodes)[NodeKey.toBytes key]? = some payload :=
    (congrArg (·[NodeKey.toBytes key]?) same).trans stored
  refine ⟨?_, fun persistence pruning eviction => load_eq_ok_iff.mpr ?_⟩
  · exact (Backend.get_tableStore readable .trieNodes _).trans (congrArg Except.ok onDisk)
  · simp [lookup, Backend.get, readable, onDisk]

/-- A call that announces a boundary has flushed the commits that were due, and no others. -/
theorem row_announced [Std.TransOrd κ] [Std.LawfulEqOrd κ]
    (distinct : Set.InjOn NodeKey.toBytes keys) (hj : Sound keys backend j) {c : Call κ}
    {block : UInt64} (announced : c.announced? j.store = some block) :
    j.store.settled block = false ∧ (j.call c).commits = j.commits ∧
      ∀ key ∈ keys, (j.call c).row key =
        if key ∈ j.store.queued (· ≤ block) then j.contents backend key else j.row key := by
  have step := called j c
  rw [announced] at step
  generalize j.call c = after at step ⊢
  cases step with
  | @flushed _ _ root s t above done same =>
    refine ⟨above, rfl, fun key mem => ?_⟩
    have start := hj.congr (s := j.store.addRoot root block) ⟨rfl, rfl, rfl, rfl⟩
    have rows : s.backend.trieNodes = t.backend.trieNodes := by rw [same.rows, backend_prune]
    exact (congrArg (·[NodeKey.toBytes key]?) rows).trans (row_flush distinct start done mem)

/-- A commit up to a block of which nothing waits is in its row. -/
theorem Scheduled.row_of_not_queued (scheduled : j.Scheduled) (hj : Sound keys backend j)
    {block : UInt64} {key : κ} (mem : key ∈ keys) {c : Commit κ}
    (last : lastCommit? j.commits key = some c) (le : c.block ≤ block)
    (idle : key ∉ j.store.queued (· ≤ block)) : j.row key = j.contents backend key := by
  refine hj.row_eq_contents mem fun node live => ?_
  by_contra unflagged
  have waits := scheduled.unpersisted key node live (Bool.eq_false_of_not_eq_true unflagged)
  have same := Option.some.inj ((scheduled.last key node live).symm.trans last)
  refine idle (mem_queued.mpr ⟨node.block, decide_eq_true ?_, waits⟩)
  exact (congrArg Commit.block same).trans_le le

variable [Std.TransOrd κ] [Std.LawfulEqOrd κ]

theorem durableUpTo_announced (distinct : Set.InjOn NodeKey.toBytes keys)
    (scheduled : j.Scheduled) (hj : Sound keys backend j) {c : Call κ} {block : UInt64}
    (announced : c.announced? j.store = some block) : (j.call c).DurableUpTo keys block := by
  obtain ⟨-, commits, rows⟩ := row_announced distinct hj announced
  intro key mem c last le
  rw [commits] at last
  have contents : j.contents backend key = some c.payload := by
    rw [contents, lastPayload_eq, last]
    rfl
  rw [rows key mem]
  split
  · exact contents
  · next idle => exact (scheduled.row_of_not_queued hj mem last le idle).trans contents

/--
A boundary is announced only when every key that was last committed up to it has its last payload
on disk, and whenever a key counts as persisted its payload survives the process.
-/
theorem durable_reachable (distinct : Set.InjOn NodeKey.toBytes keys)
    (h : Reachable keys backend j) :
    (∀ kind block root boundary, (j.store.finish kind block root).1 = .ok (some boundary) →
      (j.call (.finish kind block root)).DurableUpTo keys boundary) ∧
    ∀ key, j.store.isPersisted key = .ok true → j.Recoverable key := by
  have sound := sound_reachable distinct h
  have scheduled := scheduled_reachable h
  constructor
  · intro kind block root boundary announced
    exact durableUpTo_announced distinct scheduled sound
      (congrArg (fun answer => answer.toOption.join) announced)
  · intro key persisted
    exact recoverable_of_isPersisted sound persisted

/-- A commit that a failed flush leaves in memory, the same one made again, and one for later. -/
def retried : Journal Position :=
  let j : Journal Position :=
    { store := { backend := twoRows, persistence := .archive, pruning := .memoryLimit 0 } }
  let j := (j.call (.commit 1 (child 1) [11])).call (.setFaults none (some (.described "full")))
  let j := (j.call (.finish .state 1 .zero)).call (.setFaults none none)
  (j.call (.commit 1 (child 1) [12])).call (.commit 2 (child 3) [33])

theorem durable_reachable_retried :
    (retried.store.finish .state 1 .zero).1 = .ok (some 1) ∧
    (retried.call (.finish .state 1 .zero)).row (child 1) = some [12] ∧
    (retried.call (.finish .state 1 .zero)).Recoverable (child 1) := by
  have h : Reachable children twoRows retried := by
    refine .call (.call (.call (.call (.call (.call .start ?_) ?_) ?_) ?_) ?_) ?_
    all_goals simp [Call.Over, children]
  have announced : (retried.store.finish .state 1 .zero).1 = .ok (some 1) := by decide +kernel
  have durable := (durable_reachable injOn_children h).1 .state 1 .zero 1 announced
  have last : lastCommit? retried.commits (child 1) = some ⟨1, child 1, [12]⟩ := rfl
  have finished : Reachable children twoRows (retried.call (.finish .state 1 .zero)) :=
    .call h trivial
  refine ⟨announced, ?_, ?_⟩
  · exact durable (child 1) (by simp [children]) _ last (by decide)
  · exact (durable_reachable injOn_children finished).2 (child 1) (by decide +kernel)

end StateSync.Store.NodeStore.Journal
