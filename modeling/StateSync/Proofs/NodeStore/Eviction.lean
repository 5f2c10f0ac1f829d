import StateSync.Proofs.NodeStore.Boundaries
import StateSync.Proofs.NodeStore.Settlement
import StateSync.Proofs.NodeStore.Views

/-!
What leaves memory when a store is pruned after a flush. Flushed nodes leave it, those of the oldest
blocks first, as long as the memory is above the limit; in which order the nodes of one block are
taken is open. A store whose pruning is disabled keeps every key that it ever had in memory.
-/

namespace StateSync.Store.NodeStore

open Trie

variable {κ : Type}

/-- The memory that some entries are taken to occupy. -/
def occupied (entries : List (κ × CachedNode)) : Nat :=
  (entries.map fun entry => entry.2.memory).sum

theorem occupied_perm {entries others : List (κ × CachedNode)} (h : entries.Perm others) :
    occupied entries = occupied others := by
  unfold occupied
  exact (h.map _).sum_eq

theorem occupied_cons (key : κ) (node : CachedNode) (entries : List (κ × CachedNode)) :
    occupied ((key, node) :: entries) = node.memory + occupied entries := by
  rw [occupied, List.map_cons, List.sum_cons, occupied]

variable [NodeKey κ] {s t : NodeStore κ}

/-- The persisted nodes of a store, oldest block first. Those of one block are in any order. -/
structure OldestFirst (s : NodeStore κ) (order : List (κ × CachedNode)) : Prop where
  all : order.Perm s.evictable
  sorted : order.Pairwise fun a b => a.2.block ≤ b.2.block

/-- Some entries leave the memory of a store because it is above a limit, and no others do. -/
structure Evicted (limit : Nat) (s : NodeStore κ) (gone : List (κ × CachedNode))
    (t : NodeStore κ) : Prop where
  persisted : ∀ entry ∈ gone, s.nodes[entry.1]? = some entry.2 ∧ entry.2.persisted = true
  oldest : ∀ entry ∈ gone, ∀ (key : κ) (node : CachedNode), t.nodes[key]? = some node →
    node.persisted = true → entry.2.block ≤ node.block
  idle : s.memory ≤ limit → gone = [] ∧ t = s
  /-- Before each of them left, the memory was still above the limit. -/
  needed : ∀ n < gone.length, limit < s.memory - occupied (gone.take n)
  fits : t.memory ≤ limit ∨
    ∀ (key : κ) (node : CachedNode), t.nodes[key]? = some node → node.persisted = false
  memory : t.memory = s.memory - occupied gone
  left : ∀ key ∈ gone.map Prod.fst, t.nodes[key]? = none
  kept : ∀ key ∉ gone.map Prod.fst, t.nodes[key]? = s.nodes[key]?
  untouched : t = { s with nodes := t.nodes, memory := t.memory }

theorem pruning_flush {block : UInt64} (done : s.flush block = .ok t) : t.pruning = s.pruning := by
  obtain ⟨backend, -, rfl⟩ := flush_eq done
  rfl

theorem dropNode_of_live {key : κ} {node : CachedNode} (live : s.nodes[key]? = some node) :
    s.dropNode key = { s with nodes := s.nodes.erase key, memory := s.memory - node.memory } := by
  simp only [dropNode, live]

/-- The order in which a store takes its nodes is one of those that are open to it. -/
theorem exists_oldestFirst (s : NodeStore κ) :
    ∃ order, s.OldestFirst order ∧ s.evictionOrder = order.map Prod.fst :=
  ⟨_, ⟨s.eviction.perm _, s.eviction.sorted _⟩, rfl⟩

section Order

variable [Std.TransOrd κ] [Std.LawfulEqOrd κ] {order : List (κ × CachedNode)}

theorem mem_evictable {entry : κ × CachedNode} : entry ∈ s.evictable ↔
    s.nodes[entry.1]? = some entry.2 ∧ entry.2.persisted = true := by
  rw [evictable, List.mem_filter]
  exact and_congr_left fun _ => Std.TreeMap.mem_toList_iff_getElem?_eq_some

theorem nodup_keys_evictable (s : NodeStore κ) : (s.evictable.map Prod.fst).Nodup := by
  have distinct : (s.nodes.toList.map Prod.fst).Nodup := by
    refine List.pairwise_map.mpr (Std.TreeMap.distinct_keys_toList.imp ?_)
    intro a b differ same
    exact differ (Std.LawfulEqOrd.compare_eq_iff_eq.mpr same)
  exact distinct.sublist (List.filter_sublist.map Prod.fst)

theorem OldestFirst.nodup (h : s.OldestFirst order) : (order.map Prod.fst).Nodup :=
  (h.all.map Prod.fst).nodup_iff.mpr (nodup_keys_evictable s)

theorem OldestFirst.live (h : s.OldestFirst order) {entry : κ × CachedNode}
    (mem : entry ∈ order) : s.nodes[entry.1]? = some entry.2 ∧ entry.2.persisted = true :=
  mem_evictable.mp (h.all.mem_iff.mp mem)

end Order

variable [Std.TransOrd κ] [Std.LawfulEqOrd κ] [DecidableEq κ]

/-- Each entry that is dropped gives back its own memory. -/
theorem memory_foldl_dropNode {entries : List (κ × CachedNode)}
    (distinct : (entries.map Prod.fst).Nodup)
    (live : ∀ entry ∈ entries, s.nodes[entry.1]? = some entry.2) :
    ((entries.map Prod.fst).foldl dropNode s).memory = s.memory - occupied entries := by
  induction entries generalizing s with
  | nil => rfl
  | cons entry entries ih =>
    obtain ⟨fresh, distinct⟩ := List.nodup_cons.mp distinct
    have first := live entry List.mem_cons_self
    have others : ∀ other ∈ entries, (s.dropNode entry.1).nodes[other.1]? = some other.2 := by
      intro other mem
      have ne : entry.1 ≠ other.1 := by
        rintro same
        exact fresh (same ▸ List.mem_map_of_mem mem)
      rw [getElem?_dropNode, if_neg ne]
      exact live other (List.mem_cons_of_mem _ mem)
    have dropped : (s.dropNode entry.1).memory = s.memory - entry.2.memory := by
      rw [dropNode_of_live first]
    have rest := ih distinct others
    rw [List.map_cons, List.foldl_cons, rest, dropped, occupied_cons, Nat.sub_sub]

/-- A persisted node that is still there after some of the order has left is in the rest of it. -/
theorem OldestFirst.mem_rest {gone rest : List (κ × CachedNode)}
    (h : s.OldestFirst (gone ++ rest)) {key : κ} {node : CachedNode}
    (stays : ((gone.map Prod.fst).foldl dropNode s).nodes[key]? = some node)
    (persisted : node.persisted = true) : (key, node) ∈ rest := by
  rw [getElem?_foldl_dropNode] at stays
  split at stays
  · cases stays
  · next notGone =>
    have listed : (key, node) ∈ s.evictable := mem_evictable.mpr ⟨stays, persisted⟩
    rcases List.mem_append.mp (h.all.mem_iff.mpr listed) with mem | mem
    · exact absurd (List.mem_map_of_mem mem) notGone
    · exact mem

theorem OldestFirst.evicted {gone rest : List (κ × CachedNode)} {limit : Nat}
    (h : s.OldestFirst (gone ++ rest))
    (above : ∀ n < gone.length, limit < (((gone.take n).map Prod.fst).foldl dropNode s).memory)
    (stop : ((gone.map Prod.fst).foldl dropNode s).memory ≤ limit ∨ rest = []) :
    Evicted limit s gone ((gone.map Prod.fst).foldl dropNode s) := by
  have live : ∀ entry ∈ gone, s.nodes[entry.1]? = some entry.2 ∧ entry.2.persisted = true :=
    fun entry mem => h.live (List.mem_append_left rest mem)
  have memory : ∀ n, (((gone.take n).map Prod.fst).foldl dropNode s).memory =
      s.memory - occupied (gone.take n) := by
    intro n
    apply memory_foldl_dropNode
    · have sub := (List.take_sublist n gone).trans (List.sublist_append_left gone rest)
      exact h.nodup.sublist (sub.map Prod.fst)
    · exact fun entry mem => (live entry (List.mem_of_mem_take mem)).1
  constructor
  case persisted => exact live
  case oldest =>
    intro entry mem key node stays persisted
    have later := h.mem_rest stays persisted
    exact (List.pairwise_append.mp h.sorted).2.2 entry mem (key, node) later
  case idle =>
    intro fits
    cases gone with
    | nil => exact ⟨rfl, rfl⟩
    | cons entry gone =>
      have exceeded : limit < s.memory := above 0 (Nat.succ_pos _)
      omega
  case needed =>
    intro n bound
    rw [← memory]
    exact above n bound
  case fits =>
    rcases stop with fits | nothing
    · exact .inl fits
    · refine .inr fun key node stays => ?_
      by_contra persisted
      have later := h.mem_rest stays (Bool.eq_true_of_not_eq_false persisted)
      rw [nothing] at later
      cases later
  case memory => simpa only [List.take_length] using memory gone.length
  case left => exact fun key mem => (getElem?_foldl_dropNode _ s key).trans (if_pos mem)
  case kept => exact fun key mem => (getElem?_foldl_dropNode _ s key).trans (if_neg mem)
  case untouched =>
    obtain ⟨nodes, memory, heq⟩ := foldl_dropNode_frame (gone.map Prod.fst) s
    rw [heq]

/-- In whichever order the nodes of one block are taken, those that should leave do so. -/
theorem evicted_of_oldestFirst {order : List (κ × CachedNode)} (h : s.OldestFirst order)
    (limit : Nat) : ∃ gone, gone <+: order ∧
      Evicted limit s gone (evict limit (order.map Prod.fst) s) := by
  obtain ⟨goneKeys, restKeys, parts, dropped, above, stop⟩ :=
    evict_eq limit (order.map Prod.fst) s
  obtain ⟨gone, rest, rfl, rfl, rfl⟩ := List.map_eq_append_iff.mp parts
  rw [dropped] at stop ⊢
  refine ⟨gone, List.prefix_append gone rest, h.evicted ?_ (stop.imp_right List.map_eq_nil_iff.mp)⟩
  intro n bound
  have exceeded := above n (by rwa [List.length_map])
  rwa [← List.map_take] at exceeded

/-- A store comes to another without dropping a key, and with the same pruning. -/
structure KeepsKeys (s t : NodeStore κ) : Prop where
  pruning : t.pruning = s.pruning
  keys : ∀ key : κ, s.nodes[key]?.isSome → t.nodes[key]?.isSome

theorem keepsKeys_run (disabled : s.pruning = .disabled) (c : Call κ) : s.KeepsKeys (c.run s) := by
  have step := stepped s c
  generalize c.announced? s = announced at step
  generalize c.run s = t at step ⊢
  cases step with
  | refused | noted | loaded | enabled | taken | faulted => exact ⟨rfl, fun _ => id⟩
  | stored =>
    refine ⟨rfl, fun key live => ?_⟩
    rw [getElem?_nodes_store]
    split
    · rfl
    · exact live
  | @flushed kind block root t due done =>
    have same : t.pruning = s.pruning := pruning_flush (s := s.addRoot root block) done
    have unlimited : t.pruning.limit? = none := by rw [same, disabled]; rfl
    rw [prune_of_no_limit unlimited]
    refine ⟨same, fun key live => ?_⟩
    have marked := getElem?_nodes_flush done key
    change t.nodes[key]?.isSome
    rw [marked, Option.isSome_map]
    exact live

theorem keepsKeys_after (disabled : s.pruning = .disabled) (calls : List (Call κ)) :
    s.KeepsKeys (s.after calls) := by
  induction calls generalizing s with
  | nil => exact ⟨rfl, fun _ => id⟩
  | cons c calls ih =>
    have first := keepsKeys_run disabled c
    have rest := ih (first.pruning.trans disabled)
    exact ⟨rest.pruning.trans first.pruning, fun key live => rest.keys key (first.keys key live)⟩

/--
A flush under a memory limit evicts what it should and nothing else, in whichever order the nodes of
one block are taken: flushed nodes, none of them newer than a flushed node that stays, and each of
them only while the memory is above the limit. Without a limit no key ever leaves memory.
-/
theorem evicts_oldest_first (s : NodeStore κ) :
    (∀ limit, s.pruning = .memoryLimit limit → ∀ kind block root boundary,
      (s.finish kind block root).1 = .ok (some boundary) →
        ∃ flushed, (s.addRoot root block).flush block = .ok flushed ∧
          (∀ order, flushed.OldestFirst order → ∃ gone, gone <+: order ∧
            Evicted limit flushed gone (evict limit (order.map Prod.fst) flushed)) ∧
          ∃ order, flushed.OldestFirst order ∧ (s.finish kind block root).2 =
            { evict limit (order.map Prod.fst) flushed with
              boundaries := s.boundaries.send block }) ∧
    (s.pruning = .disabled → ∀ accesses : List (Access κ),
      ∀ key : κ, s.nodes[key]?.isSome → (s.afterAccesses accesses).nodes[key]?.isSome) := by
  constructor
  case left =>
    intro limit limited kind block root boundary announced
    obtain ⟨-, flushed, done, after⟩ := flushed_of_finish announced
    refine ⟨flushed, done, fun order h => evicted_of_oldestFirst h limit, ?_⟩
    obtain ⟨order, oldest, taken⟩ := exists_oldestFirst flushed
    have known : flushed.pruning.limit? = some limit := by
      rw [pruning_flush done]
      exact congrArg Pruning.limit? limited
    have sent : flushed.prune.boundaries = s.boundaries := (flush_prune_frame done).2.2
    rw [after, sent, prune_eq_evict known, taken]
    exact ⟨order, oldest, rfl⟩
  case right =>
    intro disabled accesses key live
    rw [afterAccesses_eq]
    exact (keepsKeys_after disabled _).keys key live

namespace Journal

/-- Three nodes of two blocks that are due, two of them of the same block, and a later one. -/
def threeDue (pruning : Pruning) : NodeStore Position :=
  let start : NodeStore Position := { backend := {}, persistence := .interval 2, pruning }
  start.after [.commit 1 (child 2) [0x22], .commit 1 (child 1) [0x11], .commit 2 (child 3) [0x33],
    .commit 3 (child 4) [0x44]]

/-- The entry of a node that a flush has written. -/
def written (step : UInt8) (block : UInt64) (payload : Bytes) : Position × CachedNode :=
  (child step, ⟨NodeKey.toBytes (child step), payload, block, true⟩)

/-- What is due with the two nodes of block 1 the other way round than memory has them. -/
def otherWayRound : List (Position × CachedNode) :=
  [written 2 1 [0x22], written 1 1 [0x11], written 3 2 [0x33]]

/-- One node has to leave, and it may be either of those of block 1. -/
theorem evicts_oldest_first_otherWayRound :
    let s := threeDue (.memoryLimit 90)
    (s.finish .state 2 .zero).1 = .ok (some 2) ∧
      (∃ flushed, (s.addRoot .zero 2).flush 2 = .ok flushed ∧
        flushed.OldestFirst otherWayRound ∧ Evicted 90 flushed [written 2 1 [0x22]]
          (evict 90 (otherWayRound.map Prod.fst) flushed)) ∧
      ∀ step ∈ [1, 2, 3, 4],
        ((threeDue .disabled).afterAccesses [.direct (.call (.finish .state 2 .zero))]).nodes[
          child step]?.isSome := by
  intro s
  have announced : (s.finish .state 2 .zero).1 = .ok (some 2) := by decide +kernel
  obtain ⟨flushed, done, every, -⟩ :=
    (evicts_oldest_first s).1 90 rfl .state 2 .zero 2 announced
  have values : ((s.addRoot .zero 2).flush 2).toOption.all (fun flushed =>
      decide (otherWayRound.Perm flushed.evictable ∧ flushed.memory = 112 ∧
        (evict 90 (otherWayRound.map Prod.fst) flushed).memory = 84)) = true := by decide +kernel
  rw [done] at values
  obtain ⟨all, before, after⟩ := of_decide_eq_true values
  have oldest : flushed.OldestFirst otherWayRound := ⟨all, by decide +kernel⟩
  obtain ⟨gone, first, evicted⟩ := every otherWayRound oldest
  have one : gone = [written 2 1 [0x22]] := by
    have account : 84 = 112 - occupied gone := by rw [← before, ← after, evicted.memory]
    have most : gone.length ≤ 3 := first.length_le
    rw [List.prefix_iff_eq_take.mp first] at account ⊢
    interval_cases gone.length
    · exact absurd account (by decide +kernel)
    · rfl
    · exact absurd account (by decide +kernel)
    · exact absurd account (by decide +kernel)
  refine ⟨announced, ⟨flushed, done, oldest, one ▸ evicted⟩, ?_⟩
  intro step mem
  refine (evicts_oldest_first (threeDue .disabled)).2 rfl _ (child step) ?_
  revert step
  decide +kernel

end Journal

end StateSync.Store.NodeStore
