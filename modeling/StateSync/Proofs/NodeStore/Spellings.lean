import StateSync.Proofs.Nibbles
import StateSync.Proofs.NodeStore.Contents

/-!
Keys that share a row. The rows know a position by its bytes and the memory knows it by its key, but
every position has a second spelling with the same bytes. A commit is seen under its own spelling
only, so the spellings load the same throughout a run exactly if the run changes no load at all.
-/

namespace StateSync.Trie

/-- The high half of a byte drops out when the low half moves up. -/
theorem add_sixteen_shiftLeft (b : UInt8) : (b + 16) <<< 4 = b <<< 4 := by
  obtain ⟨b⟩ := b
  revert b
  decide +kernel

namespace Nibbles

theorem join_add_sixteen (step : UInt8) (steps : List UInt8) :
    join ((step + 16) :: steps) = join (step :: steps) := by
  cases steps <;> simp [join, add_sixteen_shiftLeft]

end Nibbles

namespace Position

theorem toBytes_congr {p q : Position} (account : q.account = p.account)
    (bytes : Nibbles.join q.path.steps = Nibbles.join p.path.steps)
    (length : q.path.steps.length = p.path.steps.length) : q.toBytes = p.toBytes := by
  rw [toBytes, toBytes, account, length, Nibbles.toBytes, Nibbles.toBytes, bytes]

/--
Every position has another spelling. The terminator makes no difference to its bytes, and neither
does the high half of its first step.
-/
theorem exists_respelled (p : Position) : ∃ q, q ≠ p ∧ q.toBytes = p.toBytes := by
  cases leaf : p.path.isLeaf with
  | false =>
    have steps : p.path.steps = p.path.toList := by simp [Nibbles.steps, leaf]
    refine ⟨{ p with path := p.path.push Nibbles.terminator }, fun same => ?_, ?_⟩
    · have length := congrArg (·.path.toList.length) same
      simp [Nibbles.push] at length
    · have same : (p.path.push Nibbles.terminator).steps = p.path.steps := by
        rw [Nibbles.push, Nibbles.steps_mk_append_terminator, steps]
      exact toBytes_congr rfl (congrArg _ same) (congrArg _ same)
  | true =>
    have spelled := Nibbles.toList_eq_of_isLeaf leaf
    cases steps : p.path.steps with
    | nil =>
      refine ⟨{ p with path := ⟨[]⟩ }, fun same => ?_, ?_⟩
      · have length := congrArg (·.path.toList.length) same
        simp [spelled] at length
      · have same : Nibbles.steps ⟨[]⟩ = p.path.steps := steps.symm
        exact toBytes_congr rfl (congrArg _ same) (congrArg _ same)
    | cons first rest =>
      refine ⟨{ p with path := ⟨((first + 16) :: rest) ++ [Nibbles.terminator]⟩ },
        fun same => ?_, ?_⟩
      · have head := congrArg (·.path.toList.head?) same
        rw [steps] at spelled
        simp [spelled] at head
      · refine toBytes_congr rfl ?_ ?_
        · rw [Nibbles.steps_mk_append_terminator, steps, Nibbles.join_add_sixteen]
        · rw [Nibbles.steps_mk_append_terminator, steps, List.length_cons, List.length_cons]

end Position

end StateSync.Trie

namespace StateSync.Store.NodeStore

open Trie

variable {κ : Type} [NodeKey κ] {s t : NodeStore κ} {c : Call κ}

/-- A call that leaves the backend open for reading, if it is. -/
def Call.KeepsReadable : Call κ → Prop
  | setFaults readFault _ => readFault = none
  | _ => True

/-- The payload that a load of a key finds while the backend can be read. -/
def visible (s : NodeStore κ) (key : κ) : Option Bytes :=
  (s.nodes[key]?.map CachedNode.payload).or s.backend.trieNodes[NodeKey.toBytes key]?

/-- Keys with the same row load the same. -/
def LoadsAlike (s : NodeStore κ) : Prop :=
  ∀ key other : κ, NodeKey.toBytes key = NodeKey.toBytes other →
    ∀ flags, (s.load key flags).1 = (s.load other flags).1

theorem load_eq_visible (readable : s.backend.readFault = none) (key : κ) (flags : ReadFlags) :
    (s.load key flags).1 = .ok (s.visible key) := by
  refine load_eq_ok_iff.mpr ?_
  unfold lookup visible
  cases s.nodes[key]? with
  | some node => rfl
  | none => simp [Backend.get, readable, Backend.rows]

/-- Keys with the same row hold the same payload. -/
def Alike (s : NodeStore κ) : Prop :=
  ∀ key other : κ, NodeKey.toBytes key = NodeKey.toBytes other → s.visible key = s.visible other

theorem loadsAlike_iff (readable : s.backend.readFault = none) : s.LoadsAlike ↔ s.Alike := by
  unfold LoadsAlike
  simp only [load_eq_visible readable, Except.ok.injEq]
  exact forall₃_congr fun _ _ _ => ⟨fun h => h .none, fun h _ => h⟩

theorem Agrees.visible (h : Agrees s t) (key : κ) : t.visible key = s.visible key := by
  rw [NodeStore.visible, NodeStore.visible, h.nodes, h.rows]

/-- Nodes in memory know their rows, and those that are persisted are in them. -/
structure Anchored (s : NodeStore κ) : Prop where
  rowKey : ∀ (key : κ) (node : CachedNode), s.nodes[key]? = some node →
    node.rowKey = NodeKey.toBytes key
  row : ∀ (key : κ) (node : CachedNode), s.nodes[key]? = some node → node.persisted = true →
    s.backend.trieNodes[NodeKey.toBytes key]? = some node.payload

theorem Agrees.anchored (h : Agrees s t) (hs : s.Anchored) : t.Anchored := by
  refine ⟨fun key node live => ?_, fun key node live flag => ?_⟩
  · exact hs.rowKey key node (h.nodes ▸ live)
  · rw [h.rows]
    exact hs.row key node (h.nodes ▸ live) flag

/-- While keys of one row agree, a batch writes what they hold. -/
theorem visible_of_lastValue (hs : s.Anchored) (alike : s.Alike) {block : UInt64} {key : κ}
    {payload : Bytes} (h : lastValue (s.batch block) (NodeKey.toBytes key) = some payload) :
    s.visible key = some payload := by
  obtain ⟨other, _, node, live, _, row⟩ := mem_batch.mp (lastValue_eq_some h)
  have same : NodeKey.toBytes key = NodeKey.toBytes other :=
    (congrArg Prod.fst row).symm.trans (hs.rowKey other node live)
  have held : node.payload = payload := congrArg Prod.snd row
  rw [alike key other same, visible, live]
  simp [held]

variable [Std.TransOrd κ] [Std.LawfulEqOrd κ] [DecidableEq κ]

section Flush

variable {block : UInt64} (hs : s.Anchored) (alike : s.Alike) (done : s.flush block = .ok t)
include hs alike done

theorem visible_flush (key : κ) : t.visible key = s.visible key := by
  have payload : t.nodes[key]?.map CachedNode.payload = s.nodes[key]?.map CachedNode.payload := by
    rw [getElem?_nodes_flush done, Option.map_map]
    congr 1
    funext node
    dsimp only [Function.comp]
    split <;> rfl
  rw [visible, payload, getElem?_rows_flush done]
  cases last : lastValue (s.batch block) (NodeKey.toBytes key) with
  | none => rfl
  | some payload =>
    have held := visible_of_lastValue hs alike last
    rw [held]
    rw [visible] at held
    cases live : s.nodes[key]? with
    | none => rfl
    | some node => simpa [live] using held

theorem anchored_flush : t.Anchored := by
  refine ⟨fun key node live => ?_, fun key node live flag => ?_⟩
  all_goals
    rw [getElem?_nodes_flush done] at live
    obtain ⟨old, before, rfl⟩ := Option.map_eq_some_iff.mp live
  · have rowKey := hs.rowKey key old before
    split <;> exact rowKey
  · have payload : (if key ∈ s.queued (· < Word.saturatingAdd block 1) then
        { old with persisted := true } else old).payload = old.payload := by
      split <;> rfl
    rw [payload, getElem?_rows_flush done]
    cases last : lastValue (s.batch block) (NodeKey.toBytes key) with
    | some written =>
      have held := visible_of_lastValue hs alike last
      rw [visible, before] at held
      exact held.symm
    | none =>
      -- a node that was not persisted before is marked because it was written
      refine hs.row key old before ?_
      by_contra fresh
      split at flag
      · next marked =>
        have due := queued_of_settled marked
        refine lastValue_eq_none.mp last old.payload (mem_batch.mpr ⟨key, due, old, before, ?_, ?_⟩)
        · exact Bool.eq_false_of_not_eq_true fresh
        · rw [CachedNode.row, hs.rowKey key old before]
      · exact fresh flag

end Flush

theorem visible_prune (hs : s.Anchored) (key : κ) : s.prune.visible key = s.visible key := by
  obtain ⟨nodes, memory, heq, kept⟩ := prune_eq s
  rw [heq, visible, visible]
  rcases kept key with same | ⟨gone, node, live, flag⟩
  · rw [same]
  · simp [gone, live, hs.row key node live flag]

theorem anchored_prune (hs : s.Anchored) : s.prune.Anchored := by
  refine ⟨fun key node live => hs.rowKey key node (getElem?_of_prune live),
    fun key node live flag => ?_⟩
  rw [backend_prune]
  exact hs.row key node (getElem?_of_prune live) flag

section Store

variable {block : UInt64} {key : κ} {payload : Bytes}

theorem visible_store (other : κ) : (s.store block key payload).visible other =
    if key = other then some payload else s.visible other := by
  rw [visible, getElem?_nodes_store]
  split <;> rfl

theorem anchored_store (hs : s.Anchored) : (s.store block key payload).Anchored := by
  refine ⟨fun other node live => ?_, fun other node live flag => ?_⟩
  all_goals
    rw [getElem?_nodes_store] at live
    split at live
  · next same =>
    subst same
    cases live
    rfl
  · exact hs.rowKey other node live
  · cases live
    cases flag
  · exact hs.row other node live flag

end Store

/-- A call after which keys of one row still agree changed nothing that any of them holds. -/
theorem visible_run (twins : ∀ key : κ, ∃ other, other ≠ key ∧
      NodeKey.toBytes other = NodeKey.toBytes key)
    (hs : s.Anchored) (before : s.Alike) (after : (c.run s).Alike) :
    (c.run s).Anchored ∧ ∀ key, (c.run s).visible key = s.visible key := by
  have step := Journal.called { store := s } c
  have run : (Journal.call { store := s } c).store = c.run s := rfl
  rw [← run] at after ⊢
  generalize c.announced? s = announced at step
  generalize Journal.call { store := s } c = j at step after ⊢
  cases step with
  | quiet same => exact ⟨same.anchored hs, same.visible⟩
  | @stored block key payload _ =>
    refine ⟨anchored_store hs, fun other => ?_⟩
    rw [visible_store]
    split
    · next same =>
      subst same
      obtain ⟨twin, ne, row⟩ := twins key
      have agree := after twin key row
      rw [visible_store, visible_store, if_neg ne.symm, if_pos rfl] at agree
      exact (agree.symm.trans (before twin key row))
    · rfl
  | @flushed _ block root u v _ done same =>
    have start : Agrees s (s.addRoot root block) := ⟨rfl, rfl, rfl, rfl⟩
    have alike : (s.addRoot root block).Alike := before
    have flushed := anchored_flush (start.anchored hs) alike done
    refine ⟨same.anchored (anchored_prune flushed), fun key => ?_⟩
    rw [same.visible, visible_prune flushed, visible_flush (start.anchored hs) alike done,
      start.visible]

omit [Std.TransOrd κ] [Std.LawfulEqOrd κ] [DecidableEq κ] in
theorem readFault_run (h : c.KeepsReadable) (readable : s.backend.readFault = none) :
    (c.run s).backend.readFault = none := by
  have step := stepped s c
  generalize c.announced? s = announced at step
  generalize c.run s = t at step ⊢
  cases step with
  | refused | stored | noted | loaded | enabled | taken => exact readable
  | @flushed _ _ _ u _ done =>
    change u.prune.backend.readFault = none
    obtain ⟨backend, put, rfl⟩ := flush_eq done
    rw [backend_prune]
    exact (Backend.readFault_putAll put).trans readable
  | faulted => exact h

omit [Std.TransOrd κ] [Std.LawfulEqOrd κ] [DecidableEq κ] in
theorem readFault_after {calls : List (Call κ)} (h : ∀ c ∈ calls, c.KeepsReadable)
    (readable : s.backend.readFault = none) : (s.after calls).backend.readFault = none := by
  induction calls generalizing s with
  | nil => exact readable
  | cons c calls ih =>
    rw [List.forall_mem_cons] at h
    exact ih h.2 (readFault_run h.1 readable)

/-- In a run through which keys of one row agree, nothing that they hold changes. -/
theorem visible_after (twins : ∀ key : κ, ∃ other, other ≠ key ∧
      NodeKey.toBytes other = NodeKey.toBytes key)
    {calls : List (Call κ)} (hs : s.Anchored) (alike : ∀ pre, pre <+: calls → (s.after pre).Alike)
    {pre : List (Call κ)} (h : pre <+: calls) (key : κ) :
    (s.after pre).visible key = s.visible key := by
  induction calls generalizing s pre with
  | nil =>
    obtain rfl := List.prefix_nil.mp h
    rfl
  | cons c calls ih =>
    rcases List.prefix_cons_iff.mp h with rfl | ⟨rest, rfl, hrest⟩
    · rfl
    · have now := alike [] List.nil_prefix
      have next := alike [c] (List.cons_prefix_cons.mpr ⟨rfl, List.nil_prefix⟩)
      obtain ⟨anchored, same⟩ := visible_run twins hs now next
      have rest := ih anchored (fun _ h => alike _ (List.cons_prefix_cons.mpr ⟨rfl, h⟩)) hrest
      exact rest.trans (same key)

/--
Positions of one row load the same throughout a run exactly if the run changes no load: a commit
that changes the load of a position leaves that of its other spelling as it was.
-/
theorem loadsAlike_iff_unchanged {backend : Backend} (readable : backend.readFault = none)
    (persistence : Persistence) (pruning : Pruning) (eviction : EvictionOrder Position)
    {calls : List (Call Position)} (served : ∀ c ∈ calls, c.KeepsReadable) :
    let start : NodeStore Position := { backend, persistence, pruning, eviction }
    (∀ pre, pre <+: calls → (start.after pre).LoadsAlike) ↔
      ∀ pre, pre <+: calls → ∀ p flags,
        ((start.after pre).load p flags).1 = (start.load p flags).1 := by
  intro start
  have known : ∀ pre, pre <+: calls → (start.after pre).backend.readFault = none :=
    fun pre h => readFault_after (fun c mem => served c (h.subset mem)) readable
  have empty : ∀ p : Position, start.nodes[p]? = none := fun p => by simp [start]
  have rows : ∀ p : Position, start.visible p = backend.trieNodes[NodeKey.toBytes p]? := by
    intro p
    simp [visible, start]
  constructor
  · intro alike pre h p flags
    have anchored : start.Anchored :=
      ⟨fun p node live => (by cases (empty p).symm.trans live),
        fun p node live => (by cases (empty p).symm.trans live)⟩
    have held := visible_after Position.exists_respelled anchored
      (fun pre h => (loadsAlike_iff (known pre h)).mp (alike pre h)) h p
    rw [load_eq_visible (known pre h), load_eq_visible readable, held]
  · intro unchanged pre h p q row flags
    rw [unchanged pre h, unchanged pre h, load_eq_visible readable, load_eq_visible readable, rows,
      rows, row]

/-- A commit that is flushed and dropped from memory. -/
def flushedAway : List (Call Position) :=
  [.commit 1 (Journal.child 1) [0x11], .finish .state 1 .zero]

/-- The other spelling finds the payload only once it is flushed. -/
theorem loadsAlike_iff_unchanged_flushedAway :
    let start : NodeStore Position :=
      { backend := {}, persistence := .archive, pruning := .memoryLimit 0 }
    let leaf : Position := { account := none, path := ⟨[1, Nibbles.terminator]⟩ }
    NodeKey.toBytes leaf = NodeKey.toBytes (Journal.child 1) ∧
      ((start.after flushedAway).load (Journal.child 1) .none).1 = .ok (some [0x11]) ∧
      ((start.after flushedAway).load leaf .none).1 = .ok (some [0x11]) ∧
      ((start.after (flushedAway.take 1)).load leaf .none).1 = .ok none ∧
      ¬∀ pre, pre <+: flushedAway → (start.after pre).LoadsAlike := by
  intro start leaf
  have served : ∀ c ∈ flushedAway, c.KeepsReadable := by simp [flushedAway, Call.KeepsReadable]
  refine ⟨by decide +kernel, by decide +kernel, by decide +kernel, by decide +kernel, ?_⟩
  intro alike
  have unchanged := (loadsAlike_iff_unchanged rfl .archive (.memoryLimit 0) (.stable Position)
    served).mp alike flushedAway List.prefix_rfl (Journal.child 1) .none
  revert unchanged
  decide +kernel

end StateSync.Store.NodeStore
