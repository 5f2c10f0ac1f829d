import StateSync.Hash.Lemmas
import StateSync.Proofs.NodeStore.Views

/-!
Stores that address nodes by content. Digests are checked when a node is committed and never again,
and still every node in memory, every row and every payload that is returned has the digest under
which it is kept.
-/

namespace StateSync

open Trie

/-- Whatever a resolver returns under a hash has that digest. -/
structure Trie.Resolver.ByDigest {ρ : Type} [Resolver ρ Hash] (r : ρ) : Prop where
  load : ∀ {key flags payload}, (load r key flags).1 = .ok (some payload) → keccak payload = key
  loadRequired : ∀ {key flags payload},
    (loadRequired r key flags).1 = .ok payload → keccak payload = key
  tryLoad : ∀ {key flags payload}, (tryLoad r key flags).1 = some payload → keccak payload = key
  find : ∀ {key payload}, (find r key).payload? = some payload → keccak payload = key

/-- What is built on a load has the digests of the load. -/
theorem Trie.Resolver.byDigest {ρ : Type} [Resolver ρ Hash] {r : ρ}
    (loads : ∀ {key flags payload},
      (Resolver.load r key flags).1 = .ok (some payload) → keccak payload = key)
    (finds : ∀ {key payload}, (Resolver.find r key).payload? = some payload →
      keccak payload = key) : ByDigest r := by
  refine ⟨loads, fun {key flags payload} h => ?_, fun {key flags payload} h => ?_, finds⟩
  · rw [fst_loadRequired] at h
    cases answer : (Resolver.load r key flags).1 with
    | error e =>
      rw [answer] at h
      cases h
    | ok found =>
      rw [answer] at h
      cases found with
      | none => cases h
      | some held =>
        cases h
        exact loads answer
  · rw [fst_tryLoad] at h
    cases answer : (Resolver.load r key flags).1 with
    | error e =>
      rw [answer] at h
      cases h
    | ok found =>
      rw [answer] at h
      exact loads (answer.trans (congrArg Except.ok h))

namespace Store

/-- Every row is under the digest of its payload. -/
def Rows.ByDigest (rows : Rows) : Prop :=
  ∀ key payload, rows[key]? = some payload → key = (keccak payload).toBytes

namespace NodeStore

variable {s t : NodeStore Hash}

/-- Every node in memory, with its row, and every row of the backend is under its digest. -/
structure ContentAddressed (s : NodeStore Hash) : Prop where
  cached : ∀ (key : Hash) (node : CachedNode), s.nodes[key]? = some node →
    keccak node.payload = key ∧ node.rowKey = key.toBytes
  rows : s.backend.trieNodes.ByDigest

theorem Agrees.contentAddressed (h : Agrees s t) (hs : s.ContentAddressed) :
    t.ContentAddressed :=
  ⟨fun key node live => hs.cached key node (h.nodes ▸ live), h.rows ▸ hs.rows⟩

theorem keccak_of_commit {block : UInt64} {key : Hash} {payload : Bytes}
    (h : s.commit block key payload = .ok t) : keccak payload = key := by
  by_contra forged
  have refusal : NodeKey.verify key payload = .error (.hashMismatch key (keccak payload)) :=
    if_neg forged
  rw [commit, refusal] at h
  cases h

theorem contentAddressed_store (hs : s.ContentAddressed) (block : UInt64) {key : Hash}
    {payload : Bytes} (digest : keccak payload = key) :
    (s.store block key payload).ContentAddressed := by
  refine ⟨fun other node live => ?_, hs.rows⟩
  rw [getElem?_nodes_store] at live
  split at live
  · next same =>
    subst same
    cases live
    exact ⟨digest, rfl⟩
  · exact hs.cached other node live

theorem contentAddressed_flush {block : UInt64} (hs : s.ContentAddressed)
    (done : s.flush block = .ok t) : t.ContentAddressed := by
  refine ⟨fun key node live => ?_, fun row payload stored => ?_⟩
  · rw [getElem?_nodes_flush done] at live
    obtain ⟨old, before, rfl⟩ := Option.map_eq_some_iff.mp live
    have held := hs.cached key old before
    split <;> exact held
  · rw [getElem?_rows_flush done, Option.or_eq_some_iff] at stored
    rcases stored with written | ⟨-, old⟩
    · obtain ⟨key, -, node, live, -, same⟩ := mem_batch.mp (lastValue_eq_some written)
      obtain ⟨rfl, rfl⟩ := Prod.ext_iff.mp same
      obtain ⟨digest, rowKey⟩ := hs.cached key node live
      exact rowKey.trans (congrArg Hash.toBytes digest.symm)
    · exact hs.rows row payload old

theorem contentAddressed_prune (hs : s.ContentAddressed) : s.prune.ContentAddressed := by
  refine ⟨fun key node live => hs.cached key node (getElem?_of_prune live), ?_⟩
  rw [backend_prune]
  exact hs.rows

theorem contentAddressed_run (hs : s.ContentAddressed) (c : Call Hash) :
    (c.run s).ContentAddressed := by
  have step := stepped s c
  generalize c.announced? s = announced at step
  generalize c.run s = t at step ⊢
  have same : ∀ {t : NodeStore Hash}, Agrees s t → t.ContentAddressed :=
    fun agrees => agrees.contentAddressed hs
  cases step with
  | refused => exact hs
  | stored _ accepted => exact contentAddressed_store hs _ (keccak_of_commit accepted)
  | noted | loaded | enabled | taken | faulted => exact same ⟨rfl, rfl, rfl, rfl⟩
  | @flushed _ block root t _ done =>
    have start : (s.addRoot root block).ContentAddressed := same ⟨rfl, rfl, rfl, rfl⟩
    have pruned := contentAddressed_prune (contentAddressed_flush start done)
    exact Agrees.contentAddressed (s := t.prune) ⟨rfl, rfl, rfl, rfl⟩ pruned

theorem contentAddressed_after (hs : s.ContentAddressed) (calls : List (Call Hash)) :
    (s.after calls).ContentAddressed := by
  induction calls generalizing s with
  | nil => exact hs
  | cons c calls ih => exact ih (contentAddressed_run hs c)

theorem ContentAddressed.lookup (hs : s.ContentAddressed) {key : Hash} {payload : Bytes}
    (h : s.lookup key = .ok (some payload)) : keccak payload = key := by
  unfold NodeStore.lookup at h
  split at h
  · next node live =>
    cases h
    exact (hs.cached key node live).1
  · have row := hs.rows _ payload (Backend.rows_of_get h)
    exact (Hash.toBytes_inj.mp row).symm

theorem byDigest_resolver (hs : s.ContentAddressed) : Resolver.ByDigest s := by
  refine Resolver.byDigest (fun h => hs.lookup (load_eq_ok_iff.mp h)) fun {key payload} h => ?_
  change (s.find key).payload? = some payload at h
  rcases find_cases s key with ⟨node, live, decoded⟩ | ⟨unknown, -⟩
  · obtain rfl := Option.some.inj ((Handle.payload?_ofPayload decoded).symm.trans h)
    exact (hs.cached key node live).1
  · rw [unknown] at h
    cases h

/-- A view returns what the store does. -/
theorem byDigest_readOnly (hs : s.ContentAddressed) : Resolver.ByDigest s.readOnly := by
  have reads := ReadOnlyView.readsAs_readOnly s
  have stored := byDigest_resolver hs
  refine Resolver.byDigest (fun h => stored.load ((reads.load _ _).symm.trans h)) fun h => ?_
  rw [reads.find] at h
  exact stored.find h

/--
Over rows that are under their digests, whatever is done to a store and through its views, every
node in memory and every row stays under its digest, and all that is loaded or found has the digest
that was asked for.
-/
theorem addressed_by_digest {backend : Backend} (rows : backend.trieNodes.ByDigest)
    (persistence : Persistence) (pruning : Pruning) (eviction : EvictionOrder Hash)
    (accesses : List (Access Hash)) :
    let start : NodeStore Hash := { backend, persistence, pruning, eviction }
    let s := start.afterAccesses accesses
    s.ContentAddressed ∧ Resolver.ByDigest s ∧ Resolver.ByDigest s.readOnly := by
  intro start s
  have first : start.ContentAddressed := by
    refine ⟨fun key node live => ?_, rows⟩
    simp [start] at live
  have now : s.ContentAddressed := by
    change (start.afterAccesses accesses).ContentAddressed
    rw [afterAccesses_eq]
    exact contentAddressed_after first _
  exact ⟨now, byDigest_resolver now, byDigest_readOnly now⟩

/-- A row under its digest. -/
def digestRow : Backend :=
  { trieNodes := (∅ : Rows).insertMany [((keccak [1]).toBytes, [1])] }

/-- A forged commit, and one that is flushed and dropped from memory. -/
def forgedThenFlushed : List (Access Hash) :=
  [.direct (.call (.commit 1 (keccak [2]) [3])), .direct (.call (.commit 1 (keccak [4]) [4])),
    .viewed (.commit 1 (keccak [5]) [6]), .direct (.call (.finish .state 1 .zero))]

theorem addressed_by_digest_forgedThenFlushed :
    let start : NodeStore Hash :=
      { backend := digestRow, persistence := .archive, pruning := .memoryLimit 0 }
    let s := start.afterAccesses forgedThenFlushed
    s.ContentAddressed ∧ (s.load (keccak [1]) .none).1 = .ok (some [1]) ∧
      (s.load (keccak [2]) .none).1 = .ok none ∧ (s.load (keccak [4]) .none).1 = .ok (some [4]) ∧
      s.nodes[keccak [4]]? = none := by
  intro start s
  have rows : digestRow.trieNodes.ByDigest := by
    intro key payload stored
    change ((∅ : Rows).insertMany [((keccak [1]).toBytes, [1])])[key]? = some payload at stored
    rw [getElem?_insertMany, Option.or_eq_some_iff] at stored
    rcases stored with last | ⟨-, none⟩
    · obtain ⟨row, value⟩ := Prod.mk.inj (List.mem_singleton.mp (lastValue_eq_some last))
      rw [row, value]
    · simp at none
  obtain ⟨addressed, -, -⟩ :=
    addressed_by_digest rows .archive (.memoryLimit 0) (.stable Hash) forgedThenFlushed
  exact ⟨addressed, by decide +kernel, by decide +kernel, by decide +kernel, by decide +kernel⟩

end NodeStore

end Store

end StateSync
