import Mathlib
import StateSync.Proofs.BranchCache.Lineage
import StateSync.Proofs.ByteStore
import StateSync.Store.LayeredReader

/-!
Reading at a root. Whatever is flattened in between, a read finds what the states accepted on the
line to the root left under the key, and what was persisted first where they left nothing.
-/

namespace StateSync.Store

/-- The rows that a block wrote to one table. -/
def BlockState.rows (s : BlockState) (kind : DeltaKind) : List (Bytes × Bytes) :=
  (s.delta.map fun delta => (delta.rows kind).toList).getD []

theorem lastValue_rows (s : BlockState) (kind : DeltaKind) (key : Bytes) :
    lastValue (s.rows kind) key = s.change? kind key := by
  cases hd : s.delta with
  | none => simp [BlockState.rows, BlockState.change?, hd, lastValue]
  | some delta => simp [BlockState.rows, BlockState.change?, hd, lastValue_toList]

/-- The newest value of a key in a list of states, newest first. -/
def newest? (states : List BlockState) (kind : DeltaKind) (key : Bytes) : Option Bytes :=
  states.findSome? fun state => state.change? kind key

theorem newest?_cons (state : BlockState) (states : List BlockState) (kind : DeltaKind)
    (key : Bytes) : newest? (state :: states) kind key =
      (state.change? kind key).or (newest? states kind key) := by
  rw [newest?, List.findSome?_cons]
  cases state.change? kind key <;> rfl

/-- A branch cache over a persisted store, and what was accepted on the line to every root. -/
structure Layers (φ σ : Type) where
  cache : BranchCache φ
  store : σ
  /-- The states accepted on the line to a root, newest first, the first base left out. -/
  lineage : Hash → List BlockState

namespace Layers

variable {φ σ : Type} [KeyFilter φ] [ByteStore σ] {kind : DeltaKind} {persisted : σ}
  {l : Layers φ σ}

/-- The lines after a state was accepted on top of a root. -/
def extend (l : Layers φ σ) (state : BlockState) (parentRoot : Hash) : Hash → List BlockState :=
  Function.update l.lineage state.root (state :: l.lineage parentRoot)

/-- One insert. The rows of a state that it flattens are written to the store right after it. -/
def insert (l : Layers φ σ) (kind : DeltaKind) (state : BlockState) (parentRoot : Hash) :
    Layers φ σ :=
  match l.cache.insert state.block state.root state.delta parentRoot with
  | .error _ => l
  | .ok (flat, cache) =>
    { cache
      store := match flat with
        | some flat => (ByteStore.putAll l.store (flat.rows kind)).2
        | none => l.store
      lineage := if l.cache.contains state.root then l.lineage else l.extend state parentRoot }

/-- The write that follows an insert, if it flattens a state, succeeds. -/
def Writes (l : Layers φ σ) (kind : DeltaKind) (state : BlockState) (parentRoot : Hash) : Prop :=
  ∀ flat cache, l.cache.insert state.block state.root state.delta parentRoot =
    .ok (some flat, cache) → (ByteStore.putAll l.store (flat.rows kind)).1 = .ok ()

/-- What a new cache over a persisted store comes to by inserts. -/
inductive Reachable (kind : DeltaKind) (persisted : σ) : Layers φ σ → Prop
  | init {span : Nat} {block : UInt64} {root : Hash} {cache : BranchCache φ}
      (done : (BranchCache.ofSpan span).init block root = .ok cache) :
      Reachable kind persisted { cache, store := persisted, lineage := fun _ => [] }
  | insert {l : Layers φ σ} {state : BlockState} {parentRoot : Hash} :
      Reachable kind persisted l → l.Writes kind state parentRoot →
      Reachable kind persisted (l.insert kind state parentRoot)

/-- Links extend lines, and the store holds what the line to the base left. -/
structure Sound (kind : DeltaKind) (persisted : σ) (l : Layers φ σ) : Prop where
  wellFormed : l.cache.WellFormed
  link : ∀ slot branch parent up, l.cache.branches.get? slot = some branch →
    branch.parent = some parent → l.cache.branches.get? parent = some up →
    l.lineage branch.state.root = branch.state :: l.lineage up.state.root
  stored : ∀ base branch key old, l.cache.base = some base →
    l.cache.branches.get? base = some branch → ByteStore.get persisted key = .ok old →
    ByteStore.get l.store key = .ok ((newest? (l.lineage branch.state.root) kind key).or old)

theorem cache_reachable (h : Reachable kind persisted l) : l.cache.Reachable := by
  induction h with
  | init done => exact .init (.ofSpan _) done
  | @insert l state parentRoot _ _ ih =>
    unfold insert
    split
    · exact ih
    · next done => exact ih.insert done

theorem sound_init {span : Nat} {block : UInt64} {root : Hash} {cache : BranchCache φ}
    (done : (BranchCache.ofSpan span).init block root = .ok cache) :
    Sound kind persisted { cache, store := persisted, lineage := fun _ => [] } := by
  refine ⟨BranchCache.wellFormed_init (BranchCache.wellFormed_ofSpan span) done, ?_, ?_⟩
  · intro slot branch parent up hlive hp hup
    obtain ⟨_, rfl⟩ := BranchCache.init_eq done
    have ha := (BranchCache.wellFormed_ofSpan (φ := φ) span).arena
    rw [BranchCache.get?_track ha] at hlive
    split at hlive
    · obtain rfl := Option.some.inj hlive
      cases hp
    · cases hlive
  · intro base branch key old _ _ hold
    simpa [newest?] using hold

omit [KeyFilter φ] [ByteStore σ] in
/-- A tracked root is not the one that is accepted, so its line stays. -/
theorem extend_tracked {state : BlockState} {slot : Nat} {branch : Branch}
    (hc : l.cache.Indexed) (hfresh : l.cache.contains state.root = false) (parentRoot : Hash)
    (h : l.cache.branches.get? slot = some branch) :
    l.extend state parentRoot branch.state.root = l.lineage branch.state.root := by
  simp [extend, hc.root_ne hfresh h]

theorem sound_track {state : BlockState} {parentRoot : Hash} {parent : Nat}
    (hl : Sound kind persisted l) (hf : l.cache.Fits state parentRoot parent) :
    Sound kind persisted { l with
      cache := (l.cache.track ⟨state, some parent⟩).2, lineage := l.extend state parentRoot } := by
  have hc := hl.wellFormed
  have hline : ∀ slot branch, l.cache.branches.get? slot = some branch →
      l.extend state parentRoot branch.state.root = l.lineage branch.state.root :=
    fun _ _ h => extend_tracked hc.toIndexed hf.fresh parentRoot h
  have follows : l.cache.Follows l.lineage := hl.link
  refine ⟨hf.wellFormed hc, ?_, ?_⟩
  · exact follows.track hc hf hline (by simp [extend])
  · intro base branch key old hb hlive hold
    dsimp only at hlive ⊢
    obtain ⟨root, hbase⟩ := hc.base_live base hb
    have hkept := BranchCache.get?_track_of_get? hc.arena ⟨state, some parent⟩ hbase
    obtain rfl := Option.some.inj (hkept.symm.trans hlive)
    rw [hline base root hbase]
    exact hl.stored base root key old hb hbase hold

/-- The state that the base moves to is written, so its line is in the store. -/
theorem sound_moved [LawfulByteStore σ] {moved : BranchCache φ} {base slot : Nat} {above : Branch}
    {store : σ} (hl : Sound kind persisted l) (hb : l.cache.base = some base)
    (hm : l.cache.Moved moved base slot above)
    (written : ByteStore.putAll l.store (above.state.rows kind) = (.ok (), store)) :
    Sound kind persisted { l with cache := moved, store } := by
  have hc := hl.wellFormed
  obtain ⟨root, hroot⟩ := hc.base_live base hb
  have habove := hl.link slot above base root hm.live hm.parent hroot
  have follows : l.cache.Follows l.lineage := hl.link
  refine ⟨hm.wellFormed hc hb, ?_, ?_⟩
  · exact hm.follows follows
  · intro newBase branch key old hnew hlive hold
    obtain rfl := Option.some.inj (hm.base.symm.trans hnew)
    rw [hm.get?, if_pos rfl] at hlive
    obtain rfl := Option.some.inj hlive
    have hstored := hl.stored base root key old hb hroot hold
    have hget := LawfulByteStore.get_putAll written hstored
    rw [Branch.asBase_root, habove, newest?_cons, Option.or_assoc]
    rwa [lastValue_rows] at hget

theorem sound_insert [LawfulByteStore σ] {state : BlockState} {parentRoot : Hash}
    (hl : Sound kind persisted l) (hw : l.Writes kind state parentRoot) :
    Sound kind persisted (l.insert kind state parentRoot) := by
  have hc := hl.wellFormed
  unfold insert
  cases done : l.cache.insert state.block state.root state.delta parentRoot with
  | error e => exact hl
  | ok result =>
    obtain ⟨flat, cache⟩ := result
    obtain ⟨base, hb⟩ := BranchCache.base_of_insert done
    cases BranchCache.inserted_of_insert hc hb done with
    | ignored known => simpa [known] using hl
    | tracked fits _ => simpa [fits.fresh] using sound_track hl fits
    | @moved _ _ above _ fits _ _ shift =>
      have written : ByteStore.putAll l.store (above.state.rows kind) =
          (.ok (), (ByteStore.putAll l.store (above.state.rows kind)).2) :=
        Prod.ext (hw _ _ done) rfl
      simpa [fits.fresh] using sound_moved (sound_track hl fits) hb shift written

theorem sound_reachable [LawfulByteStore σ] (h : Reachable kind persisted l) :
    Sound kind persisted l := by
  induction h with
  | init done => exact sound_init done
  | insert _ hw ih => exact sound_insert ih hw

omit [KeyFilter φ] in
/-- The walk from a branch and the store behind the base together hold the line to its root. -/
theorem walk_or_store (hl : Sound kind persisted l) {slot : Nat} {branch : Branch}
    (h : l.cache.branches.get? slot = some branch) {key : Bytes} {old stored : Option Bytes}
    (hold : ByteStore.get persisted key = .ok old)
    (hstored : ByteStore.get l.store key = .ok stored) :
    (newest? ((Branch.ancestry l.cache.branches slot).map fun entry => entry.2.state)
      kind key).or stored = (newest? (l.lineage branch.state.root) kind key).or old := by
  have hc := hl.wellFormed
  refine hc.induction (motive := fun slot branch =>
    (newest? ((Branch.ancestry l.cache.branches slot).map fun entry => entry.2.state)
      kind key).or stored = (newest? (l.lineage branch.state.root) kind key).or old)
    ?_ ?_ slot branch h
  · intro base branch hb hlive hp
    have hread := hl.stored base branch key old hb hlive hold
    rw [← Except.ok.inj (hstored.symm.trans hread)]
    simp [Branch.ancestry_root hlive hp, newest?, BlockState.change?,
      hc.base_delta base branch hb hlive]
  · intro slot branch parent up hlive hp hup hlt ih
    rw [Branch.ancestry_link hlive hp hup hlt, hl.link slot branch parent up hlive hp hup]
    rw [List.map_cons, newest?_cons, newest?_cons, Option.or_assoc, Option.or_assoc, ih]

/-- Flattening never shows: a read at a tracked root finds the newest value on the line to it. -/
theorem read_eq_newest [LawfulKeyFilter φ] [LawfulByteStore σ] (h : Reachable kind persisted l)
    {root : Hash} (hroot : l.cache.contains root = true) {key : Bytes} {old : Option Bytes}
    (hold : ByteStore.get persisted key = .ok old) :
    ByteStore.get ({ root, cache := l.cache, store := l.store, kind } : LayeredReader φ σ) key =
      .ok ((newest? (l.lineage root) kind key).or old) := by
  have hl := sound_reachable h
  have hc := hl.wellFormed
  obtain ⟨slot, branch, hlive, rfl⟩ := (hc.contains_iff root).mp hroot
  obtain ⟨base, hb⟩ : ∃ base, l.cache.base = some base := by
    cases hb : l.cache.base with
    | none => simp [hc.get?_of_base_none hb slot] at hlive
    | some base => exact ⟨base, rfl⟩
  obtain ⟨root, hbase⟩ := hc.base_live base hb
  have hstored := hl.stored base root key old hb hbase hold
  have hwalk := walk_or_store hl hlive hold hstored
  have hlookup : l.cache.lookup kind key branch.state.root =
      newest? ((Branch.ancestry l.cache.branches slot).map fun entry => entry.2.state)
        kind key := by
    rw [BranchCache.lookup_eq_chainLookup (BranchCache.covers_reachable (cache_reachable h)),
      BranchCache.chainLookup, BranchCache.chain_eq hc.toIndexed hlive]
    rfl
  simp only [ByteStore.get, hlookup]
  rw [← hwalk]
  cases newest? ((Branch.ancestry l.cache.branches slot).map fun entry => entry.2.state)
      kind key with
  | some value => rfl
  | none => exact hstored

/-- A fork off the first base and two blocks on it, the second of which flattens the first. -/
def forkThenFlatten (cache : BranchCache BloomFilter) : Layers BloomFilter Rows :=
  let first : Delta := { leaves := (∅ : Rows).insertMany [([1], [10]), ([2], [20])] }
  let fork : Delta := { leaves := (∅ : Rows).insertMany [([1], [99])] }
  let second : Delta := { leaves := (∅ : Rows).insertMany [([2], [22])] }
  let start : Layers BloomFilter Rows :=
    { cache, store := (∅ : Rows).insertMany [([1], [0]), ([3], [3])], lineage := fun _ => [] }
  ((start.insert .leaves ⟨1, .ofNat 1, some first⟩ .zero).insert .leaves
    ⟨1, .ofNat 9, some fork⟩ .zero).insert .leaves ⟨2, .ofNat 2, some second⟩ (.ofNat 1)

/-- The flattened value, the overwritten one and the persisted one are all found at the tip. -/
theorem read_eq_newest_forkThenFlatten :
    ∃ cache, (BranchCache.ofSpan 1).init 0 .zero = .ok cache ∧
      (forkThenFlatten cache).cache.contains (.ofNat 9) = false ∧
      (forkThenFlatten cache).cache.contains (.ofNat 2) = true ∧
      ∀ row ∈ [([1], [10]), ([2], [22]), ([3], [3])],
        ByteStore.get (⟨.ofNat 2, (forkThenFlatten cache).cache, (forkThenFlatten cache).store,
          .leaves⟩ : LayeredReader BloomFilter Rows) row.1 = .ok (some row.2) := by
  refine ⟨_, BranchCache.init_ofSpan 1 0 .zero, by decide +kernel, by decide +kernel, ?_⟩
  have writes : ∀ (l : Layers BloomFilter Rows) state parentRoot,
      l.Writes .leaves state parentRoot := fun _ _ _ _ _ _ => rfl
  have h : Reachable .leaves ((∅ : Rows).insertMany [([1], [0]), ([3], [3])])
      (forkThenFlatten _) :=
    (((Reachable.init (BranchCache.init_ofSpan 1 0 .zero)).insert (writes _ _ _)).insert
      (writes _ _ _)).insert (writes _ _ _)
  intro row hrow
  rw [read_eq_newest h (by decide +kernel) rfl]
  revert row
  decide +kernel

end Layers

end StateSync.Store
