import StateSync.Proofs.BranchCache.Depth
import StateSync.Proofs.LayeredReader

/-!
Reading at a root that the cache has forgotten. A root that was flattened past or dropped with its
fork has no chain any more, so a reader there falls through to the store, which has moved on with
the base: what it answers is the state at the base.
-/

namespace StateSync.Store

variable {φ σ : Type}

theorem newest?_append (newer older : List BlockState) (kind : DeltaKind) (key : Bytes) :
    newest? (newer ++ older) kind key = (newest? newer kind key).or (newest? older kind key) :=
  List.findSome?_append

/-- Writes the rows of some states to a store, state after state. -/
def persistAll [ByteStore σ] (kind : DeltaKind) : σ → List BlockState → Except TrieError σ
  | store, [] => .ok store
  | store, state :: states =>
    match ByteStore.putAll store (state.rows kind) with
    | (.ok (), store) => persistAll kind store states
    | (.error e, _) => .error e

theorem get_persistAll [ByteStore σ] [LawfulByteStore σ] {kind : DeltaKind} {store after : σ}
    {states : List BlockState} (written : persistAll kind store states = .ok after) {key : Bytes}
    {old : Option Bytes} (hold : ByteStore.get store key = .ok old) :
    ByteStore.get after key = .ok ((newest? states.reverse kind key).or old) := by
  induction states generalizing store old with
  | nil =>
    obtain rfl := Except.ok.inj written
    exact hold
  | cons state states ih =>
    rw [persistAll] at written
    split at written
    · next next put =>
      rw [ih written (LawfulByteStore.get_putAll put hold), lastValue_rows, List.reverse_cons,
        newest?_append, Option.or_assoc]
      simp [newest?]
    · cases written

/-- A map in memory takes every write. -/
theorem exists_persistAll (kind : DeltaKind) (rows : Rows) (states : List BlockState) :
    ∃ after, persistAll kind rows states = .ok after := by
  induction states generalizing rows with
  | nil => exact ⟨rows, rfl⟩
  | cons state states ih => exact ih (rows.insertMany (state.rows kind))

namespace BranchCache

theorem chain_of_forgotten {c : BranchCache φ} {root : Hash} (gone : c.contains root = false) :
    c.chain root = [] := by
  have vacant : c.roots[root]? = none := by
    rw [contains, Std.TreeMap.contains_eq_isSome_getElem?] at gone
    exact Option.isNone_iff_eq_none.mp (Option.isSome_eq_false_iff.mp gone)
  simp [chain, vacant]

namespace History

/-- The roots that a cache was given: the first base, and all that was accepted. -/
def everTracked (h : History φ) : List Hash :=
  h.first.toList.map BlockState.root ++ h.accepted.map fun accepted => accepted.state.root

/--
What the state at a root has under a key: the newest value on the line to the root, and what was
persisted first where the line has none.
-/
def valueAt (h : History φ) (kind : DeltaKind) (key : Bytes) (old : Option Bytes) (root : Hash) :
    Option Bytes :=
  (newest? (ancestors h.accepted root) kind key).or old

variable {h : History φ} {kind : DeltaKind} {key : Bytes} {old : Option Bytes} {root : Hash}

/-- A cache that was given a root has a base. -/
theorem Sound.exists_base (hh : h.Sound) (ever : root ∈ h.everTracked) :
    ∃ slot base, h.cache.base = some slot ∧ h.cache.branches.get? slot = some base := by
  cases hb : h.cache.base with
  | some slot =>
    obtain ⟨base, hbase⟩ := hh.wellFormed.base_live slot hb
    exact ⟨slot, base, rfl, hbase⟩
  | none =>
    obtain ⟨accepted, flattened⟩ := hh.unused hb
    have first : h.first = none := by simpa [baseState?, hb, flattened] using hh.last.symm
    simp [everTracked, accepted, first] at ever

theorem Sound.ancestors_eq (hh : h.Sound) {slot : Nat} {branch : Branch}
    (hlive : h.cache.branches.get? slot = some branch) :
    ancestors h.accepted branch.state.root =
      h.cache.walk branch.state.root ++ h.flattened.reverse := by
  have line := congrArg List.reverse (hh.flattened_append hlive)
  rw [← hh.wellFormed.walk_eq hlive] at line
  simpa using line.symm

theorem Sound.ancestors_base (hh : h.Sound) {slot : Nat} {base : Branch}
    (hb : h.cache.base = some slot) (hbase : h.cache.branches.get? slot = some base) :
    ancestors h.accepted base.state.root = h.flattened.reverse := by
  rw [← hh.line slot base hb hbase, List.reverse_reverse]

/-- The base has no changes, so what a chain holds is what the walk above the base holds. -/
theorem Sound.newest?_chain (hh : h.Sound) {slot : Nat} {branch : Branch}
    (hlive : h.cache.branches.get? slot = some branch) :
    newest? (h.cache.chain branch.state.root) kind key =
      newest? (h.cache.walk branch.state.root) kind key := by
  obtain ⟨first, base, hb, hbase⟩ := hh.wellFormed.exists_base hlive
  have unchanged := hh.wellFormed.base_delta first base hb hbase
  rw [hh.wellFormed.chain_eq_walk hb hbase hlive, newest?_append]
  simp [newest?, BlockState.change?, unchanged]

/-- A reader answers the state at its root while the root is tracked, and that at the base after. -/
theorem Sound.get_view [KeyFilter φ] [ByteStore σ] [LawfulByteStore σ] {persisted store : σ}
    (hh : h.Sound)
    (exact : h.cache.lookup kind key root = newest? (h.cache.chain root) kind key)
    (written : persistAll kind persisted h.flattened = .ok store)
    (hold : ByteStore.get persisted key = .ok old) {slot : Nat} {base : Branch}
    (hb : h.cache.base = some slot) (hbase : h.cache.branches.get? slot = some base) :
    ByteStore.get ({ root, cache := h.cache, store, kind } : LayeredReader φ σ) key =
      .ok (h.valueAt kind key old
        (if h.cache.contains root = true then root else base.state.root)) := by
  have below := get_persistAll written hold
  have view : ByteStore.get ({ root, cache := h.cache, store, kind } : LayeredReader φ σ) key =
      .ok ((newest? (h.cache.chain root) kind key).or
        ((newest? h.flattened.reverse kind key).or old)) := by
    simp only [ByteStore.get, exact]
    cases newest? (h.cache.chain root) kind key with
    | some value => rfl
    | none => exact below
  rw [view]
  cases known : h.cache.contains root with
  | true =>
    obtain ⟨slot, branch, hlive, rfl⟩ := (hh.wellFormed.contains_iff root).mp known
    rw [if_pos rfl, valueAt, hh.newest?_chain hlive, hh.ancestors_eq hlive, newest?_append,
      Option.or_assoc]
  | false =>
    rw [if_neg Bool.false_ne_true, valueAt, chain_of_forgotten known, hh.ancestors_base hb hbase]
    rfl

/--
The flattened states are persisted, each in its turn. Then a reader at any root that the cache was
ever given answers the state at that root while the cache still tracks it, and the state at the
base once it does not. So what it finds is right at its root exactly if the root is still tracked,
or if what the base has under the key is what the root had.
-/
theorem view_right_iff [KeyFilter φ] [LawfulKeyFilter φ] [ByteStore σ] [LawfulByteStore σ]
    (span : Nat) (calls : List Call) (kind : DeltaKind) {persisted store : σ}
    (written : persistAll kind persisted (ofCalls span calls : History φ).flattened = .ok store)
    {root : Hash} (ever : root ∈ (ofCalls span calls : History φ).everTracked) {key : Bytes}
    {old : Option Bytes} (hold : ByteStore.get persisted key = .ok old) :
    let h : History φ := ofCalls span calls
    let view : LayeredReader φ σ := { root, cache := h.cache, store, kind }
    let value : Hash → Option Bytes := h.valueAt kind key old
    ∃ base, h.cache.baseState? = some base ∧
      ByteStore.get view key =
        .ok (value (if h.cache.contains root = true then root else base.root)) ∧
      ((∀ found, ByteStore.get view key = .ok (some found) → value root = some found) ↔
        h.cache.contains root = true ∨
          ∀ found, value base.root = some found → value root = some found) := by
  intro h view value
  have hh : h.Sound := sound_ofCalls span calls
  have reached : h.cache.Reachable := by
    rw [cache_ofCalls]
    exact reachable_ofCalls span calls
  obtain ⟨slot, base, hb, hbase⟩ := hh.exists_base ever
  have answer : ByteStore.get view key =
      .ok (value (if h.cache.contains root = true then root else base.state.root)) :=
    hh.get_view (lookup_eq_chainLookup (covers_reachable reached) kind key root) written hold hb
      hbase
  refine ⟨base.state, baseState?_eq hb hbase, answer, ?_⟩
  rw [answer]
  cases known : h.cache.contains root with
  | true => simp
  | false => simp

/-- Two blocks on the first base, and one more that leaves the second of them behind. -/
def rivals : List Call :=
  [.init 0 .zero,
    .insert ⟨1, .ofNat 1, some { leaves := (∅ : Rows).insertMany [([1], [10])] }⟩ .zero,
    .insert ⟨1, .ofNat 9, some { leaves := (∅ : Rows).insertMany [([1], [99])] }⟩ .zero,
    .insert ⟨2, .ofNat 2, none⟩ (.ofNat 1)]

/-- A reader at the fork that was dropped finds the value of its rival, not the one of the fork. -/
theorem view_right_iff_rivals :
    let h : History BloomFilter := ofCalls 1 rivals
    ∃ store, persistAll .leaves (∅ : Rows) h.flattened = .ok store ∧
      let view : LayeredReader BloomFilter Rows :=
        { root := .ofNat 9, cache := h.cache, store, kind := .leaves }
      h.valueAt .leaves [1] none (.ofNat 9) = some [99] ∧
      ByteStore.get view [1] = .ok (some [10]) ∧
      ¬ ∀ found, ByteStore.get view [1] = .ok (some found) →
        h.valueAt .leaves [1] none (.ofNat 9) = some found := by
  intro h
  obtain ⟨store, written⟩ := exists_persistAll .leaves ∅ h.flattened
  have ever : .ofNat 9 ∈ h.everTracked := by decide +kernel
  have empty : ByteStore.get (∅ : Rows) [1] = .ok none := rfl
  obtain ⟨base, hbase, answer, right⟩ := view_right_iff 1 rivals .leaves written ever empty
  have forgotten : h.cache.contains (.ofNat 9) = false := by decide +kernel
  have moved : h.cache.baseState?.map BlockState.root = some (.ofNat 1) := by decide +kernel
  have fork : h.valueAt .leaves [1] none (.ofNat 9) = some [99] := by decide +kernel
  have rival : h.valueAt .leaves [1] none (.ofNat 1) = some [10] := by decide +kernel
  change h.cache.baseState? = some base at hbase
  have atBase : base.root = .ofNat 1 := by
    rw [hbase] at moved
    exact Option.some.inj moved
  rw [if_neg (by simpa using forgotten), atBase] at answer
  refine ⟨store, written, fork, answer.trans (congrArg Except.ok rival), ?_⟩
  -- What the base has under the key is there, and is not what the fork had.
  rw [right, atBase]
  rintro (known | same)
  · cases forgotten.symm.trans known
  · cases fork.symm.trans (same [10] rival)

end History

end BranchCache

end StateSync.Store
