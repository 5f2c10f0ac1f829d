import StateSync.Proofs.BranchCache.Depth
import StateSync.Proofs.BranchCache.Versions

/-!
Cursors in a cache that others may change. Until the cache changes, the steps of a cursor show the
chain of its root, where lookups look as well, and then nothing more. From the first change on,
every step is refused, whatever is in the slot that the cursor stands at.
-/

namespace StateSync.Store

namespace BranchCursor

variable {φ : Type}

/-- A cache and a cursor that was made for it. -/
structure Traversal (φ : Type) where
  cache : BranchCache φ
  cursor : BranchCursor

/-- What happens during a traversal: a call on the cache, or a step of the cursor. -/
inductive Event
  | call (call : BranchCache.Call)
  | advance

namespace Event

def isAdvance : Event → Bool
  | advance => true
  | call _ => false

def call? : Event → Option BranchCache.Call
  | call c => some c
  | advance => none

end Event

namespace Traversal

variable [KeyFilter φ]

def step (t : Traversal φ) : Event → Traversal φ
  | .call call => { t with cache := call.run t.cache }
  | .advance => { t with cursor := (t.cursor.advance t.cache).2 }

def after (t : Traversal φ) (events : List Event) : Traversal φ := events.foldl step t

/-- A traversal of the chain of a root. -/
def ofRoot (c : BranchCache φ) (root : Hash) : Traversal φ := ⟨c, .ofRoot c root⟩

end Traversal

theorem advance_of_changed {c : BranchCache φ} {cursor : BranchCursor}
    (changed : c.version ≠ cursor.version) :
    cursor.advance c = (.error (.modifiedDuringTraversal cursor.version c.version), cursor) :=
  if_pos changed

theorem version_advance (cursor : BranchCursor) (c : BranchCache φ) :
    (cursor.advance c).2.version = cursor.version := by
  unfold advance
  split
  · rfl
  · split
    · rfl
    · split <;> rfl

namespace Traversal

variable [KeyFilter φ] {t : Traversal φ}

/-- The cache follows the calls, and the cursor remembers the version that it began with. -/
theorem frame_after (t : Traversal φ) (events : List Event) :
    (t.after events).cache =
        (events.filterMap Event.call?).foldl (fun c call => call.run c) t.cache ∧
      (t.after events).cursor.version = t.cursor.version := by
  induction events generalizing t with
  | nil => exact ⟨rfl, rfl⟩
  | cons event events ih =>
    obtain ⟨cache, version⟩ := ih (t.step event)
    cases event with
    | call call => exact ⟨cache, version⟩
    | advance => exact ⟨cache, version.trans (version_advance t.cursor t.cache)⟩

/-- Each step in an unchanged cache takes one state off those that remain. -/
theorem remaining_after (ht : t.cache.WellFormed) (current : t.cursor.version = t.cache.version)
    {events : List Event} (idle : t.cache.Idle (events.filterMap Event.call?)) :
    (t.after events).cursor.remaining t.cache =
      (t.cursor.remaining t.cache).drop (events.countP Event.isAdvance) := by
  induction events generalizing t with
  | nil => rfl
  | cons event events ih =>
    cases event with
    | call call =>
      obtain ⟨same, rest⟩ := idle
      have stays : t.step (.call call) = t := congrArg (Traversal.mk · t.cursor) same
      rw [same] at rest
      change ((t.step (.call call)).after events).cursor.remaining t.cache = _
      rw [stays]
      exact ih ht current rest
    | advance =>
      obtain ⟨-, taken, still⟩ := ht.advance_eq current
      refine (ih (t := t.step .advance) ht still idle).trans ?_
      change ((t.cursor.advance t.cache).2.remaining t.cache).drop _ = _
      rw [taken, List.drop_tail, List.countP_cons_of_pos rfl]

end Traversal

end BranchCursor

namespace BranchCache

variable {φ : Type} {c : BranchCache φ} {root : Hash}

/-- Blocks fall along every chain. -/
theorem pairwise_chain (c : BranchCache φ) (root : Hash) :
    (c.chain root).Pairwise fun newer older => older.block < newer.block := by
  unfold chain
  split
  · next slot _ =>
    refine List.pairwise_map.mpr ((Branch.sorted_ancestry c.branches slot).imp_of_mem ?_)
    intro newer older hnewer holder lower
    have lower : older.2.state.block.toNat + 1 < newer.2.state.block.toNat + 1 := by
      simpa only [Branch.height, Branch.get?_of_mem_ancestry hnewer,
        Branch.get?_of_mem_ancestry holder] using lower
    exact UInt64.lt_iff_toNat_lt.mpr (Nat.lt_of_add_lt_add_right lower)
  · exact .nil

theorem chain_of_untracked (h : c.roots[root]? = none) : c.chain root = [] := by
  simp [chain, h]

/-- The chain of a tracked root ends with the base, which has no changes. -/
theorem WellFormed.chain_eq_append (hc : c.WellFormed) (h : c.contains root = true) :
    ∃ base, c.baseState? = some base ∧ base.delta = none ∧
      c.chain root = (c.chain root).dropLast ++ [base] := by
  obtain ⟨slot, branch, live, rfl⟩ := (hc.contains_iff root).mp h
  obtain ⟨base, up, hb, hup⟩ := hc.exists_base live
  refine ⟨up.state, baseState?_eq hb hup, hc.base_delta base up hb hup, ?_⟩
  rw [hc.chain_eq_walk hb hup live, List.dropLast_concat]

/-- The base has only itself on its chain. -/
theorem WellFormed.dropLast_chain_of_branch?_eq_none (hc : c.WellFormed)
    (h : c.branch? root = none) : (c.chain root).dropLast = [] := by
  unfold branch? at h
  cases known : c.roots[root]? with
  | none => rw [chain_of_untracked known, List.dropLast_nil]
  | some slot =>
    obtain ⟨branch, live, rfl⟩ := (hc.roots root slot).mp known
    have hb : c.base = some slot := by
      by_contra other
      simp [known, other, state?_eq live] at h
    rw [chain_eq hc.toIndexed live,
      Branch.ancestry_root live ((hc.base_iff slot branch live).mpr hb)]
    rfl

theorem WellFormed.chainLookup_eq (hc : c.WellFormed) (kind : DeltaKind) (key : Bytes)
    (root : Hash) : c.chainLookup kind key root =
      (c.chain root).dropLast.findSome? fun state => state.change? kind key := by
  cases known : c.contains root with
  | true =>
    obtain ⟨base, -, bare, line⟩ := hc.chain_eq_append known
    have nothing : base.change? kind key = none := by simp [BlockState.change?, bare]
    rw [chainLookup, line, List.findSome?_append, List.dropLast_concat]
    simp [nothing]
  | false =>
    have untracked : c.roots[root]? = none := by
      rwa [contains, Std.TreeMap.contains_eq_isSome_getElem?, Option.isSome_eq_false_iff,
        Option.isNone_iff_eq_none] at known
    rw [chainLookup, chain_of_untracked untracked]
    rfl

theorem remaining_ofRoot (c : BranchCache φ) (root : Hash) :
    (BranchCursor.ofRoot c root).remaining c = (c.chain root).dropLast := by
  unfold BranchCursor.ofRoot BranchCursor.remaining chain
  cases c.roots[root]? <;> rfl

end BranchCache

namespace BranchCursor

open BranchCache

variable {φ : Type} [KeyFilter φ]

/--
The states on the chain of a root, the base left out, are what the steps of a cursor show one after
another, and what lookups at the root go through. This holds as long as no call has changed the
cache. Once one has, every step is refused and the cursor stays as it is.
-/
theorem advance_shows_chain [LawfulKeyFilter φ] (span : Nat) (calls : List Call) (root : Hash) :
    let c : BranchCache φ := ofCalls span calls
    ∃ shown : List BlockState,
      (c.contains root = true → ∃ base, c.baseState? = some base ∧
        c.chain root = shown ++ [base]) ∧
      (c.branch? root = none → shown = []) ∧
      (shown.Pairwise fun newer older => older.block < newer.block) ∧
      (∀ kind key, c.lookup kind key root = shown.findSome? fun state => state.change? kind key) ∧
      ∀ events : List Event,
        let t := (Traversal.ofRoot c root).after events
        (c.Idle (events.filterMap Event.call?) →
          (t.cursor.advance t.cache).1 = .ok shown[events.countP Event.isAdvance]?) ∧
        (¬c.Idle (events.filterMap Event.call?) → t.cursor.advance t.cache =
          (.error (.modifiedDuringTraversal c.version t.cache.version), t.cursor)) := by
  intro c
  have hr : Reachable c := reachable_ofCalls span calls
  have hc : c.WellFormed := wellFormed_reachable hr
  refine ⟨(c.chain root).dropLast, fun known => ?_, hc.dropLast_chain_of_branch?_eq_none,
    (pairwise_chain c root).sublist (List.dropLast_sublist _), fun kind key => ?_,
    fun events => ?_⟩
  · obtain ⟨base, hb, -, line⟩ := hc.chain_eq_append known
    exact ⟨base, hb, line⟩
  · rw [lookup_eq_chainLookup (covers_reachable hr), hc.chainLookup_eq]
  · obtain ⟨cache, version⟩ := (Traversal.ofRoot c root).frame_after events
    refine ⟨fun idle => ?_, fun changed => ?_⟩
    · have same : ((Traversal.ofRoot c root).after events).cache = c :=
        cache.trans idle.foldl_eq
      have rest : ((Traversal.ofRoot c root).after events).cursor.remaining c =
          (c.chain root).dropLast.drop (events.countP Event.isAdvance) := by
        rw [← remaining_ofRoot]
        exact Traversal.remaining_after (t := .ofRoot c root) hc rfl idle
      rw [same, (hc.advance_eq version).1, rest, List.head?_drop]
    · have moved : ((Traversal.ofRoot c root).after events).cache.version ≠
          ((Traversal.ofRoot c root).after events).cursor.version := by
        rw [cache, version]
        exact fun same => changed ((version_foldl_eq_iff hr _).mp same)
      rw [advance_of_changed moved, version]
      rfl

/-- Two branches on the first base. -/
def twoBranches : List Call :=
  [.init 0 .zero, .insert ⟨1, .ofNat 1, none⟩ .zero, .insert ⟨1, .ofNat 9, none⟩ .zero]

/-- The base moves to the first of them, and a new branch takes the slot of the second. -/
def slotReused : List Event :=
  [.call (.insert ⟨2, .ofNat 2, none⟩ (.ofNat 1)), .call (.insert ⟨3, .ofNat 3, none⟩ (.ofNat 2))]

/-- A cursor that stands at the second branch does not show what is in its slot now. -/
theorem advance_shows_chain_slotReused :
    let c : BranchCache BloomFilter := ofCalls 1 twoBranches
    let t := (Traversal.ofRoot c (.ofNat 9)).after slotReused
    (t.cursor.next.bind t.cache.branches.get?).map (fun branch => branch.state.root) =
        some (.ofNat 3) ∧
      t.cursor.advance t.cache =
        (.error (.modifiedDuringTraversal c.version t.cache.version), t.cursor) := by
  intro c t
  have reused : (t.cursor.next.bind t.cache.branches.get?).map (fun branch => branch.state.root) =
      some (.ofNat 3) := by
    decide +kernel
  have changed : ¬c.Idle (slotReused.filterMap Event.call?) := by
    intro idle
    have same := congrArg BranchCache.version idle.foldl_eq
    revert same
    decide +kernel
  obtain ⟨_, _, _, _, _, steps⟩ := advance_shows_chain (φ := BloomFilter) 1 twoBranches (.ofNat 9)
  exact ⟨reused, (steps slotReused).2 changed⟩

end BranchCursor

end StateSync.Store
