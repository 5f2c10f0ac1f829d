import Mathlib
import StateSync.Proofs.BranchCache.Reachable
import StateSync.Store.LayeredReader

/-! Lookups in a branch cache: the filter spares walks, but never changes what they find. -/

namespace StateSync.Store

theorem mem_keys_of_change? {state : BlockState} {kind : DeltaKind} {key value : Bytes}
    (h : state.change? kind key = some value) :
    ∃ delta, state.delta = some delta ∧ key ∈ delta.keys := by
  obtain ⟨delta, hd, hrow⟩ := Option.bind_eq_some_iff.mp h
  refine ⟨delta, hd, ?_⟩
  have hmem : key ∈ delta.rows kind := by
    rw [← Std.TreeMap.contains_iff_mem, Std.TreeMap.contains_eq_isSome_getElem?, hrow]
    rfl
  have hkeys := Std.TreeMap.mem_keys.mpr hmem
  cases kind with
  | leaves => exact List.mem_append_left _ hkeys
  | nodes => exact List.mem_append_right _ hkeys

namespace BranchCache

variable {φ : Type} {c : BranchCache φ} {slot : Nat} {branch : Branch}

theorem chain_eq (hc : c.Indexed) (h : c.branches.get? slot = some branch) :
    c.chain branch.state.root =
      (Branch.ancestry c.branches slot).map fun entry => entry.2.state := by
  have hroot := (hc.roots branch.state.root slot).mpr ⟨branch, h, rfl⟩
  simp [chain, hroot]

theorem tracked_of_mem_chain {root : Hash} {state : BlockState} (h : state ∈ c.chain root) :
    ∃ slot branch, c.branches.get? slot = some branch ∧ branch.state = state := by
  unfold chain at h
  split at h
  · obtain ⟨entry, hentry, rfl⟩ := List.mem_map.mp h
    exact ⟨entry.1, entry.2, Branch.get?_of_mem_ancestry hentry, rfl⟩
  · cases h

/-- A key that the filter denies is in no tracked delta, so the walk it spares finds nothing. -/
theorem lookup_eq_chainLookup [KeyFilter φ] (hc : c.Covers) (kind : DeltaKind) (key : Bytes)
    (root : Hash) : c.lookup kind key root = c.chainLookup kind key root := by
  unfold lookup
  split
  · rfl
  · next hdenied =>
    symm
    rw [chainLookup, List.findSome?_eq_none_iff]
    intro state hstate
    obtain ⟨slot, branch, hlive, rfl⟩ := tracked_of_mem_chain hstate
    cases hchange : branch.state.change? kind key with
    | none => rfl
    | some value =>
      obtain ⟨delta, hd, hkey⟩ := mem_keys_of_change? hchange
      exact (hdenied (hc key (mem_trackedKeys.mpr ⟨slot, branch, delta, hlive, hd, hkey⟩))).elim

end BranchCache

end StateSync.Store
