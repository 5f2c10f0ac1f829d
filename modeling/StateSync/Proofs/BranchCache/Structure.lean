import Mathlib
import StateSync.Proofs.Arena
import StateSync.Store.BranchCache

/-! The tree of a branch cache: every link leads to an older branch, and all walks to the base. -/

namespace StateSync.Store

namespace Branch

variable {branches : Arena Branch} {slot parent : Nat} {branch up : Branch}

theorem ancestry_root (h : branches.get? slot = some branch) (hp : branch.parent = none) :
    ancestry branches slot = [(slot, branch)] := by
  rw [ancestry]
  simp [h, hp]

theorem ancestry_dangling (h : branches.get? slot = some branch) (hp : branch.parent = some parent)
    (hup : branches.get? parent = none) : ancestry branches slot = [(slot, branch)] := by
  rw [ancestry]
  simp only [h, hp]
  rw [ancestry]
  simp [hup]

theorem ancestry_link (h : branches.get? slot = some branch) (hp : branch.parent = some parent)
    (hup : branches.get? parent = some up) (hlt : up.state.block < branch.state.block) :
    ancestry branches slot = (slot, branch) :: ancestry branches parent := by
  have hheight : height branches parent < height branches slot := by
    have := UInt64.lt_iff_toNat_lt.mp hlt
    simpa [height, h, hup] using this
  conv => lhs; rw [ancestry]
  simp only [h, hp, if_pos hheight]

theorem ancestry_ne_nil (h : branches.get? slot = some branch) : ancestry branches slot ≠ [] := by
  rw [ancestry]
  simp [h]

theorem get?_of_mem_ancestry {entry : Nat × Branch} (h : entry ∈ ancestry branches slot) :
    branches.get? entry.1 = some entry.2 := by
  fun_induction ancestry branches slot with
  | case1 slot _ => cases h
  | case2 slot branch hlive ih =>
    rcases List.mem_cons.mp h with rfl | h
    · exact hlive
    · split at h
      · cases h
      · next parent _ =>
        split at h
        · next hheight => exact ih parent hheight h
        · cases h

/-- Heights fall along every walk. -/
theorem sorted_ancestry (branches : Arena Branch) (slot : Nat) :
    (ancestry branches slot).Pairwise fun a b => height branches b.1 < height branches a.1 := by
  have walk : (∀ entry ∈ ancestry branches slot, height branches entry.1 ≤ height branches slot) ∧
      (ancestry branches slot).Pairwise
        fun a b => height branches b.1 < height branches a.1 := by
    fun_induction ancestry branches slot with
    | case1 slot _ => simp
    | case2 slot branch hlive ih =>
      split
      · simp
      · next parent _ =>
        split
        · next hheight =>
          obtain ⟨lower, sorted⟩ := ih parent hheight
          have below : ∀ entry ∈ ancestry branches parent,
              height branches entry.1 < height branches slot :=
            fun entry mem => (lower entry mem).trans_lt hheight
          refine ⟨fun entry mem => ?_, List.pairwise_cons.mpr ⟨below, sorted⟩⟩
          rcases List.mem_cons.mp mem with rfl | mem
          · exact le_rfl
          · exact (below entry mem).le
        · simp
  exact walk.2

/-- No walk comes to a slot twice. -/
theorem nodup_slots_ancestry (branches : Arena Branch) (slot : Nat) :
    ((ancestry branches slot).map Prod.fst).Nodup :=
  List.pairwise_map.mpr ((sorted_ancestry branches slot).imp fun lower same =>
    (same ▸ lower).false)

/-- No walk is longer than there are branches. -/
theorem length_ancestry_le (branches : Arena Branch) (slot : Nat) :
    (ancestry branches slot).length ≤ branches.size := by
  have nodup := (nodup_slots_ancestry branches slot).of_map Prod.fst
  have tracked : ancestry branches slot ⊆ branches.toList :=
    fun entry mem => Arena.mem_toList.mpr (get?_of_mem_ancestry mem)
  exact (nodup.subperm tracked).length_le

/-- The branch that takes the place of the base: it keeps its block and root only. -/
def asBase (branch : Branch) : Branch :=
  { branch with state := { branch.state with delta := none }, parent := none }

@[simp] theorem asBase_block : branch.asBase.state.block = branch.state.block := rfl

@[simp] theorem asBase_root : branch.asBase.state.root = branch.state.root := rfl

@[simp] theorem asBase_delta : branch.asBase.state.delta = none := rfl

@[simp] theorem asBase_parent : branch.asBase.parent = none := rfl

end Branch

namespace BranchCache

variable {φ : Type} {c : BranchCache φ} {slot parent : Nat} {branch up : Branch}

/-- The root map leads from the root of every branch to its slot, and nowhere else. -/
structure Indexed (c : BranchCache φ) : Prop where
  arena : c.branches.WellFormed
  roots : ∀ root slot, c.roots[root]? = some slot ↔
    ∃ branch, c.branches.get? slot = some branch ∧ branch.state.root = root

/-- Only the base lacks a parent; every other branch has one that is tracked and older. -/
structure WellFormed (c : BranchCache φ) : Prop extends Indexed c where
  base_live : ∀ slot, c.base = some slot → ∃ branch, c.branches.get? slot = some branch
  base_delta : ∀ slot branch, c.base = some slot → c.branches.get? slot = some branch →
    branch.state.delta = none
  base_iff : ∀ slot branch, c.branches.get? slot = some branch →
    (branch.parent = none ↔ c.base = some slot)
  linked : ∀ slot branch parent, c.branches.get? slot = some branch →
    branch.parent = some parent →
    ∃ up, c.branches.get? parent = some up ∧ up.state.block < branch.state.block

theorem state?_eq (h : c.branches.get? slot = some branch) : c.state? slot = some branch.state := by
  simp [state?, h]

theorem baseState?_eq (hb : c.base = some slot) (h : c.branches.get? slot = some branch) :
    c.baseState? = some branch.state := by
  simp [baseState?, hb, state?_eq h]

theorem Indexed.slot_unique (hc : c.Indexed) {other : Nat} {twin : Branch}
    (h : c.branches.get? slot = some branch) (ht : c.branches.get? other = some twin)
    (hroot : branch.state.root = twin.state.root) : slot = other := by
  have hs := (hc.roots branch.state.root slot).mpr ⟨branch, h, rfl⟩
  have ho := (hc.roots branch.state.root other).mpr ⟨twin, ht, hroot.symm⟩
  exact Option.some.inj (hs.symm.trans ho)

theorem Indexed.contains_iff (hc : c.Indexed) (root : Hash) :
    c.contains root = true ↔
      ∃ slot branch, c.branches.get? slot = some branch ∧ branch.state.root = root := by
  rw [contains, Std.TreeMap.contains_eq_isSome_getElem?, Option.isSome_iff_exists]
  exact exists_congr fun slot => hc.roots root slot

theorem Indexed.root_ne (hc : c.Indexed) {root : Hash} (hfresh : c.contains root = false)
    (h : c.branches.get? slot = some branch) : branch.state.root ≠ root := by
  intro he
  have known := (hc.contains_iff root).mpr ⟨slot, branch, h, he⟩
  cases hfresh.symm.trans known

/-- What holds of the base and passes from a parent to its children holds of every branch. -/
theorem WellFormed.induction (hc : c.WellFormed) {motive : Nat → Branch → Prop}
    (root : ∀ slot branch, c.base = some slot → c.branches.get? slot = some branch →
      branch.parent = none → motive slot branch)
    (link : ∀ slot branch parent up, c.branches.get? slot = some branch →
      branch.parent = some parent → c.branches.get? parent = some up →
      up.state.block < branch.state.block → motive parent up → motive slot branch)
    (slot : Nat) (branch : Branch) (h : c.branches.get? slot = some branch) :
    motive slot branch := by
  induction hn : branch.state.block.toNat using Nat.strong_induction_on
    generalizing slot branch with
  | _ n ih =>
    cases hp : branch.parent with
    | none => exact root slot branch ((hc.base_iff slot branch h).mp hp) h hp
    | some parent =>
      obtain ⟨up, hup, hlt⟩ := hc.linked slot branch parent h hp
      have hblock := UInt64.lt_iff_toNat_lt.mp hlt
      exact link slot branch parent up h hp hup hlt (ih _ (by omega) parent up hup rfl)

/-- A cache without a base tracks nothing. -/
theorem WellFormed.get?_of_base_none (hc : c.WellFormed) (hb : c.base = none) (slot : Nat) :
    c.branches.get? slot = none := by
  cases h : c.branches.get? slot with
  | none => rfl
  | some branch =>
    refine (hc.induction (motive := fun _ _ => False) ?_ ?_ slot branch h).elim
    · intro slot branch hbase
      simp [hb] at hbase
    · intro _ _ _ _ _ _ _ _ hf
      exact hf

/-- A cache that tracks anything has a base. -/
theorem WellFormed.exists_base (hc : c.WellFormed) {slot : Nat} {branch : Branch}
    (h : c.branches.get? slot = some branch) :
    ∃ base root, c.base = some base ∧ c.branches.get? base = some root := by
  cases hb : c.base with
  | none => cases (hc.get?_of_base_none hb slot).symm.trans h
  | some base =>
    obtain ⟨root, hroot⟩ := hc.base_live base hb
    exact ⟨base, root, rfl, hroot⟩

/-- The branch of the base, which has no parent and no changes. -/
theorem WellFormed.base_branch (hc : c.WellFormed) {base : Nat} (hb : c.base = some base) :
    ∃ branch, c.branches.get? base = some branch ∧ branch.parent = none ∧
      branch.state.delta = none := by
  obtain ⟨branch, h⟩ := hc.base_live base hb
  exact ⟨branch, h, (hc.base_iff base branch h).mpr hb, hc.base_delta base branch hb h⟩

theorem WellFormed.ne_base_of_parent (hc : c.WellFormed) {base : Nat} (hb : c.base = some base)
    (h : c.branches.get? slot = some branch) (hp : branch.parent = some parent) : slot ≠ base := by
  rintro rfl
  simp [(hc.base_iff slot branch h).mpr hb] at hp

theorem reaches_self {base : Nat} (h : c.branches.get? base = some branch) :
    c.reaches base base = true := by
  rw [reaches, Branch.ancestry]
  simp [h]

theorem reaches_root {base : Nat} (h : c.branches.get? slot = some branch)
    (hp : branch.parent = none) : c.reaches base slot = (slot == base) := by
  simp [reaches, Branch.ancestry_root h hp]

theorem reaches_link {base : Nat} (h : c.branches.get? slot = some branch)
    (hp : branch.parent = some parent) (hup : c.branches.get? parent = some up)
    (hlt : up.state.block < branch.state.block) :
    c.reaches base slot = (slot == base || c.reaches base parent) := by
  simp [reaches, Branch.ancestry_link h hp hup hlt]

theorem reaches_vacant {base : Nat} (h : c.branches.get? slot = none) :
    c.reaches base slot = false := by
  rw [reaches, Branch.ancestry]
  simp [h]

/-- No branch is older than the base. -/
theorem WellFormed.base_le (hc : c.WellFormed) {base : Nat} {root : Branch}
    (hb : c.base = some base) (hroot : c.branches.get? base = some root)
    (h : c.branches.get? slot = some branch) : root.state.block ≤ branch.state.block := by
  refine hc.induction (motive := fun _ branch => root.state.block ≤ branch.state.block)
    ?_ ?_ slot branch h
  · intro slot branch hbase hslot _
    obtain rfl := Option.some.inj (hb.symm.trans hbase)
    obtain rfl := Option.some.inj (hroot.symm.trans hslot)
    exact UInt64.le_refl _
  · intro slot branch parent up _ _ _ hlt ih
    exact UInt64.le_of_lt (UInt64.lt_of_le_of_lt ih hlt)

theorem nextToBase?_link {base : Nat} (h : c.branches.get? slot = some branch)
    (hp : branch.parent = some parent) (hup : c.branches.get? parent = some up)
    (hlt : up.state.block < branch.state.block) :
    c.nextToBase? base slot =
      if parent = base then some (slot, branch) else c.nextToBase? base parent := by
  rw [nextToBase?, Branch.ancestry_link h hp hup hlt]
  by_cases hpb : parent = base
  · simp [hp, hpb]
  · simp [hp, hpb, nextToBase?]

/-- From every branch but the base, the walk comes to a branch right above the base. -/
theorem WellFormed.nextToBase (hc : c.WellFormed) {base : Nat} (hb : c.base = some base)
    (h : c.branches.get? slot = some branch) (hne : slot ≠ base) :
    ∃ next above, c.nextToBase? base slot = some (next, above) ∧
      c.branches.get? next = some above ∧ above.parent = some base := by
  revert hne
  refine hc.induction (motive := fun slot _ => slot ≠ base →
    ∃ next above, c.nextToBase? base slot = some (next, above) ∧
      c.branches.get? next = some above ∧ above.parent = some base) ?_ ?_ slot branch h
  · intro slot branch hbase _ _ hne
    exact (hne (Option.some.inj (hbase.symm.trans hb))).elim
  · intro slot branch parent up hslot hp hup hlt ih _
    rw [nextToBase?_link hslot hp hup hlt]
    by_cases hpb : parent = base
    · subst hpb
      exact ⟨slot, branch, if_pos rfl, hslot, hp⟩
    · rw [if_neg hpb]
      exact ih hpb

end BranchCache

end StateSync.Store
