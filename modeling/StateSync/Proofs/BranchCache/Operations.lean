import Mathlib
import StateSync.Proofs.BranchCache.Structure

/-! What tracking, forgetting and moving the base do to slots, roots and filter. -/

namespace StateSync.Store.BranchCache

variable {φ : Type} {c : BranchCache φ} {slot other base next : Nat} {branch up above : Branch}

section Track

variable [KeyFilter φ]

theorem get?_track (ha : c.branches.WellFormed) (branch : Branch) (slot : Nat) :
    (c.track branch).2.branches.get? slot =
      if slot = (c.track branch).1 then some branch else c.branches.get? slot :=
  Arena.get?_insert ha branch slot

theorem get?_track_slot (ha : c.branches.WellFormed) (branch : Branch) :
    c.branches.get? (c.track branch).1 = none :=
  Arena.get?_insert_slot ha branch

theorem get?_track_of_get? (ha : c.branches.WellFormed) {tracked : Branch} (branch : Branch)
    (h : c.branches.get? slot = some tracked) :
    (c.track branch).2.branches.get? slot = some tracked := by
  have hne : slot ≠ (c.track branch).1 := by
    rintro rfl
    simp [get?_track_slot ha] at h
  rw [get?_track ha, if_neg hne, h]

@[simp] theorem base_track : (c.track branch).2.base = c.base := rfl

@[simp] theorem span_track : (c.track branch).2.span = c.span := rfl

@[simp] theorem version_track : (c.track branch).2.version = c.version + 1 := rfl

theorem getElem?_roots_track (c : BranchCache φ) (branch : Branch) (root : Hash) :
    (c.track branch).2.roots[root]? =
      if branch.state.root = root then some (c.track branch).1 else c.roots[root]? := by
  show (c.roots.insert branch.state.root (c.track branch).1)[root]? = _
  simp [Std.TreeMap.getElem?_insert]

theorem indexed_track (hc : c.Indexed) (hfresh : c.contains branch.state.root = false) :
    (c.track branch).2.Indexed := by
  refine ⟨Arena.wellFormed_insert hc.arena branch, ?_⟩
  intro root slot
  rw [getElem?_roots_track, get?_track hc.arena]
  have hvacant := get?_track_slot hc.arena branch
  by_cases hroot : branch.state.root = root <;> by_cases hslot : slot = (c.track branch).1
  · simp [hroot, hslot]
  · simp only [hroot, hslot, if_true, if_false, Option.some.injEq]
    constructor
    · exact fun he => (hslot he.symm).elim
    · rintro ⟨tracked, h, he⟩
      exact (hc.root_ne hfresh h (he.trans hroot.symm)).elim
  · simp only [hroot, hslot, if_true, if_false]
    constructor
    · intro h
      obtain ⟨tracked, ht, _⟩ := (hc.roots root _).mp h
      simp [hvacant] at ht
    · rintro ⟨tracked, h, he⟩
      exact (hroot (Option.some.inj h ▸ he)).elim
  · simpa [hroot, hslot] using hc.roots root slot

/-- A new branch on an older one keeps the tree; no other branch or link changes. -/
theorem wellFormed_track (hc : c.WellFormed) {parent : Nat}
    (hfresh : c.contains branch.state.root = false) (hp : branch.parent = some parent)
    (hup : c.branches.get? parent = some up) (hlt : up.state.block < branch.state.block) :
    (c.track branch).2.WellFormed := by
  have hget := get?_track hc.arena branch
  have hvacant := get?_track_slot hc.arena branch
  have hkept : ∀ slot tracked, c.branches.get? slot = some tracked →
      (c.track branch).2.branches.get? slot = some tracked :=
    fun _ _ h => get?_track_of_get? hc.arena branch h
  have hbase : c.base ≠ some (c.track branch).1 := by
    intro hb
    obtain ⟨_, h, _⟩ := hc.base_branch hb
    simp [hvacant] at h
  refine { indexed_track hc.toIndexed hfresh with
    base_live := ?_, base_delta := ?_, base_iff := ?_, linked := ?_ }
  · intro slot hb
    obtain ⟨tracked, h⟩ := hc.base_live slot hb
    exact ⟨tracked, hkept slot tracked h⟩
  · intro slot tracked hb h
    obtain ⟨root, hroot⟩ := hc.base_live slot hb
    obtain rfl := Option.some.inj ((hkept slot root hroot).symm.trans h)
    exact hc.base_delta slot root hb hroot
  · intro slot tracked h
    rw [hget] at h
    split at h
    · next hslot =>
      obtain rfl := Option.some.inj h
      simpa [hp, hslot] using hbase
    · exact hc.base_iff slot tracked h
  · intro slot tracked link h hlink
    rw [hget] at h
    split at h
    · obtain rfl := Option.some.inj h
      obtain rfl := Option.some.inj (hp.symm.trans hlink)
      exact ⟨up, hkept _ up hup, hlt⟩
    · obtain ⟨down, hdown, hdlt⟩ := hc.linked slot tracked link h hlink
      exact ⟨down, hkept _ down hdown, hdlt⟩

end Track

section Forget

theorem forget_vacant (h : c.branches.get? slot = none) : c.forget slot = c := by
  simp [forget, state?, h]

theorem forget_live (h : c.branches.get? slot = some branch) : c.forget slot =
    { c with branches := c.branches.remove slot, roots := c.roots.erase branch.state.root } := by
  simp [forget, state?, h]

theorem get?_forget (c : BranchCache φ) (gone slot : Nat) :
    (c.forget gone).branches.get? slot = if slot = gone then none else c.branches.get? slot := by
  cases h : c.branches.get? gone with
  | none =>
    rw [forget_vacant h]
    split
    · next he => rw [he, h]
    · rfl
  | some lost =>
    rw [forget_live h]
    split
    · next he => exact he ▸ Arena.get?_remove_self c.branches slot
    · next he => exact Arena.get?_remove_of_ne _ (Ne.symm he)

@[simp] theorem base_forget : (c.forget slot).base = c.base := by
  unfold forget; split <;> rfl

@[simp] theorem span_forget : (c.forget slot).span = c.span := by
  unfold forget; split <;> rfl

@[simp] theorem version_forget : (c.forget slot).version = c.version := by
  unfold forget; split <;> rfl

theorem indexed_forget (hc : c.Indexed) (gone : Nat) : (c.forget gone).Indexed := by
  cases h : c.branches.get? gone with
  | none => rwa [forget_vacant h]
  | some lost =>
    refine ⟨by rw [forget_live h]; exact Arena.wellFormed_remove hc.arena gone, ?_⟩
    intro root slot
    have hroots : (c.forget gone).roots[root]? =
        if lost.state.root = root then none else c.roots[root]? := by
      simp [forget_live h, Std.TreeMap.getElem?_erase]
    rw [hroots, get?_forget]
    by_cases hroot : lost.state.root = root <;> by_cases hslot : slot = gone
    · simp [hroot, hslot]
    · simp only [hroot, hslot, if_true, if_false, reduceCtorEq, false_iff]
      rintro ⟨branch, hb, he⟩
      exact hslot (hc.slot_unique hb h (he.trans hroot.symm))
    · simp only [hroot, hslot, if_true, if_false, reduceCtorEq, false_and, exists_false, iff_false]
      intro hr
      obtain ⟨branch, hb, he⟩ := (hc.roots root gone).mp hr
      obtain rfl := Option.some.inj (h.symm.trans hb)
      exact hroot he
    · simpa [hroot, hslot] using hc.roots root slot

/-- Forgetting slots one after another frees exactly these slots. -/
theorem get?_foldl_forget (slots : List Nat) (c : BranchCache φ) (slot : Nat) :
    (slots.foldl forget c).branches.get? slot =
      if slot ∈ slots then none else c.branches.get? slot := by
  induction slots generalizing c with
  | nil => simp
  | cons gone slots ih =>
    rw [List.foldl_cons, ih, get?_forget]
    by_cases he : slot = gone <;> by_cases hm : slot ∈ slots <;> simp [he, hm]

theorem foldl_forget_keeps (slots : List Nat) (c : BranchCache φ) :
    (slots.foldl forget c).base = c.base ∧ (slots.foldl forget c).span = c.span ∧
      (slots.foldl forget c).version = c.version := by
  induction slots generalizing c with
  | nil => exact ⟨rfl, rfl, rfl⟩
  | cons gone slots ih => simpa using ih (c.forget gone)

theorem indexed_foldl_forget (slots : List Nat) (hc : c.Indexed) :
    (slots.foldl forget c).Indexed := by
  induction slots generalizing c with
  | nil => exact hc
  | cons gone slots ih => exact ih (indexed_forget hc gone)

theorem get?_forgetDetached (c : BranchCache φ) (base slot : Nat) :
    (c.forgetDetached base).branches.get? slot =
      if c.reaches base slot then c.branches.get? slot else none := by
  rw [forgetDetached, get?_foldl_forget]
  cases h : c.branches.get? slot with
  | none => simp
  | some branch =>
    have hlive : slot ∈ c.branches.live := Arena.mem_live.mpr ⟨branch, h⟩
    cases hr : c.reaches base slot <;> simp [List.mem_filter, hlive, hr]

theorem forgetDetached_keeps (c : BranchCache φ) (base : Nat) :
    (c.forgetDetached base).base = c.base ∧ (c.forgetDetached base).span = c.span ∧
      (c.forgetDetached base).version = c.version :=
  foldl_forget_keeps _ c

theorem indexed_forgetDetached (hc : c.Indexed) (base : Nat) : (c.forgetDetached base).Indexed :=
  indexed_foldl_forget _ hc

end Forget

section Rebase

@[simp] theorem base_rebase : (c.rebase base next).base = some next := rfl

@[simp] theorem span_rebase : (c.rebase base next).span = c.span := by
  show (c.forget base).span = c.span
  rw [span_forget]

@[simp] theorem version_rebase : (c.rebase base next).version = c.version + 1 := by
  show (c.forget base).version + 1 = c.version + 1
  rw [version_forget]

theorem get?_rebase (hne : next ≠ base) (h : c.branches.get? next = some branch) (slot : Nat) :
    (c.rebase base next).branches.get? slot =
      if slot = next then some branch.asBase
      else if slot = base then none else c.branches.get? slot := by
  show ((c.forget base).branches.modify next Branch.asBase).get? slot = _
  rw [Arena.get?_modify, get?_forget]
  by_cases hs : slot = next
  · subst hs
    simp [hne, h]
  · simp [hs, Ne.symm hs]

theorem indexed_rebase (hc : c.Indexed) (base next : Nat) : (c.rebase base next).Indexed := by
  have hf := indexed_forget hc base
  refine ⟨Arena.wellFormed_modify hf.arena next Branch.asBase, ?_⟩
  intro root slot
  show (c.forget base).roots[root]? = some slot ↔
    ∃ branch, ((c.forget base).branches.modify next Branch.asBase).get? slot = some branch ∧ _
  rw [hf.roots, Arena.get?_modify]
  by_cases hs : next = slot
  · subst hs
    simp
  · simp [hs]

/-- The new base is reached from where it was reached before: no link but its own is cut. -/
theorem reaches_rebase (hc : c.WellFormed) (hb : c.base = some base)
    (hnext : c.branches.get? next = some above) (hp : above.parent = some base) (slot : Nat) :
    (c.rebase base next).reaches next slot = c.reaches next slot := by
  have hne := hc.ne_base_of_parent hb hnext hp
  have hget := get?_rebase hne hnext
  obtain ⟨root, hroot, hrp, _⟩ := hc.base_branch hb
  cases h : c.branches.get? slot with
  | none =>
    have hvacant : (c.rebase base next).branches.get? slot = none := by
      rw [hget, if_neg (by rintro rfl; simp [hnext] at h), h]
      simp
    rw [reaches_vacant h, reaches_vacant hvacant]
  | some branch =>
    refine hc.induction (motive := fun slot _ => (c.rebase base next).reaches next slot =
      c.reaches next slot) ?_ ?_ slot branch h
    · intro slot branch hbase hslot hsp
      obtain rfl := Option.some.inj (hb.symm.trans hbase)
      have hvacant : (c.rebase base next).branches.get? base = none := by
        rw [hget, if_neg (Ne.symm hne), if_pos rfl]
      simp [reaches_vacant hvacant, reaches_root hslot hsp, Ne.symm hne]
    · intro slot branch parent up hslot hsp hup hlt ih
      by_cases hs : slot = next
      · subst hs
        have hself : (c.rebase base slot).branches.get? slot = some above.asBase := by
          rw [hget, if_pos rfl]
        rw [reaches_self hself, reaches_self hslot]
      · have hkept : (c.rebase base next).branches.get? slot = some branch := by
          rw [hget, if_neg hs, if_neg (hc.ne_base_of_parent hb hslot hsp), hslot]
        rw [reaches_link hslot hsp hup hlt]
        by_cases hpb : parent = base
        · subst hpb
          have hvacant : (c.rebase parent next).branches.get? parent = none := by
            rw [hget, if_neg (Ne.symm hne), if_pos rfl]
          rw [reaches, Branch.ancestry_dangling hkept hsp hvacant, reaches_root hroot hrp]
          simp [Ne.symm hne]
        · rw [← ih]
          by_cases hpn : parent = next
          · subst hpn
            have hself : (c.rebase base parent).branches.get? parent = some above.asBase := by
              rw [hget, if_pos rfl]
            obtain rfl := Option.some.inj (hup.symm.trans hnext)
            exact reaches_link hkept hsp hself hlt
          · have hup' : (c.rebase base next).branches.get? parent = some up := by
              rw [hget, if_neg hpn, if_neg hpb, hup]
            exact reaches_link hkept hsp hup' hlt

end Rebase

section Filter

variable [KeyFilter φ]

@[simp] theorem branches_rebuildFilter : c.rebuildFilter.branches = c.branches := rfl

@[simp] theorem base_rebuildFilter : c.rebuildFilter.base = c.base := rfl

@[simp] theorem span_rebuildFilter : c.rebuildFilter.span = c.span := rfl

@[simp] theorem version_rebuildFilter : c.rebuildFilter.version = c.version := rfl

@[simp] theorem trackedKeys_rebuildFilter : c.rebuildFilter.trackedKeys = c.trackedKeys := rfl

theorem filter_rebuildFilter (c : BranchCache φ) : c.rebuildFilter.filter =
    KeyFilter.insertAll (KeyFilter.empty c.rebuildFilter.trackedKeys.length)
      c.rebuildFilter.trackedKeys := by
  rw [trackedKeys_rebuildFilter]
  rfl

theorem indexed_rebuildFilter (hc : c.Indexed) : c.rebuildFilter.Indexed := ⟨hc.arena, hc.roots⟩

end Filter

end StateSync.Store.BranchCache
