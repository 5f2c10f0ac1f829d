import Mathlib
import StateSync.Proofs.BranchCache.Operations

/-! What an insert does, case by case. A flatten is described by the branches that stay. -/

namespace StateSync.Store.BranchCache

variable {φ : Type} [KeyFilter φ] {c moved : BranchCache φ} {base next slot parent : Nat}
  {branch above : Branch} {state : BlockState} {parentRoot : Hash}

/-- The base moved to the branch right above it: what leads there stays, all else is gone. -/
structure Moved (c moved : BranchCache φ) (base next : Nat) (above : Branch) : Prop where
  live : c.branches.get? next = some above
  parent : above.parent = some base
  indexed : moved.Indexed
  get? : ∀ slot, moved.branches.get? slot =
    if slot = next then some above.asBase
    else if c.reaches next slot then c.branches.get? slot else none
  base : moved.base = some next
  span : moved.span = c.span
  version : moved.version = c.version + 1
  filter : moved.filter =
    KeyFilter.insertAll (KeyFilter.empty moved.trackedKeys.length) moved.trackedKeys

/-- The state fits on top of the branch in a slot: its root is new and its block is newer. -/
structure Fits (c : BranchCache φ) (state : BlockState) (parentRoot : Hash) (parent : Nat) :
    Prop where
  fresh : c.contains state.root = false
  onto : ∃ up, c.branches.get? parent = some up ∧ up.state.root = parentRoot ∧
    up.state.block < state.block

/-- What a successful insert hands out and leaves behind. -/
inductive Inserted (c : BranchCache φ) (base : Nat) (state : BlockState) (parentRoot : Hash) :
    Option BlockState → BranchCache φ → Prop
  | ignored (known : c.contains state.root = true) : Inserted c base state parentRoot none c
  | tracked {parent : Nat} (fits : c.Fits state parentRoot parent)
      (near : (c.track ⟨state, some parent⟩).2.withinSpan state.block = true ∨ parent = base) :
      Inserted c base state parentRoot none (c.track ⟨state, some parent⟩).2
  | moved {parent next : Nat} {above : Branch} {moved : BranchCache φ}
      (fits : c.Fits state parentRoot parent)
      (far : (c.track ⟨state, some parent⟩).2.withinSpan state.block = false)
      (leads : (c.track ⟨state, some parent⟩).2.reaches next
        (c.track ⟨state, some parent⟩).1 = true)
      (shift : Moved (c.track ⟨state, some parent⟩).2 moved base next above) :
      Inserted c base state parentRoot (some above.state) moved

theorem Fits.wellFormed (hf : c.Fits state parentRoot parent) (hc : c.WellFormed) :
    (c.track ⟨state, some parent⟩).2.WellFormed := by
  obtain ⟨up, hup, _, hlt⟩ := hf.onto
  exact wellFormed_track hc hf.fresh rfl hup hlt

/-- The links are the old ones, and that of the new branch to the one it fits on. -/
theorem Fits.link (hf : c.Fits state parentRoot parent) (hc : c.WellFormed) {target : Nat}
    {up : Branch}
    (hlive : (c.track ⟨state, some parent⟩).2.branches.get? slot = some branch)
    (hlink : branch.parent = some target)
    (hup : (c.track ⟨state, some parent⟩).2.branches.get? target = some up) :
    branch.state = state ∧ c.branches.get? parent = some up ∧ up.state.root = parentRoot ∨
      c.branches.get? slot = some branch ∧ c.branches.get? target = some up := by
  obtain ⟨onto, honto, hroot, _⟩ := hf.onto
  rw [get?_track hc.arena] at hlive
  split at hlive
  · obtain rfl := Option.some.inj hlive
    obtain rfl := Option.some.inj hlink
    have still := get?_track_of_get? hc.arena ⟨state, some parent⟩ honto
    obtain rfl := Option.some.inj (still.symm.trans hup)
    exact .inl ⟨rfl, honto, hroot⟩
  · obtain ⟨down, hdown, _⟩ := hc.linked slot branch target hlive hlink
    have still := get?_track_of_get? hc.arena ⟨state, some parent⟩ hdown
    obtain rfl := Option.some.inj (still.symm.trans hup)
    exact .inr ⟨hlive, hdown⟩

theorem moved_flatten (hc : c.WellFormed) (hb : c.base = some base)
    (hnext : c.branches.get? next = some above) (hp : above.parent = some base) :
    Moved c ((c.rebase base next).forgetDetached next).rebuildFilter base next above := by
  have hne := hc.ne_base_of_parent hb hnext hp
  have hkeeps := forgetDetached_keeps (c.rebase base next) next
  have hindexed := indexed_forgetDetached (indexed_rebase hc.toIndexed base next) next
  refine
    { live := hnext, parent := hp, indexed := indexed_rebuildFilter hindexed, get? := ?_,
      base := ?_, span := ?_, version := ?_, filter := filter_rebuildFilter _ }
  · intro slot
    rw [branches_rebuildFilter, get?_forgetDetached, reaches_rebase hc hb hnext hp,
      get?_rebase hne hnext]
    by_cases hs : slot = next
    · simp [hs, reaches_self hnext]
    · by_cases hsb : slot = base
      · obtain ⟨root, hroot, hrp, _⟩ := hc.base_branch hb
        simp [hsb, Ne.symm hne, reaches_root hroot hrp]
      · simp [hs, hsb]
  · rw [base_rebuildFilter, hkeeps.1, base_rebase]
  · rw [span_rebuildFilter, hkeeps.2.1, span_rebase]
  · rw [version_rebuildFilter, hkeeps.2.2, version_rebase]

theorem Moved.get?_next (hm : Moved c moved base next above) :
    moved.branches.get? next = some above.asBase := by
  rw [hm.get?, if_pos rfl]

/-- All branches but the new base are as they were. -/
theorem Moved.get?_of_ne (hm : Moved c moved base next above) (hs : slot ≠ next) :
    moved.branches.get? slot = some branch ↔
      c.reaches next slot = true ∧ c.branches.get? slot = some branch := by
  rw [hm.get?, if_neg hs]
  split
  · next hr => simp [hr]
  · next hr => simp [hr]

/-- A branch that stays keeps its root and block. -/
theorem Moved.exists_old (hm : Moved c moved base next above)
    (h : moved.branches.get? slot = some branch) :
    ∃ old, c.branches.get? slot = some old ∧ old.state.root = branch.state.root ∧
      old.state.block = branch.state.block := by
  by_cases hs : slot = next
  · subst hs
    obtain rfl := Option.some.inj (hm.get?_next.symm.trans h)
    exact ⟨above, hm.live, rfl, rfl⟩
  · exact ⟨branch, ((hm.get?_of_ne hs).mp h).2, rfl, rfl⟩

/-- Moving the base cuts links, but redirects none. -/
theorem Moved.link (hm : Moved c moved base next above) {up : Branch}
    (hlive : moved.branches.get? slot = some branch) (hp : branch.parent = some parent)
    (hup : moved.branches.get? parent = some up) :
    ∃ old, c.branches.get? slot = some branch ∧ c.branches.get? parent = some old ∧
      old.state.root = up.state.root ∧ old.state.block = up.state.block := by
  have hne : slot ≠ next := by
    rintro rfl
    obtain rfl := Option.some.inj (hm.get?_next.symm.trans hlive)
    cases hp
  obtain ⟨old, hold, same⟩ := hm.exists_old hup
  exact ⟨old, ((hm.get?_of_ne hne).mp hlive).2, hold, same⟩

/-- Moving the base keeps the tree. -/
theorem Moved.wellFormed (hm : Moved c moved base next above) (hc : c.WellFormed)
    (hb : c.base = some base) : moved.WellFormed := by
  have hne := hc.ne_base_of_parent hb hm.live hm.parent
  obtain ⟨root, hroot, hrp, _⟩ := hc.base_branch hb
  have hself := hm.get?_next
  refine { hm.indexed with base_live := ?_, base_delta := ?_, base_iff := ?_, linked := ?_ }
  · intro slot hslot
    obtain rfl := Option.some.inj (hm.base.symm.trans hslot)
    exact ⟨above.asBase, hself⟩
  · intro slot branch hslot h
    obtain rfl := Option.some.inj (hm.base.symm.trans hslot)
    obtain rfl := Option.some.inj (hself.symm.trans h)
    rfl
  · intro slot branch h
    by_cases hs : slot = next
    · subst hs
      obtain rfl := Option.some.inj (hself.symm.trans h)
      simp [hm.base]
    · -- The old base is the only branch without a parent, and the new base is not below it.
      obtain ⟨hr, hlive⟩ := (hm.get?_of_ne hs).mp h
      have hparent : branch.parent ≠ none := by
        intro hp
        obtain rfl := Option.some.inj (hb.symm.trans ((hc.base_iff slot branch hlive).mp hp))
        rw [reaches_root hlive hp, beq_iff_eq] at hr
        exact hs hr
      simp [hparent, hm.base, Ne.symm hs]
  · intro slot branch parent h hp
    by_cases hs : slot = next
    · subst hs
      obtain rfl := Option.some.inj (hself.symm.trans h)
      simp at hp
    · obtain ⟨hr, hlive⟩ := (hm.get?_of_ne hs).mp h
      obtain ⟨up, hup, hlt⟩ := hc.linked slot branch parent hlive hp
      by_cases hpn : parent = next
      · subst hpn
        obtain rfl := Option.some.inj (hm.live.symm.trans hup)
        exact ⟨above.asBase, hself, hlt⟩
      · have hpr : c.reaches next parent = true := by
          simpa [reaches_link hlive hp hup hlt, hs] using hr
        exact ⟨up, by rw [hm.get?, if_neg hpn, if_pos hpr, hup], hlt⟩

/-- Flattening never fails: either the branch stands right on the base, or the base moves. -/
theorem flatten_cases (hc : c.WellFormed) (hb : c.base = some base)
    (h : c.branches.get? slot = some branch) (hp : branch.parent = some parent) :
    (parent = base ∧ c.flatten base slot = .ok (none, c)) ∨
    ∃ next above moved, c.reaches next slot = true ∧ Moved c moved base next above ∧
      c.flatten base slot = .ok (some above.state, moved) := by
  obtain ⟨next, above, hnext, hlive, hab⟩ :=
    hc.nextToBase hb h (hc.ne_base_of_parent hb h hp)
  obtain ⟨root, hroot, _⟩ := hc.base_branch hb
  by_cases hs : next = slot
  · subst hs
    obtain rfl := Option.some.inj (h.symm.trans hlive)
    obtain rfl := Option.some.inj (hp.symm.trans hab)
    exact Or.inl ⟨rfl, by simp [flatten, hnext]⟩
  · have hleads : c.reaches next slot = true := by
      have hmem := List.mem_of_find?_eq_some hnext
      exact List.any_eq_true.mpr ⟨_, hmem, by simp⟩
    refine Or.inr ⟨next, above, _, hleads, moved_flatten hc hb hlive hab, ?_⟩
    simp [flatten, hnext, hs, hroot]

/-- A state that fits is tracked, and if it is far ahead of the base, the base moves. -/
theorem Fits.insert_eq (hf : c.Fits state parentRoot parent) (hc : c.WellFormed)
    (hb : c.base = some base) :
    c.insert state.block state.root state.delta parentRoot =
      if (c.track ⟨state, some parent⟩).2.withinSpan state.block then
        .ok (none, (c.track ⟨state, some parent⟩).2)
      else (c.track ⟨state, some parent⟩).2.flatten base (c.track ⟨state, some parent⟩).1 := by
  obtain ⟨up, hup, hroot, hlt⟩ := hf.onto
  have hparent : c.roots[parentRoot]? = some parent :=
    (hc.roots parentRoot parent).mpr ⟨up, hup, hroot⟩
  simp [insert, hb, hf.fresh, hparent, state?_eq hup, UInt64.not_le.mpr hlt]

/-- A state that fits is always inserted: the base can move whenever it has to. -/
theorem Fits.inserted (hf : c.Fits state parentRoot parent) (hc : c.WellFormed)
    (hb : c.base = some base) : ∃ out after,
      c.insert state.block state.root state.delta parentRoot = .ok (out, after) ∧
        Inserted c base state parentRoot out after := by
  have hslot : (c.track ⟨state, some parent⟩).2.branches.get?
      (c.track ⟨state, some parent⟩).1 = some ⟨state, some parent⟩ := by
    rw [get?_track hc.arena, if_pos rfl]
  rw [hf.insert_eq hc hb]
  split
  · next near => exact ⟨_, _, rfl, .tracked hf (.inl near)⟩
  · next far =>
    obtain ⟨hpb, stays⟩ | ⟨next, above, moved, leads, shift, moves⟩ :=
      flatten_cases (hf.wellFormed hc) hb hslot rfl
    · exact ⟨_, _, stays, .tracked hf (.inr hpb)⟩
    · exact ⟨_, _, moves, .moved hf (by simpa using far) leads shift⟩

/-- Every insert that succeeds is one of the three described. -/
theorem inserted_of_insert (hc : c.WellFormed) (hb : c.base = some base) {out : Option BlockState}
    {after : BranchCache φ}
    (h : c.insert state.block state.root state.delta parentRoot = .ok (out, after)) :
    Inserted c base state parentRoot out after := by
  have done := h
  unfold insert at h
  simp only [hb] at h
  split at h
  · next hknown =>
    cases h
    exact .ignored hknown
  · next hfresh =>
    split at h
    · cases h
    · next parent hparent =>
      obtain ⟨up, hup, hroot⟩ := (hc.roots parentRoot parent).mp hparent
      rw [state?_eq hup] at h
      dsimp only at h
      split at h
      · cases h
      · next hnewer =>
        have hfits : c.Fits state parentRoot parent :=
          ⟨by simpa using hfresh, up, hup, hroot, UInt64.not_le.mp hnewer⟩
        obtain ⟨_, _, same, inserted⟩ := hfits.inserted hc hb
        cases same.symm.trans done
        exact inserted

end StateSync.Store.BranchCache
