import Mathlib
import StateSync.Proofs.BranchCache.Reachable

/-!
Inserts without a safety net. A strict insert breaks down where it would read or free a slot that
holds nothing, where a difference of blocks would be negative, and where a walk would take more
steps than there are branches. No cache is ever in a state in which this happens: a strict insert
always comes to its end, and does what an insert does.
-/

namespace StateSync.Store

/-- The difference of two blocks, which must not be negative. -/
def ahead? (block base : UInt64) : Option UInt64 := if base ≤ block then some (block - base) else none

namespace BranchCache

variable {φ : Type} {c : BranchCache φ} {slot base next parent : Nat}
  {branch above up : Branch}

section Walks

/-- Follows the links from a slot, whatever the blocks, to the branch right above the base. -/
def climb? (c : BranchCache φ) (base : Nat) : (steps slot : Nat) → Option (Nat × Branch)
  | 0, _ => none
  | steps + 1, slot =>
    match c.branches.get? slot with
    | none => none
    | some branch =>
      match branch.parent with
      | none => some (slot, branch)
      | some parent => if parent = base then some (slot, branch) else climb? c base steps parent

/-- Follows the links from a slot, whatever the blocks, and tells whether they lead to the base. -/
def leads? (c : BranchCache φ) (base : Nat) : (steps slot : Nat) → Option Bool
  | 0, _ => none
  | steps + 1, slot =>
    if slot = base then some true
    else match c.branches.get? slot with
      | none => some false
      | some branch =>
        match branch.parent with
        | none => some false
        | some parent => leads? c base steps parent

theorem WellFormed.climb?_eq (hc : c.WellFormed) (hb : c.base = some base)
    (h : c.branches.get? slot = some branch) (hne : slot ≠ base) (steps : Nat)
    (hsteps : (Branch.ancestry c.branches slot).length ≤ steps) :
    c.climb? base steps slot = c.nextToBase? base slot := by
  revert hne steps
  refine hc.induction (motive := fun slot _ => slot ≠ base → ∀ steps,
    (Branch.ancestry c.branches slot).length ≤ steps →
      c.climb? base steps slot = c.nextToBase? base slot) ?_ ?_ slot branch h
  · intro slot branch hbase _ _ hne
    exact (hne (Option.some.inj (hbase.symm.trans hb))).elim
  · intro slot branch parent up hslot hp hup hlt ih _ steps hsteps
    rw [Branch.ancestry_link hslot hp hup hlt, List.length_cons] at hsteps
    obtain ⟨steps, rfl⟩ := Nat.exists_eq_succ_of_ne_zero (Nat.ne_zero_of_lt hsteps)
    rw [nextToBase?_link hslot hp hup hlt, climb?, hslot]
    by_cases hpb : parent = base
    · simp [hp, hpb]
    · simp [hp, hpb, ih hpb steps (Nat.le_of_succ_le_succ hsteps)]

/-- The bare links lead to the base from everywhere. -/
theorem WellFormed.leads?_base (hc : c.WellFormed) (hb : c.base = some base)
    (h : c.branches.get? slot = some branch) (steps : Nat)
    (hsteps : (Branch.ancestry c.branches slot).length ≤ steps) :
    c.leads? base steps slot = some true := by
  revert steps
  refine hc.induction (motive := fun slot _ => ∀ steps,
    (Branch.ancestry c.branches slot).length ≤ steps → c.leads? base steps slot = some true)
    ?_ ?_ slot branch h
  · intro slot branch hbase hslot hp steps hsteps
    obtain rfl := Option.some.inj (hb.symm.trans hbase)
    rw [Branch.ancestry_root hslot hp] at hsteps
    obtain ⟨steps, rfl⟩ := Nat.exists_eq_succ_of_ne_zero (Nat.ne_zero_of_lt hsteps)
    simp [leads?]
  · intro slot branch parent up hslot hp hup hlt ih steps hsteps
    rw [Branch.ancestry_link hslot hp hup hlt, List.length_cons] at hsteps
    obtain ⟨steps, rfl⟩ := Nat.exists_eq_succ_of_ne_zero (Nat.ne_zero_of_lt hsteps)
    rw [leads?, if_neg (hc.ne_base_of_parent hb hslot hp), hslot]
    simp [hp, ih steps (Nat.le_of_succ_le_succ hsteps)]

/-- Right after the base moved, the links that led through the old base only end in its slot. -/
theorem WellFormed.leads?_rebase (hc : c.WellFormed) (hb : c.base = some base)
    (hnext : c.branches.get? next = some above) (hp : above.parent = some base)
    (h : c.branches.get? slot = some branch) (steps : Nat)
    (hsteps : (Branch.ancestry c.branches slot).length ≤ steps) :
    (c.rebase base next).leads? next steps slot = some (c.reaches next slot) := by
  have hne := hc.ne_base_of_parent hb hnext hp
  have hget := get?_rebase hne hnext
  revert steps
  refine hc.induction (motive := fun slot _ => ∀ steps,
    (Branch.ancestry c.branches slot).length ≤ steps →
      (c.rebase base next).leads? next steps slot = some (c.reaches next slot))
    ?_ ?_ slot branch h
  · intro slot branch hbase hslot hsp steps hsteps
    obtain rfl := Option.some.inj (hb.symm.trans hbase)
    rw [Branch.ancestry_root hslot hsp] at hsteps
    obtain ⟨steps, rfl⟩ := Nat.exists_eq_succ_of_ne_zero (Nat.ne_zero_of_lt hsteps)
    simp [leads?, hget, reaches_root hslot hsp, Ne.symm hne]
  · intro slot branch parent up hslot hsp hup hlt ih steps hsteps
    rw [Branch.ancestry_link hslot hsp hup hlt, List.length_cons] at hsteps
    obtain ⟨steps, rfl⟩ := Nat.exists_eq_succ_of_ne_zero (Nat.ne_zero_of_lt hsteps)
    by_cases hs : slot = next
    · simp [leads?, hs, reaches_self hnext]
    · have hkept : (c.rebase base next).branches.get? slot = some branch := by
        rw [hget, if_neg hs, if_neg (hc.ne_base_of_parent hb hslot hsp), hslot]
      rw [leads?, if_neg hs, hkept]
      simp [hsp, hs, reaches_link hslot hsp hup hlt, ih steps (Nat.le_of_succ_le_succ hsteps)]

end Walks

section Removal

/-- Takes the branch out of a slot that must hold one. -/
def takeOut? (c : BranchCache φ) (slot : Nat) : Option (BranchCache φ) :=
  (c.branches.get? slot).map fun branch =>
    { c with branches := c.branches.remove slot, roots := c.roots.erase branch.state.root }

/-- The tracked slots whose links do not lead to the base. -/
def detached? (c : BranchCache φ) (base steps : Nat) : Option (List Nat) :=
  if c.branches.live.all fun slot => (c.leads? base steps slot).isSome then
    some (c.branches.live.filter fun slot => c.leads? base steps slot == some false)
  else none

/-- Puts the branch in a slot into the place of the base. Both slots must hold a branch. -/
def rebase? (c : BranchCache φ) (base next : Nat) : Option (BranchCache φ) := do
  let c ← c.takeOut? base
  let _ ← c.branches.get? next
  return { c with
    branches := c.branches.modify next Branch.asBase, base := some next, version := c.version + 1 }

theorem takeOut?_eq (h : c.branches.get? slot = some branch) :
    c.takeOut? slot = some (c.forget slot) := by
  rw [takeOut?, forget_live h, h]
  rfl

theorem foldlM_takeOut? {slots : List Nat} (c : BranchCache φ)
    (live : ∀ slot ∈ slots, ∃ branch, c.branches.get? slot = some branch) (nodup : slots.Nodup) :
    slots.foldlM takeOut? c = some (slots.foldl forget c) := by
  induction slots generalizing c with
  | nil => rfl
  | cons slot slots ih =>
    obtain ⟨branch, h⟩ := live slot List.mem_cons_self
    obtain ⟨out, nodup⟩ := List.nodup_cons.mp nodup
    have rest : ∀ other ∈ slots, ∃ branch, (c.forget slot).branches.get? other = some branch := by
      intro other mem
      have hne : other ≠ slot := fun same => out (same ▸ mem)
      simpa [get?_forget, hne] using live other (List.mem_cons_of_mem slot mem)
    rw [List.foldlM_cons, takeOut?_eq h, List.foldl_cons]
    exact ih (c.forget slot) rest nodup

theorem rebase?_eq (hne : next ≠ base) {root : Branch} (hroot : c.branches.get? base = some root)
    (hnext : c.branches.get? next = some above) :
    c.rebase? base next = some (c.rebase base next) := by
  have kept : (c.forget base).branches.get? next = some above := by
    rw [get?_forget, if_neg hne, hnext]
  rw [rebase?, takeOut?_eq hroot]
  show ((c.forget base).branches.get? next).bind _ = _
  rw [kept]
  rfl

/-- Between the move of the base and the removals, the walks tell the same slots apart. -/
theorem WellFormed.detached?_rebase (hc : c.WellFormed) (hb : c.base = some base)
    (hnext : c.branches.get? next = some above) (hp : above.parent = some base) :
    (c.rebase base next).detached? next c.size =
      some ((c.rebase base next).branches.live.filter fun slot =>
        !(c.rebase base next).reaches next slot) := by
  have hget := get?_rebase (hc.ne_base_of_parent hb hnext hp) hnext
  have walked : ∀ slot ∈ (c.rebase base next).branches.live,
      (c.rebase base next).leads? next c.size slot =
        some ((c.rebase base next).reaches next slot) := by
    intro slot mem
    obtain ⟨_, hlive⟩ := Arena.mem_live.mp mem
    have before : ∃ branch, c.branches.get? slot = some branch := by
      rw [hget] at hlive
      split at hlive
      · next hs => exact ⟨above, hs ▸ hnext⟩
      · split at hlive
        · cases hlive
        · exact ⟨_, hlive⟩
    obtain ⟨branch, h⟩ := before
    rw [hc.leads?_rebase hb hnext hp h c.size (Branch.length_ancestry_le c.branches slot),
      reaches_rebase hc hb hnext hp]
  rw [detached?, if_pos]
  · congr 1
    refine List.filter_congr fun slot mem => ?_
    rw [walked slot mem]
    cases (c.rebase base next).reaches next slot <;> rfl
  · rw [List.all_eq_true]
    intro slot mem
    rw [walked slot mem]
    rfl

/-- No tracked block lies behind the base. -/
theorem WellFormed.ahead?_eq (hc : c.WellFormed) (hb : c.base = some base)
    (h : c.branches.get? slot = some branch) :
    ahead? branch.state.block ((c.baseState?.map BlockState.block).getD 0) =
      some (branch.state.block - (c.baseState?.map BlockState.block).getD 0) := by
  obtain ⟨root, hroot, _⟩ := hc.base_branch hb
  have behind := hc.base_le hb hroot h
  simp [ahead?, baseState?, hb, state?_eq hroot, behind]

end Removal

section Insert

variable [KeyFilter φ]

/-- A strict flatten: breaks down at a vacant slot and on a walk that does not end. -/
def flatten? (c : BranchCache φ) (base slot : Nat) :
    Option (Option BlockState × BranchCache φ) := do
  let (next, branch) ← c.climb? base c.size slot
  if next = slot then return (none, c)
  let moved ← c.rebase? base next
  let detached ← moved.detached? next c.size
  let kept ← detached.foldlM takeOut? moved
  return (some branch.state, kept.rebuildFilter)

/-- A strict insert. A call that is refused or ignored has come to its end. -/
def insert? (c : BranchCache φ) (block : UInt64) (root : Hash) (delta : Option Delta)
    (parentRoot : Hash) : Option (Except BranchError (Option BlockState × BranchCache φ)) :=
  match c.base with
  | none => some (.error .notInitialized)
  | some base =>
    if c.contains root then some (.ok (none, c))
    else match c.roots[parentRoot]? with
      | none => some (.error (.unknownParent parentRoot))
      | some parent => do
        let up ← c.branches.get? parent
        if block ≤ up.state.block then return .error (.notNewer block up.state.block)
        let (slot, c) := c.track { state := { block, root, delta }, parent := some parent }
        let ahead ← ahead? block ((c.baseState?.map BlockState.block).getD 0)
        if ahead.toNat ≤ c.span then return .ok (none, c)
        let flattened ← c.flatten? base slot
        return .ok flattened

theorem WellFormed.flatten?_eq (hc : c.WellFormed) (hb : c.base = some base)
    (h : c.branches.get? slot = some branch) (hp : branch.parent = some parent) :
    ∃ result, c.flatten? base slot = some result ∧ c.flatten base slot = .ok result := by
  have hne := hc.ne_base_of_parent hb h hp
  obtain ⟨root, hroot, _⟩ := hc.base_branch hb
  obtain ⟨next, above, hclimb, hnext, hab⟩ := hc.nextToBase hb h hne
  have enough := Branch.length_ancestry_le c.branches slot
  have climbed := (hc.climb?_eq hb h hne c.size enough).trans hclimb
  by_cases hs : next = slot
  · exact ⟨(none, c), by simp [flatten?, climbed, hs], by simp [flatten, hclimb, hs]⟩
  · have removed : (List.filter (fun slot => !(c.rebase base next).reaches next slot)
        (c.rebase base next).branches.live).foldlM takeOut? (c.rebase base next) =
          some ((c.rebase base next).forgetDetached next) := by
      refine foldlM_takeOut? _ (fun slot mem => ?_) ((Arena.nodup_live _).filter _)
      exact Arena.mem_live.mp (List.mem_of_mem_filter mem)
    refine ⟨(some above.state, ((c.rebase base next).forgetDetached next).rebuildFilter), ?_,
      by simp [flatten, hclimb, hs, hroot]⟩
    simp [flatten?, climbed, hs, rebase?_eq (hc.ne_base_of_parent hb hnext hab) hroot hnext,
      hc.detached?_rebase hb hnext hab, removed]

/-- In a well-formed cache a strict insert comes to its end, and does what an insert does. -/
theorem WellFormed.insert?_eq (hc : c.WellFormed) (block : UInt64) (root : Hash)
    (delta : Option Delta) (parentRoot : Hash) :
    c.insert? block root delta parentRoot = some (c.insert block root delta parentRoot) := by
  unfold insert? insert
  cases hb : c.base with
  | none => rfl
  | some base =>
    dsimp only
    split
    · rfl
    · next hfresh =>
      cases hparent : c.roots[parentRoot]? with
      | none => rfl
      | some parent =>
        obtain ⟨up, hup, _⟩ := (hc.roots parentRoot parent).mp hparent
        simp only [hup, state?_eq hup, Option.bind_eq_bind, Option.bind_some]
        split
        · rfl
        · next hnewer =>
          have hfits : c.Fits ⟨block, root, delta⟩ up.state.root parent :=
            ⟨by simpa using hfresh, up, hup, rfl, UInt64.not_le.mp hnewer⟩
          have hwf := hfits.wellFormed hc
          have hslot : (c.track ⟨⟨block, root, delta⟩, some parent⟩).2.branches.get?
              (c.track ⟨⟨block, root, delta⟩, some parent⟩).1 =
                some ⟨⟨block, root, delta⟩, some parent⟩ := by
            rw [get?_track hc.arena, if_pos rfl]
          obtain ⟨result, hstrict, hplain⟩ := hwf.flatten?_eq hb hslot rfl
          rw [hwf.ahead?_eq hb hslot, hstrict, hplain]
          simp only [Option.bind_some, withinSpan, decide_eq_true_eq]
          split <;> rfl

/-- The tracked states form one tree on the base, and the root map leads to each of them. -/
structure Intact (c : BranchCache φ) : Prop where
  /-- Nothing is tracked at all, or one branch lacks a parent: the base, which has no changes. -/
  base : c.base = none ∧ c.size = 0 ∧ c.roots.isEmpty ∨
    ∃ base root, c.base = some base ∧ c.branches.get? base = some root ∧
      root.state.delta = none ∧
      ∀ slot branch, c.branches.get? slot = some branch → (branch.parent = none ↔ slot = base)
  /-- Links lead to live slots with older blocks. -/
  links : ∀ slot branch parent, c.branches.get? slot = some branch →
    branch.parent = some parent →
    ∃ up, c.branches.get? parent = some up ∧ up.state.block < branch.state.block
  /-- The bare links lead from every branch to the base, in no more steps than branches. -/
  walks : ∀ base slot branch, c.base = some base → c.branches.get? slot = some branch →
    c.leads? base c.size slot = some true
  /-- Roots of live branches and their slots match one to one, and no other root is mapped. -/
  roots : ∀ root slot, c.roots[root]? = some slot ↔
    ∃ branch, c.branches.get? slot = some branch ∧ branch.state.root = root

omit [KeyFilter φ] in
theorem WellFormed.intact (hc : c.WellFormed) : c.Intact := by
  refine ⟨?_, hc.linked, fun base slot branch hb h => ?_, hc.roots⟩
  · cases hb : c.base with
    | none =>
      have vacant := hc.get?_of_base_none hb
      refine .inl ⟨rfl, ?_, ?_⟩
      · refine List.length_eq_zero_iff.mpr (List.eq_nil_iff_forall_not_mem.mpr fun entry mem => ?_)
        cases (vacant entry.1).symm.trans (Arena.mem_toList.mp mem)
      · refine Std.TreeMap.isEmpty_iff_forall_contains.mpr fun root => ?_
        refine Bool.eq_false_iff.mpr fun known => ?_
        obtain ⟨slot, _, h, _⟩ := (hc.contains_iff root).mp known
        cases (vacant slot).symm.trans h
    | some base =>
      obtain ⟨root, hroot, _, hdelta⟩ := hc.base_branch hb
      refine .inr ⟨base, root, rfl, hroot, hdelta, fun slot branch h => ?_⟩
      rw [hc.base_iff slot branch h, hb, Option.some.injEq, eq_comm]
  · exact hc.leads?_base hb h c.size (Branch.length_ancestry_le c.branches slot)

/-- Every cache is intact, and so the next insert never breaks down. -/
theorem intact_reachable (h : Reachable c) :
    c.Intact ∧ ∀ block root delta parentRoot,
      c.insert? block root delta parentRoot = some (c.insert block root delta parentRoot) :=
  ⟨(wellFormed_reachable h).intact, (wellFormed_reachable h).insert?_eq⟩

/-- A fork on the first base, gone since the base moved to the other branch. -/
def forkLeftBehind : BranchCache BloomFilter :=
  ofCalls 1 [.init 0 .zero, .insert ⟨1, .ofNat 1, none⟩ .zero, .insert ⟨1, .ofNat 9, none⟩ .zero,
    .insert ⟨2, .ofNat 2, none⟩ (.ofNat 1)]

/-- The next insert takes one of the two slots that were freed, and moves the base again. -/
theorem intact_reachable_forkLeftBehind :
    forkLeftBehind.branches.free.length = 2 ∧ forkLeftBehind.Intact ∧
      forkLeftBehind.insert? 3 (.ofNat 3) none (.ofNat 2) =
        some (forkLeftBehind.insert 3 (.ofNat 3) none (.ofNat 2)) :=
  have whole := intact_reachable (c := forkLeftBehind) (reachable_ofCalls 1 _)
  ⟨by decide +kernel, whole.1, whole.2 3 (.ofNat 3) none (.ofNat 2)⟩

end Insert

end BranchCache

end StateSync.Store
