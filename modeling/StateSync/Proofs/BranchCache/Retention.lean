import Mathlib
import StateSync.Proofs.BranchCache.Lineage

/-!
What a flatten keeps. The branches that are lost are found by a sweep over the slots that remembers
what it found out, while some links still lead into the slot of the old base. Whatever the order of
the slots, it comes to its end and finds exactly the branches that do not lead to the new base. So
the states that stay tracked are those on whose chain the flattened state lies, as they were.
-/

namespace StateSync.Store.BranchCache

variable {φ : Type} {c moved : BranchCache φ} {base next slot parent : Nat}
  {branch above : Branch} {state : BlockState} {parentRoot : Hash}

section Sweep

/-- What a sweep has found out: slots that lead to the base, and slots that do not. -/
structure Verdicts where
  leading : List Nat
  lost : List Nat

namespace Verdicts

/-- Whether a slot leads to the base, if that is known. -/
def of? (known : Verdicts) (slot : Nat) : Option Bool :=
  if slot ∈ known.leading then some true else if slot ∈ known.lost then some false else none

def add (known : Verdicts) (leads : Bool) (slots : List Nat) : Verdicts :=
  if leads then { known with leading := slots ++ known.leading }
  else { known with lost := slots ++ known.lost }

theorem of?_eq_none_iff {known : Verdicts} :
    known.of? slot = none ↔ slot ∉ known.leading ∧ slot ∉ known.lost := by
  unfold of?
  split <;> simp_all

end Verdicts

/--
Follows the links from a slot, whatever the blocks, to a verdict or to their end. The slots passed
on the way have no verdict yet and get this one.
-/
def settle? (c : BranchCache φ) (known : Verdicts) : (steps slot : Nat) → Option (Bool × List Nat)
  | 0, _ => none
  | steps + 1, slot =>
    match known.of? slot with
    | some leads => some (leads, [])
    | none =>
      match c.branches.get? slot with
      | none => some (false, [])
      | some branch =>
        match branch.parent with
        | none => some (false, [slot])
        | some parent =>
          (settle? c known steps parent).map fun (leads, passed) => (leads, slot :: passed)

/-- Settles the slots one after another. A walk that outruns the branches would not end. -/
def sweep? (c : BranchCache φ) (base : Nat) (slots : List Nat) : Option Verdicts :=
  slots.foldlM (fun known slot => (c.settle? known (c.size + 1) slot).map fun (leads, passed) =>
    known.add leads passed) { leading := [base], lost := [] }

/-- A link that leads to a branch leads to an older one. Others may lead into free slots. -/
def Falling (c : BranchCache φ) : Prop :=
  ∀ slot branch parent up, c.branches.get? slot = some branch → branch.parent = some parent →
    c.branches.get? parent = some up → up.state.block < branch.state.block

theorem Falling.ancestry_eq (hc : c.Falling) (h : c.branches.get? slot = some branch)
    (hp : branch.parent = some parent) :
    Branch.ancestry c.branches slot = (slot, branch) :: Branch.ancestry c.branches parent := by
  cases hup : c.branches.get? parent with
  | none =>
    have ends : Branch.ancestry c.branches parent = [] := by
      rw [Branch.ancestry]
      simp [hup]
    rw [Branch.ancestry_dangling h hp hup, ends]
  | some up => exact Branch.ancestry_link h hp hup (hc slot branch parent up h hp hup)

/-- When the base has moved, the links of the others stay and some lead into its old slot. -/
theorem WellFormed.falling_rebase (hc : c.WellFormed) (hne : next ≠ base)
    (hnext : c.branches.get? next = some above) : (c.rebase base next).Falling := by
  have hget := get?_rebase hne hnext
  intro slot branch parent up hlive hp hup
  have before : c.branches.get? slot = some branch := by
    rw [hget] at hlive
    split at hlive
    · obtain rfl := Option.some.inj hlive
      cases hp
    · split at hlive
      · cases hlive
      · exact hlive
  obtain ⟨old, hold, hlt⟩ := hc.linked slot branch parent before hp
  rw [hget] at hup
  split at hup
  · next hs =>
    obtain rfl := Option.some.inj hup
    rw [hs, hnext] at hold
    exact Option.some.inj hold ▸ hlt
  · split at hup
    · cases hup
    · exact Option.some.inj (hold.symm.trans hup) ▸ hlt

/-- All verdicts are right, and only live slots are lost, once each. -/
structure Verdicts.Sound (known : Verdicts) (c : BranchCache φ) (base : Nat) : Prop where
  start : base ∈ known.leading
  leading : ∀ slot ∈ known.leading, c.reaches base slot = true
  lost : ∀ slot ∈ known.lost, slot ∈ c.branches.live ∧ c.reaches base slot = false
  nodup : known.lost.Nodup

variable {known : Verdicts}

theorem Verdicts.Sound.of?_eq (hk : known.Sound c base) {leads : Bool}
    (h : known.of? slot = some leads) : c.reaches base slot = leads := by
  unfold Verdicts.of? at h
  split at h
  · next mem =>
    obtain rfl := Option.some.inj h
    exact hk.leading slot mem
  · split at h
    · next mem =>
      obtain rfl := Option.some.inj h
      exact (hk.lost slot mem).2
    · cases h

/-- A walk to a verdict ends, with the verdict that is right for every slot that it passed. -/
theorem Falling.settle?_eq (hc : c.Falling) (hk : known.Sound c base) (steps slot : Nat)
    (enough : (Branch.ancestry c.branches slot).length < steps) :
    ∃ passed, c.settle? known steps slot = some (c.reaches base slot, passed) ∧
      passed <+: (Branch.ancestry c.branches slot).map Prod.fst ∧
      (∀ other ∈ passed, known.of? other = none ∧
        c.reaches base other = c.reaches base slot) ∧
      (slot ∈ c.branches.live → known.of? slot = none → slot ∈ passed) := by
  induction steps generalizing slot with
  | zero => cases enough
  | succ steps ih =>
    cases verdict : known.of? slot with
    | some leads =>
      exact ⟨[], by simp [settle?, verdict, hk.of?_eq verdict], by simp, by simp, by simp⟩
    | none =>
      have other : slot ≠ base := by
        rintro rfl
        exact (Verdicts.of?_eq_none_iff.mp verdict).1 hk.start
      cases hlive : c.branches.get? slot with
      | none =>
        refine ⟨[], by simp [settle?, verdict, hlive, reaches_vacant hlive], by simp, by simp, ?_⟩
        simp [Arena.mem_live, hlive]
      | some branch =>
        cases hp : branch.parent with
        | none =>
          have off : c.reaches base slot = false := by simp [reaches_root hlive hp, other]
          exact ⟨[slot], by simp [settle?, verdict, hlive, hp, off],
            by simp [Branch.ancestry_root hlive hp], by simp [verdict], by simp⟩
        | some parent =>
          have line := hc.ancestry_eq hlive hp
          have same : c.reaches base slot = c.reaches base parent := by
            simp [reaches, line, other]
          rw [line, List.length_cons] at enough
          obtain ⟨passed, walked, front, right, -⟩ := ih parent (Nat.lt_of_succ_lt_succ enough)
          have step : c.settle? known (steps + 1) slot =
              some (c.reaches base slot, slot :: passed) := by
            simp [settle?, verdict, hlive, hp, walked, same]
          refine ⟨slot :: passed, step, ?_, ?_, by simp⟩
          · rw [line, List.map_cons]
            exact (List.prefix_cons_inj slot).mpr front
          · rw [same]
            exact List.forall_mem_cons.mpr ⟨⟨verdict, same⟩, right⟩

theorem Verdicts.Sound.add (hk : known.Sound c base) {passed : List Nat} {leads : Bool}
    (front : passed <+: (Branch.ancestry c.branches slot).map Prod.fst)
    (right : ∀ other ∈ passed, known.of? other = none ∧ c.reaches base other = leads) :
    (known.add leads passed).Sound c base := by
  cases leads with
  | true =>
    refine ⟨List.mem_append_right _ hk.start, fun other mem => ?_, hk.lost, hk.nodup⟩
    rcases List.mem_append.mp mem with mem | mem
    · exact (right other mem).2
    · exact hk.leading other mem
  | false =>
    refine ⟨hk.start, hk.leading, fun other mem => ?_, ?_⟩
    · rcases List.mem_append.mp mem with mem | mem
      · obtain ⟨entry, walked, rfl⟩ := List.mem_map.mp (front.subset mem)
        exact ⟨Arena.mem_live.mpr ⟨entry.2, Branch.get?_of_mem_ancestry walked⟩, (right _ mem).2⟩
      · exact hk.lost other mem
    · have once := (Branch.nodup_slots_ancestry c.branches slot).sublist front.sublist
      refine List.nodup_append'.mpr ⟨once, hk.nodup, fun other mem old => ?_⟩
      exact (Verdicts.of?_eq_none_iff.mp (right other mem).1).2 old

/-- A sweep ends with right verdicts on all slots it went over, and keeps those it began with. -/
theorem Falling.foldlM_settle? (hc : c.Falling) (slots : List Nat) (hk : known.Sound c base) :
    ∃ found, (slots.foldlM (fun known slot => (c.settle? known (c.size + 1) slot).map
        fun (leads, passed) => known.add leads passed) known) = some found ∧
      found.Sound c base ∧ (∀ slot ∈ slots, slot ∈ c.branches.live → found.of? slot ≠ none) ∧
      ∀ slot, known.of? slot ≠ none → found.of? slot ≠ none := by
  induction slots generalizing known with
  | nil => exact ⟨known, rfl, hk, by simp, fun _ => id⟩
  | cons first slots ih =>
    have enough := Nat.lt_succ_of_le (Branch.length_ancestry_le c.branches first)
    obtain ⟨passed, walked, front, right, own⟩ := hc.settle?_eq hk (c.size + 1) first enough
    obtain ⟨found, swept, sound, settled, kept⟩ := ih (hk.add front right)
    have added : ∀ slot, slot ∈ passed ∨ known.of? slot ≠ none →
        (known.add (c.reaches base first) passed).of? slot ≠ none := by
      intro slot before
      rw [ne_eq, Verdicts.of?_eq_none_iff] at before ⊢
      unfold Verdicts.add
      split <;> simp only [List.mem_append] <;> tauto
    refine ⟨found, ?_, sound, fun slot mem live => ?_,
      fun slot old => kept slot (added slot (.inr old))⟩
    · rw [List.foldlM_cons, walked]
      exact swept
    · rcases List.mem_cons.mp mem with rfl | mem
      · by_cases fresh : known.of? slot = none
        · exact kept slot (added slot (.inl (own live fresh)))
        · exact kept slot (added slot (.inr fresh))
      · exact settled slot mem live

/-- In whatever order a sweep goes over the live slots, the lost do not lead to the base. -/
theorem Falling.sweep?_eq (hc : c.Falling) (hbase : c.branches.get? base = some branch)
    {slots : List Nat} (all : ∀ slot ∈ c.branches.live, slot ∈ slots) :
    ∃ found, c.sweep? base slots = some found ∧ found.lost.Nodup ∧
      ∀ slot, slot ∈ found.lost ↔ slot ∈ c.branches.live ∧ c.reaches base slot = false := by
  have start : Verdicts.Sound { leading := [base], lost := [] } c base :=
    ⟨by simp, by simpa using reaches_self hbase, by simp, by simp⟩
  obtain ⟨found, swept, sound, settled, -⟩ := hc.foldlM_settle? slots start
  refine ⟨found, swept, sound.nodup, fun slot => ⟨sound.lost slot, fun ⟨live, off⟩ => ?_⟩⟩
  by_contra kept
  have verdict := settled slot (all slot live) live
  rw [ne_eq, Verdicts.of?_eq_none_iff, not_and_not_right] at verdict
  by_cases leads : slot ∈ found.leading
  · cases off.symm.trans (sound.leading slot leads)
  · exact kept (verdict leads)

end Sweep

section Retention

/-- One branch more, in a free slot: a new state on top of a root. All else is as it was. -/
structure Adds (c : BranchCache φ) (state : BlockState) (parentRoot : Hash) (slot : Nat)
    (grown : BranchCache φ) : Prop where
  vacant : c.branches.get? slot = none
  branches : ∀ other, grown.branches.get? other =
    if other = slot then some ⟨state, c.roots[parentRoot]?⟩ else c.branches.get? other
  roots : ∀ root, grown.roots[root]? = if state.root = root then some slot else c.roots[root]?
  base : grown.base = c.base

/-- The base moved to a state that was flattened. What leads there stays, and all else is gone. -/
structure Retains (c : BranchCache φ) (flat : BlockState) (after : BranchCache φ) : Prop where
  /-- The tracked roots are those on whose chain the flattened state lies. -/
  contains_iff : ∀ root, after.contains root = true ↔
    flat.root ∈ (c.chain root).map BlockState.root
  /-- That state stays in its slot: it is the base now, without its link and its changes. -/
  base : ∃ slot, after.base = some slot ∧ c.branches.get? slot = some ⟨flat, c.base⟩ ∧
    after.branches.get? slot = some ⟨flat.withoutChanges, none⟩
  /-- All other branches that stay are in their slots as they were, their links included. -/
  branches : ∀ slot branch, branch.state.root ≠ flat.root →
    (after.branches.get? slot = some branch ↔ c.branches.get? slot = some branch ∧
      flat.root ∈ (c.chain branch.state.root).map BlockState.root)
  /-- The root map leads to the slots of the branches that stay, and nowhere else. -/
  roots : ∀ root slot, after.roots[root]? = some slot ↔
    ∃ branch, after.branches.get? slot = some branch ∧ branch.state.root = root
  /-- A sweep in any order, made when the base has moved, ends and finds those that are gone. -/
  sweep : ∀ base slot, c.base = some base → after.base = some slot → ∀ order,
    (∀ other ∈ (c.rebase base slot).branches.live, other ∈ order) →
    ∃ found, (c.rebase base slot).sweep? slot order = some found ∧ found.lost.Nodup ∧
      ∀ other, other ∈ found.lost ↔
        other ∈ (c.rebase base slot).branches.live ∧ after.branches.get? other = none

/-- A state lies on the chain of a branch exactly if the links lead from there to its slot. -/
theorem WellFormed.mem_chain_iff (hc : c.WellFormed) (hnext : c.branches.get? next = some above)
    (h : c.branches.get? slot = some branch) :
    above.state.root ∈ (c.chain branch.state.root).map BlockState.root ↔
      c.reaches next slot = true := by
  rw [chain_eq hc.toIndexed h, List.map_map, List.mem_map, reaches, List.any_eq_true]
  refine exists_congr fun entry => and_congr_right fun mem => ?_
  have hlive := Branch.get?_of_mem_ancestry mem
  rw [beq_iff_eq]
  constructor
  · exact fun same => hc.slot_unique hlive hnext same
  · rintro rfl
    rw [hnext] at hlive
    exact congrArg (fun branch => branch.state.root) (Option.some.inj hlive).symm

variable [KeyFilter φ]

theorem Fits.adds (hf : c.Fits state parentRoot parent) (hc : c.WellFormed) :
    c.Adds state parentRoot (c.track ⟨state, some parent⟩).1 (c.track ⟨state, some parent⟩).2 := by
  obtain ⟨up, hup, hroot, _⟩ := hf.onto
  have link : c.roots[parentRoot]? = some parent :=
    (hc.roots parentRoot parent).mpr ⟨up, hup, hroot⟩
  refine ⟨get?_track_slot hc.arena _, fun other => ?_, getElem?_roots_track c _, rfl⟩
  rw [link]
  exact get?_track hc.arena _ other

theorem Moved.contains_iff (hm : Moved c moved base next above) (hc : c.WellFormed) (root : Hash) :
    moved.contains root = true ↔ above.state.root ∈ (c.chain root).map BlockState.root := by
  rw [hm.indexed.contains_iff]
  constructor
  · rintro ⟨slot, branch, hlive, rfl⟩
    by_cases hs : slot = next
    · subst hs
      obtain rfl := Option.some.inj (hm.get?_next.symm.trans hlive)
      exact (hc.mem_chain_iff hm.live hm.live).mpr (reaches_self hm.live)
    · obtain ⟨leads, before⟩ := (hm.get?_of_ne hs).mp hlive
      exact (hc.mem_chain_iff hm.live before).mpr leads
  · intro mem
    cases known : c.roots[root]? with
    | none => simp [chain, known] at mem
    | some slot =>
      obtain ⟨branch, before, rfl⟩ := (hc.roots root slot).mp known
      have leads := (hc.mem_chain_iff hm.live before).mp mem
      by_cases hs : slot = next
      · subst hs
        obtain rfl := Option.some.inj (hm.live.symm.trans before)
        exact ⟨slot, above.asBase, hm.get?_next, rfl⟩
      · exact ⟨slot, branch, (hm.get?_of_ne hs).mpr ⟨leads, before⟩, rfl⟩

/-- The sweep after a move of the base finds what the move has lost. -/
theorem Moved.sweep (hm : Moved c moved base next above) (hc : c.WellFormed)
    (hb : c.base = some base) {order : List Nat}
    (all : ∀ slot ∈ (c.rebase base next).branches.live, slot ∈ order) :
    ∃ found, (c.rebase base next).sweep? next order = some found ∧ found.lost.Nodup ∧
      ∀ slot, slot ∈ found.lost ↔
        slot ∈ (c.rebase base next).branches.live ∧ moved.branches.get? slot = none := by
  have hne := hc.ne_base_of_parent hb hm.live hm.parent
  have hget := get?_rebase hne hm.live
  have hself : (c.rebase base next).branches.get? next = some above.asBase := by
    rw [hget, if_pos rfl]
  obtain ⟨found, swept, nodup, lost⟩ := (hc.falling_rebase hne hm.live).sweep?_eq hself all
  refine ⟨found, swept, nodup, fun slot => (lost slot).trans (and_congr_right fun live => ?_)⟩
  rw [reaches_rebase hc hb hm.live hm.parent, hm.get?]
  obtain ⟨branch, hlive⟩ := Arena.mem_live.mp live
  rw [hget] at hlive
  by_cases hs : slot = next
  · simp [hs, reaches_self hm.live]
  · rw [if_neg hs] at hlive ⊢
    split at hlive
    · cases hlive
    · cases leads : c.reaches next slot <;> simp [hlive]

theorem Moved.retains (hm : Moved c moved base next above) (hc : c.WellFormed)
    (hb : c.base = some base) : c.Retains above.state moved := by
  refine ⟨hm.contains_iff hc, ⟨next, hm.base, ?_, hm.get?_next⟩, fun slot branch other => ?_,
    hm.indexed.roots, fun first slot hfirst hslot order all => ?_⟩
  · rw [hb, ← hm.parent]
    exact hm.live
  · have hs : moved.branches.get? slot = some branch → slot ≠ next := by
      rintro hlive rfl
      obtain rfl := Option.some.inj (hm.get?_next.symm.trans hlive)
      exact other rfl
    constructor
    · intro hlive
      obtain ⟨leads, before⟩ := (hm.get?_of_ne (hs hlive)).mp hlive
      exact ⟨before, (hc.mem_chain_iff hm.live before).mpr leads⟩
    · rintro ⟨before, mem⟩
      have hne : slot ≠ next := by
        rintro rfl
        obtain rfl := Option.some.inj (hm.live.symm.trans before)
        exact other rfl
      exact (hm.get?_of_ne hne).mpr ⟨(hc.mem_chain_iff hm.live before).mp mem, before⟩
  · obtain rfl := Option.some.inj (hb.symm.trans hfirst)
    obtain rfl := Option.some.inj (hm.base.symm.trans hslot)
    exact hm.sweep hc hb all

/--
An insert of a state that is not tracked adds a branch and changes no other. If it hands out a
flattened state, then of all these branches exactly those stay on whose chain that state lies.
-/
theorem insert_retains (h : c.Reachable) {out : Option BlockState} {after : BranchCache φ}
    (done : c.insert state.block state.root state.delta parentRoot = .ok (out, after)) :
    (c.contains state.root = true → out = none ∧ after = c) ∧
    (c.contains state.root = false → ∃ slot grown, c.Adds state parentRoot slot grown ∧
      (out = none → after = grown) ∧ ∀ flat, out = some flat → grown.Retains flat after) := by
  have hc := wellFormed_reachable h
  obtain ⟨base, hb⟩ := base_of_insert done
  cases inserted_of_insert hc hb done with
  | ignored known =>
    refine ⟨fun _ => ⟨rfl, rfl⟩, fun fresh => ?_⟩
    cases fresh.symm.trans known
  | tracked fits _ =>
    refine ⟨fun known => ?_, fun _ => ⟨_, _, fits.adds hc, fun _ => rfl, by rintro _ ⟨⟩⟩⟩
    cases fits.fresh.symm.trans known
  | moved fits _ _ shift =>
    refine ⟨fun known => ?_, fun _ => ⟨_, _, fits.adds hc, by rintro ⟨⟩, ?_⟩⟩
    · cases fits.fresh.symm.trans known
    · rintro _ ⟨⟩
      exact shift.retains (fits.wellFormed hc) hb

/-- Two branches on the first base. The one has two children, the other has a child of its own. -/
def twoForks : List Call :=
  [.init 0 .zero, .insert ⟨1, .ofNat 1, none⟩ .zero, .insert ⟨1, .ofNat 9, none⟩ .zero,
    .insert ⟨2, .ofNat 8, none⟩ (.ofNat 9), .insert ⟨2, .ofNat 2, none⟩ (.ofNat 1),
    .insert ⟨2, .ofNat 7, none⟩ (.ofNat 1)]

/-- With the first flattened, both of its children stay. The other is gone, with its child. -/
theorem insert_retains_twoForks :
    let c : BranchCache BloomFilter := ofCalls 2 twoForks
    let state : BlockState := ⟨3, .ofNat 3, none⟩
    ∃ flat after,
      c.insert state.block state.root state.delta (.ofNat 2) = .ok (some flat, after) ∧
      (∃ slot grown, c.Adds state (.ofNat 2) slot grown ∧ grown.Retains flat after) ∧
      flat.root = .ofNat 1 ∧
      ([0, 1, 2, 3, 7, 8, 9].filter fun n => after.contains (.ofNat n)) = [1, 2, 3, 7] := by
  intro c state
  have ran : ((c.insert state.block state.root state.delta (.ofNat 2)).toOption.bind fun result =>
      result.1.map fun flat => (flat.root,
        [0, 1, 2, 3, 7, 8, 9].filter fun n => result.2.contains (.ofNat n))) =
      some (.ofNat 1, [1, 2, 3, 7]) := by decide +kernel
  obtain ⟨⟨out, after⟩, returned, handed⟩ := Option.bind_eq_some_iff.mp ran
  obtain ⟨flat, rfl, seen⟩ := Option.map_eq_some_iff.mp handed
  have done : c.insert state.block state.root state.delta (.ofNat 2) = .ok (some flat, after) := by
    cases inserted : c.insert state.block state.root state.delta (.ofNat 2) with
    | error e => rw [inserted] at returned; cases returned
    | ok result => rw [inserted] at returned; exact congrArg Except.ok (Option.some.inj returned)
  obtain ⟨-, accepted⟩ := insert_retains (reachable_ofCalls 2 twoForks) done
  obtain ⟨slot, grown, adds, -, retains⟩ := accepted (by decide +kernel)
  exact ⟨flat, after, done, ⟨slot, grown, adds, retains flat rfl⟩,
    congrArg Prod.fst seen, congrArg Prod.snd seen⟩

end Retention

end StateSync.Store.BranchCache
