import StateSync.Proofs.BranchCache.Lineage

/-!
How far back a cache goes. An insert moves the base at most once, yet no line gets longer than the
span: blocks grow along a line, so the tip of one that is too long is too far ahead of the base.
-/

namespace StateSync.Store.BranchCache

variable {φ : Type} {c moved : BranchCache φ} {base next slot parent : Nat}
  {branch above root : Branch} {state : BlockState} {parentRoot : Hash}

section Walk

/-- Every walk ends with the base. -/
theorem WellFormed.ancestry_eq_append (hc : c.WellFormed) (hb : c.base = some base)
    (hroot : c.branches.get? base = some root) (h : c.branches.get? slot = some branch) :
    ∃ line, Branch.ancestry c.branches slot = line ++ [(base, root)] := by
  refine hc.induction (motive := fun slot _ =>
    ∃ line, Branch.ancestry c.branches slot = line ++ [(base, root)]) ?_ ?_ slot branch h
  · intro slot branch hbase hslot hp
    obtain rfl := Option.some.inj (hb.symm.trans hbase)
    obtain rfl := Option.some.inj (hroot.symm.trans hslot)
    exact ⟨[], Branch.ancestry_root hslot hp⟩
  · intro slot branch parent up hslot hp hup hlt ih
    obtain ⟨line, hline⟩ := ih
    exact ⟨(slot, branch) :: line, by rw [Branch.ancestry_link hslot hp hup hlt, hline]; rfl⟩

theorem WellFormed.chain_eq_walk (hc : c.WellFormed) (hb : c.base = some base)
    (hroot : c.branches.get? base = some root) (h : c.branches.get? slot = some branch) :
    c.chain branch.state.root = c.walk branch.state.root ++ [root.state] := by
  obtain ⟨line, hline⟩ := hc.ancestry_eq_append hb hroot h
  rw [chain_eq hc.toIndexed h, hc.walk_eq h, hline]
  simp

theorem WellFormed.length_walk (hc : c.WellFormed) (h : c.branches.get? slot = some branch) :
    (c.walk branch.state.root).length + 1 = (Branch.ancestry c.branches slot).length := by
  have some := List.length_pos_iff.mpr (Branch.ancestry_ne_nil h)
  rw [hc.walk_eq h, List.length_dropLast, List.length_map]
  omega

theorem WellFormed.length_chain_le (hc : c.WellFormed) {depth : Nat}
    (short : ∀ slot branch, c.branches.get? slot = some branch →
      (c.walk branch.state.root).length ≤ depth) (tip : Hash) :
    (c.chain tip).length ≤ depth + 1 := by
  cases known : c.roots[tip]? with
  | none => simp [chain, known]
  | some slot =>
    obtain ⟨branch, hlive, rfl⟩ := (hc.roots tip slot).mp known
    obtain ⟨base, root, hb, hroot⟩ := hc.exists_base hlive
    rw [hc.chain_eq_walk hb hroot hlive, List.length_append, List.length_singleton]
    exact Nat.succ_le_succ (short slot branch hlive)

/-- Blocks grow along a line, by one at least from branch to branch. -/
theorem WellFormed.block_add_length_walk_le (hc : c.WellFormed) (hb : c.base = some base)
    (hroot : c.branches.get? base = some root) (h : c.branches.get? slot = some branch) :
    root.state.block.toNat + (c.walk branch.state.root).length ≤ branch.state.block.toNat := by
  have walk := hc.length_walk h
  suffices root.state.block.toNat + (Branch.ancestry c.branches slot).length ≤
      branch.state.block.toNat + 1 by omega
  refine hc.induction (motive := fun slot branch =>
    root.state.block.toNat + (Branch.ancestry c.branches slot).length ≤
      branch.state.block.toNat + 1) ?_ ?_ slot branch h
  · intro slot branch hbase hslot hp
    obtain rfl := Option.some.inj (hb.symm.trans hbase)
    obtain rfl := Option.some.inj (hroot.symm.trans hslot)
    rw [Branch.ancestry_root hslot hp, List.length_singleton]
  · intro slot branch parent up hslot hp hup hlt ih
    have hblock := UInt64.lt_iff_toNat_lt.mp hlt
    rw [Branch.ancestry_link hslot hp hup hlt, List.length_cons]
    omega

/-- A block within the span is at the tip of a line no longer than the span. -/
theorem WellFormed.length_walk_le_of_withinSpan (hc : c.WellFormed) (hb : c.base = some base)
    (h : c.branches.get? slot = some branch) (near : c.withinSpan branch.state.block = true) :
    (c.walk branch.state.root).length ≤ c.span := by
  obtain ⟨root, hroot⟩ := hc.base_live base hb
  have ahead := hc.block_add_length_walk_le hb hroot h
  have le := hc.base_le hb hroot h
  have near : (branch.state.block - root.state.block).toNat ≤ c.span := by
    simpa [withinSpan, baseState?_eq hb hroot] using near
  rw [UInt64.toNat_sub_of_le _ _ le] at near
  omega

end Walk

section Single

/-- All tracked roots lie on the chain of one root. -/
def SingleChain (c : BranchCache φ) : Prop :=
  ∃ tip, ∀ root, c.contains root = true → root ∈ (c.chain tip).map BlockState.root

theorem Indexed.singleChain (hc : c.Indexed) (tip : Hash)
    (on : ∀ entry ∈ c.branches.toList, entry.2.state.root ∈ (c.chain tip).map BlockState.root) :
    c.SingleChain := by
  refine ⟨tip, fun root known => ?_⟩
  obtain ⟨slot, branch, hlive, rfl⟩ := (hc.contains_iff root).mp known
  exact on (slot, branch) (Arena.mem_toList.mpr hlive)

/-- A single chain holds all that is tracked. -/
theorem WellFormed.size_le_of_singleChain (hc : c.WellFormed) (single : c.SingleChain) :
    ∃ tip, c.size ≤ (c.chain tip).length := by
  obtain ⟨tip, on⟩ := single
  have nodup : (c.branches.toList.map fun entry => entry.2.state.root).Nodup := by
    refine (Arena.nodup_toList _).map_on ?_
    intro entry hentry other hother same
    have hlive := Arena.mem_toList.mp hentry
    have slots := hc.slot_unique hlive (Arena.mem_toList.mp hother) same
    have branches := Arena.mem_toList.mp hother
    rw [← slots, hlive] at branches
    exact Prod.ext slots (Option.some.inj branches)
  have tracked : (c.branches.toList.map fun entry => entry.2.state.root) ⊆
      (c.chain tip).map BlockState.root := by
    intro root mem
    obtain ⟨entry, hentry, rfl⟩ := List.mem_map.mp mem
    exact on _ ((hc.contains_iff _).mpr ⟨_, _, Arena.mem_toList.mp hentry, rfl⟩)
  have le := (nodup.subperm tracked).length_le
  rw [List.length_map, List.length_map] at le
  exact ⟨tip, le⟩

end Single

section Consecutive

variable [KeyFilter φ]

/-- An insert brings in a new state: its root is not tracked yet, and the insert succeeds. -/
def accepts (c : BranchCache φ) (state : BlockState) (parentRoot : Hash) : Bool :=
  !c.contains state.root && (c.insert state.block state.root state.delta parentRoot).isOk

/-- A call that adds no state, or one of the block right after that of its parent. -/
def Call.AddsNext (c : BranchCache φ) : Call → Prop
  | init _ _ => True
  | insert state parentRoot => c.accepts state parentRoot = true →
    ∀ up ∈ (c.chain parentRoot).head?, state.block.toNat = up.block.toNat + 1

/-- No call of a run skips a block. -/
def Consecutive : BranchCache φ → List Call → Prop
  | _, [] => True
  | c, call :: calls => call.AddsNext c ∧ Consecutive (call.run c) calls

instance (c : BranchCache φ) : (call : Call) → Decidable (call.AddsNext c)
  | .init _ _ => inferInstanceAs (Decidable True)
  | .insert _ _ => inferInstanceAs (Decidable (_ → ∀ _ ∈ _, _ = _))

instance decidableConsecutive :
    (c : BranchCache φ) → (calls : List Call) → Decidable (Consecutive c calls)
  | _, [] => inferInstanceAs (Decidable True)
  | c, call :: calls =>
    have := decidableConsecutive (call.run c) calls
    inferInstanceAs (Decidable (_ ∧ _))

omit [KeyFilter φ] in
/-- No block is skipped from branch to branch. -/
def Gapless (c : BranchCache φ) : Prop :=
  ∀ slot branch parent up, c.branches.get? slot = some branch → branch.parent = some parent →
    c.branches.get? parent = some up → branch.state.block.toNat = up.state.block.toNat + 1

omit [KeyFilter φ] in
theorem Gapless.block_le (hg : c.Gapless) (hc : c.WellFormed) (hb : c.base = some base)
    (hroot : c.branches.get? base = some root) (h : c.branches.get? slot = some branch) :
    branch.state.block.toNat ≤ root.state.block.toNat + (c.walk branch.state.root).length := by
  have walk := hc.length_walk h
  suffices branch.state.block.toNat + 1 ≤
      root.state.block.toNat + (Branch.ancestry c.branches slot).length by omega
  refine hc.induction (motive := fun slot branch => branch.state.block.toNat + 1 ≤
    root.state.block.toNat + (Branch.ancestry c.branches slot).length) ?_ ?_ slot branch h
  · intro slot branch hbase hslot hp
    obtain rfl := Option.some.inj (hb.symm.trans hbase)
    obtain rfl := Option.some.inj (hroot.symm.trans hslot)
    rw [Branch.ancestry_root hslot hp, List.length_singleton]
  · intro slot branch parent up hslot hp hup hlt ih
    have next := hg slot branch parent up hslot hp hup
    rw [Branch.ancestry_link hslot hp hup hlt, List.length_cons]
    omega

theorem Gapless.track (hg : c.Gapless) (hc : c.WellFormed) (hf : c.Fits state parentRoot parent)
    (next : ∀ up, c.branches.get? parent = some up →
      state.block.toNat = up.state.block.toNat + 1) :
    (c.track ⟨state, some parent⟩).2.Gapless := by
  intro slot branch target up hlive hlink hup
  rcases hf.link hc hlive hlink hup with ⟨rfl, honto, _⟩ | ⟨hslot, htarget⟩
  · exact next up honto
  · exact hg slot branch target up hslot hlink htarget

theorem Moved.gapless (hm : Moved c moved base next above) (hg : c.Gapless) : moved.Gapless := by
  intro slot branch parent up hlive hp hup
  obtain ⟨old, hslot, hold, _, hblock⟩ := hm.link hlive hp hup
  rw [hg slot branch parent old hslot hp hold, hblock]

theorem gapless_ofSpan (span : Nat) : (ofSpan span : BranchCache φ).Gapless := by
  intro slot branch parent up hlive
  cases hlive

theorem gapless_init (hc : c.WellFormed) {block : UInt64} {root : Hash}
    (h : c.init block root = .ok moved) : moved.Gapless := by
  obtain ⟨hb, rfl⟩ := init_eq h
  intro slot branch parent up hlive hp
  rw [get?_track hc.arena, hc.get?_of_base_none hb] at hlive
  split at hlive
  · obtain rfl := Option.some.inj hlive
    cases hp
  · cases hlive

theorem Gapless.inserted {after : BranchCache φ} {out : Option BlockState} (hg : c.Gapless)
    (hc : c.WellFormed) (h : Inserted c base state parentRoot out after)
    (next : c.contains state.root = false → ∀ up ∈ (c.chain parentRoot).head?,
      state.block.toNat = up.block.toNat + 1) : after.Gapless := by
  have onto : ∀ parent, c.Fits state parentRoot parent →
      (c.track ⟨state, some parent⟩).2.Gapless := by
    intro parent fits
    refine hg.track hc fits ?_
    intro up hup
    obtain ⟨onto, honto, hroot, _⟩ := fits.onto
    obtain rfl := Option.some.inj (honto.symm.trans hup)
    refine next fits.fresh onto.state ?_
    rw [← hroot, chain_eq hc.toIndexed honto, Branch.ancestry]
    simp [honto]
  cases h with
  | ignored _ => exact hg
  | tracked fits _ => exact onto _ fits
  | moved fits _ _ shift => exact shift.gapless (onto _ fits)

theorem gapless_run (hg : c.Gapless) (hc : c.WellFormed) {call : Call} (next : call.AddsNext c) :
    (call.run c).Gapless := by
  cases call with
  | init block root =>
    simp only [Call.run]
    split
    · next done => exact gapless_init hc done
    · exact hg
  | insert state parentRoot =>
    simp only [Call.run]
    cases done : c.insert state.block state.root state.delta parentRoot with
    | error e => exact hg
    | ok result =>
      obtain ⟨base, hb⟩ := base_of_insert done
      refine hg.inserted hc (inserted_of_insert hc hb done) ?_
      intro fresh
      exact next (by simp [accepts, fresh, done, Except.isOk, Except.toBool])

theorem gapless_foldl (calls : List Call) (hr : Reachable c) (hg : c.Gapless)
    (next : Consecutive c calls) : (calls.foldl (fun c call => call.run c) c).Gapless := by
  induction calls generalizing c with
  | nil => exact hg
  | cons call calls ih =>
    exact ih (hr.run call) (gapless_run hg (wellFormed_reachable hr) next.1) next.2

end Consecutive

namespace History

variable [KeyFilter φ] {h : History φ} {depth more : Nat}

theorem cache_call (h : History φ) (call : Call) : (h.call call).cache = call.run h.cache := by
  cases call with
  | init block root =>
    simp only [History.call, Call.run]
    cases h.cache.init block root <;> rfl
  | insert state parentRoot =>
    simp only [History.call, Call.run]
    cases h.cache.insert state.block state.root state.delta parentRoot <;> rfl

theorem cache_ofCalls (span : Nat) (calls : List Call) :
    (ofCalls span calls : History φ).cache = BranchCache.ofCalls span calls :=
  (List.foldl_hom History.cache fun h call => (cache_call h call).symm).symm

/-- No tracked root was accepted more than some states after the one flattened last. -/
def Within (h : History φ) (depth : Nat) : Prop :=
  ∀ slot branch, h.cache.branches.get? slot = some branch →
    (ancestors h.accepted branch.state.root).length ≤ h.flattened.length + depth

omit [KeyFilter φ] in
theorem Sound.length_ancestors (hh : h.Sound)
    (hlive : h.cache.branches.get? slot = some branch) :
    (ancestors h.accepted branch.state.root).length =
      h.flattened.length + (h.cache.walk branch.state.root).length := by
  have line := congrArg List.length (hh.flattened_append hlive)
  rw [← hh.wellFormed.walk_eq hlive] at line
  simpa using line.symm

theorem Within.track (hw : h.Within depth) (hh : h.Sound)
    (hf : h.cache.Fits state parentRoot parent) (le : depth ≤ more)
    (tip : (ancestors h.accepted parentRoot).length + 1 ≤ h.flattened.length + more) :
    Within { h with
      cache := (h.cache.track ⟨state, some parent⟩).2
      accepted := ⟨state, parentRoot⟩ :: h.accepted } more := by
  intro slot branch hlive
  dsimp only at hlive ⊢
  rw [get?_track hh.wellFormed.arena] at hlive
  split at hlive
  · obtain rfl := Option.some.inj hlive
    rw [ancestors, if_pos rfl, List.length_cons]
    exact tip
  · have old := hw slot branch hlive
    rw [ancestors, if_neg (hh.wellFormed.root_ne hf.fresh hlive).symm]
    omega

theorem Within.shift (hw : h.Within (depth + 1))
    (hm : h.cache.Moved moved base next above) :
    Within { h with cache := moved, flattened := h.flattened ++ [above.state] } depth := by
  intro slot branch hlive
  obtain ⟨old, hold, hroot, _⟩ := hm.exists_old hlive
  have line := hw slot old hold
  rw [hroot] at line
  simp only [List.length_append, List.length_singleton]
  omega

theorem Within.inserted {out : Option BlockState} {after : BranchCache φ} (hh : h.Sound)
    (hw : h.Within h.cache.span) (pos : 0 < h.cache.span) (hb : h.cache.base = some base)
    (done : h.cache.insert state.block state.root state.delta parentRoot = .ok (out, after)) :
    after.span = h.cache.span ∧ (h.call (.insert state parentRoot)).Within h.cache.span := by
  have hc := hh.wellFormed
  have reached : ∀ parent, h.cache.Fits state parentRoot parent →
      (ancestors h.accepted parentRoot).length ≤ h.flattened.length + h.cache.span := by
    intro parent fits
    obtain ⟨up, hup, hroot, _⟩ := fits.onto
    exact hroot ▸ hw parent up hup
  simp only [History.call, done]
  cases inserted_of_insert hc hb done with
  | ignored known => simpa [known] using hw
  | @tracked parent fits near =>
    refine ⟨rfl, ?_⟩
    have tracked := sound_track hh hb fits
    have hslot : (h.cache.track ⟨state, some parent⟩).2.branches.get?
        (h.cache.track ⟨state, some parent⟩).1 = some ⟨state, some parent⟩ := by
      rw [get?_track hc.arena, if_pos rfl]
    have tip : (ancestors h.accepted parentRoot).length + 1 ≤
        h.flattened.length + h.cache.span := by
      rcases near with near | rfl
      · have short := tracked.wellFormed.length_walk_le_of_withinSpan hb hslot near
        have line := tracked.length_ancestors hslot
        rw [ancestors, if_pos rfl, List.length_cons] at line
        exact line.trans_le (Nat.add_le_add_left short _)
      · -- A block right on the base starts a line of its own, however far ahead it is.
        obtain ⟨up, hup, hroot, _⟩ := fits.onto
        have line := congrArg List.length (hh.line parent up hb hup)
        rw [List.length_reverse, hroot] at line
        omega
    simpa [fits.fresh] using hw.track hh fits le_rfl tip
  | @moved parent next above after fits _ _ shift =>
    refine ⟨shift.span, ?_⟩
    have longer := hw.track hh fits (Nat.le_succ _) (Nat.succ_le_succ (reached parent fits))
    simpa [fits.fresh] using longer.shift shift

/-- The span stays, and with it the bound on the length of all lines. -/
theorem within_call (hh : h.Sound) (hw : h.Within h.cache.span) (pos : 0 < h.cache.span)
    (call : Call) :
    (h.call call).cache.span = h.cache.span ∧ (h.call call).Within h.cache.span := by
  cases call with
  | init block root =>
    simp only [History.call]
    cases done : h.cache.init block root with
    | error e => exact ⟨rfl, hw⟩
    | ok cache =>
      obtain ⟨hb, rfl⟩ := init_eq done
      obtain ⟨accepted, flattened⟩ := hh.unused hb
      refine ⟨rfl, ?_⟩
      intro slot branch _
      simp [accepted, ancestors]
  | insert state parentRoot =>
    cases done : h.cache.insert state.block state.root state.delta parentRoot with
    | error e => simpa [History.call, done] using hw
    | ok result =>
      obtain ⟨base, hb⟩ := base_of_insert done
      obtain ⟨span, within⟩ := hw.inserted hh pos hb done
      exact ⟨by simpa [History.call, done] using span, within⟩

theorem within_ofCalls (span : Nat) (calls : List Call) :
    (ofCalls span calls : History φ).Within (max span 1) := by
  have run : (ofCalls span calls : History φ).Sound ∧
      (ofCalls span calls : History φ).cache.span = max span 1 ∧
      (ofCalls span calls : History φ).Within (max span 1) := by
    refine List.foldlRecOn (motive := fun h : History φ =>
      h.Sound ∧ h.cache.span = max span 1 ∧ h.Within (max span 1)) calls call ?_ ?_
    · refine ⟨sound_ofSpan span, rfl, ?_⟩
      intro slot branch hlive
      cases hlive
    · rintro h ⟨hh, hspan, hw⟩ call _
      rw [← hspan] at hw ⊢
      have pos : 0 < h.cache.span := by omega
      exact ⟨sound_call hh call, within_call hh hw pos call⟩
  exact run.2.2

theorem length_walk_le (span : Nat) (calls : List Call)
    (hlive : (BranchCache.ofCalls span calls : BranchCache φ).branches.get? slot = some branch) :
    ((BranchCache.ofCalls span calls : BranchCache φ).walk branch.state.root).length ≤
      max span 1 := by
  rw [← cache_ofCalls] at hlive ⊢
  have within := within_ofCalls span calls slot branch hlive
  rw [(sound_ofCalls span calls).length_ancestors hlive] at within
  exact Nat.le_of_add_le_add_left within

end History

/--
On every run no chain has more states above the base than the span. So a single chain holds at
most one state more, and if no block is skipped, none is further above the base than the span.
-/
theorem walk_within_span [KeyFilter φ] (span : Nat) (calls : List Call) :
    let c : BranchCache φ := ofCalls span calls
    (∀ root, c.contains root = true → ∃ base, c.baseState? = some base ∧
      c.chain root = c.walk root ++ [base] ∧ (c.walk root).length ≤ max span 1) ∧
    (c.SingleChain → c.size ≤ max span 1 + 1) ∧
    (Consecutive (ofSpan span : BranchCache φ) calls → ∀ root, ∀ state ∈ c.chain root,
      ∀ base ∈ c.baseState?, state.block.toNat ≤ base.block.toNat + max span 1) := by
  intro c
  have hc : c.WellFormed := wellFormed_reachable (reachable_ofCalls span calls)
  have short : ∀ slot branch, c.branches.get? slot = some branch →
      (c.walk branch.state.root).length ≤ max span 1 :=
    fun _ _ => History.length_walk_le span calls
  refine ⟨?_, ?_, ?_⟩
  · intro root known
    obtain ⟨slot, branch, hlive, rfl⟩ := (hc.contains_iff root).mp known
    obtain ⟨base, up, hb, hup⟩ := hc.exists_base hlive
    exact ⟨up.state, baseState?_eq hb hup, hc.chain_eq_walk hb hup hlive, short slot branch hlive⟩
  · intro single
    obtain ⟨tip, le⟩ := hc.size_le_of_singleChain single
    exact le.trans (hc.length_chain_le short tip)
  · intro next root state mem base hbase
    obtain ⟨slot, branch, hlive, rfl⟩ := tracked_of_mem_chain mem
    obtain ⟨first, up, hb, hup⟩ := hc.exists_base hlive
    obtain rfl := Option.some.inj ((baseState?_eq hb hup).symm.trans hbase)
    have gapless : c.Gapless := gapless_foldl calls (.ofSpan span) (gapless_ofSpan span) next
    have line := short slot branch hlive
    have le := gapless.block_le hc hb hup hlive
    omega

/-- A fork that is left behind, a state that is tracked already and one that is too old. -/
def forkThenLine : List Call :=
  [.init 0 .zero, .insert ⟨1, .ofNat 1, none⟩ .zero, .insert ⟨1, .ofNat 9, none⟩ .zero,
    .insert ⟨2, .ofNat 2, none⟩ (.ofNat 1), .insert ⟨7, .ofNat 1, none⟩ (.ofNat 2),
    .insert ⟨3, .ofNat 3, none⟩ (.ofNat 2), .insert ⟨3, .ofNat 4, none⟩ (.ofNat 3)]

/-- The line stops at the span: the fork and the first base are gone, three states stay. -/
theorem walk_within_span_forkThenLine :
    let c : BranchCache BloomFilter := ofCalls 2 forkThenLine
    c.SingleChain ∧ Consecutive (ofSpan 2 : BranchCache BloomFilter) forkThenLine ∧
      c.size ≤ 3 ∧ (∀ state ∈ c.chain (.ofNat 3), ∀ base ∈ c.baseState?,
        state.block.toNat ≤ base.block.toNat + 2) ∧
      (c.chain (.ofNat 3)).map BlockState.block = [3, 2, 1] := by
  intro c
  have hc : c.WellFormed := wellFormed_reachable (reachable_ofCalls 2 forkThenLine)
  have single : c.SingleChain := hc.toIndexed.singleChain (.ofNat 3) (by decide +kernel)
  have next : Consecutive (ofSpan 2 : BranchCache BloomFilter) forkThenLine := by decide +kernel
  obtain ⟨_, size, blocks⟩ := walk_within_span (φ := BloomFilter) 2 forkThenLine
  exact ⟨single, next, size single, blocks next (.ofNat 3), by decide +kernel⟩

end StateSync.Store.BranchCache
