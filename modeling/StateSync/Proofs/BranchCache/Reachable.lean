import Mathlib
import StateSync.Proofs.BranchCache.Insert

/-! The states of a branch cache. In all of them the links form a tree and the filter is honest. -/

namespace StateSync.Store

/--
A filter that claims every key that was put into it since it was made. What it says of other keys is
open, and may change with every key that is put in.
-/
class HonestKeyFilter (φ : Type) [KeyFilter φ] : Prop where
  contains_insertAll : ∀ (expected : Nat) (keys : List Bytes), ∀ key ∈ keys,
    KeyFilter.contains (KeyFilter.insertAll (KeyFilter.empty expected : φ) keys) key = true

namespace KeyFilter

variable {φ : Type} [KeyFilter φ] [LawfulKeyFilter φ]

theorem contains_insertAll_of_contains (keys : List Bytes) {f : φ} {key : Bytes}
    (h : contains f key = true) : contains (insertAll f keys) key = true := by
  induction keys generalizing f with
  | nil => exact h
  | cons first keys ih =>
    exact ih (LawfulKeyFilter.contains_insert_of_contains f first key h)

theorem contains_insertAll_of_mem {keys : List Bytes} (f : φ) {key : Bytes} (h : key ∈ keys) :
    contains (insertAll f keys) key = true := by
  induction keys generalizing f with
  | nil => cases h
  | cons first keys ih =>
    rcases List.mem_cons.mp h with rfl | h
    · exact contains_insertAll_of_contains keys (LawfulKeyFilter.contains_insert_self f key)
    · exact ih _ h

instance : HonestKeyFilter φ where
  contains_insertAll _ _ _ := contains_insertAll_of_mem _

end KeyFilter

namespace BranchCache

variable {φ : Type} [KeyFilter φ] {c after moved : BranchCache φ} {base next slot : Nat}
  {branch above : Branch} {block : UInt64} {root parentRoot : Hash} {key : Bytes}

/-- The states a cache can be in: calls that fail leave it as it is. -/
inductive Reachable : BranchCache φ → Prop
  | ofSpan (span : Nat) : Reachable (ofSpan span)
  | init {c after : BranchCache φ} {block : UInt64} {root : Hash} :
      Reachable c → c.init block root = .ok after → Reachable after
  | insert {c after : BranchCache φ} {state : BlockState} {parentRoot : Hash}
      {out : Option BlockState} : Reachable c →
      c.insert state.block state.root state.delta parentRoot = .ok (out, after) → Reachable after

/-- A call that changes a cache. -/
inductive Call
  | init (block : UInt64) (root : Hash)
  | insert (state : BlockState) (parentRoot : Hash)

/-- The cache after a call. A call that fails leaves it as it was. -/
def Call.run : Call → BranchCache φ → BranchCache φ
  | init block root, c =>
    match c.init block root with
    | .ok after => after
    | .error _ => c
  | insert state parentRoot, c =>
    match c.insert state.block state.root state.delta parentRoot with
    | .ok (_, after) => after
    | .error _ => c

/-- What a new cache comes to by calls. -/
def ofCalls (span : Nat) (calls : List Call) : BranchCache φ :=
  calls.foldl (fun c call => call.run c) (ofSpan span)

theorem Reachable.run (h : Reachable c) (call : Call) : Reachable (call.run c) := by
  cases call with
  | init block root =>
    simp only [Call.run]
    split
    · next done => exact h.init done
    · exact h
  | insert state parentRoot =>
    simp only [Call.run]
    split
    · next done => exact h.insert done
    · exact h

theorem reachable_ofCalls (span : Nat) (calls : List Call) :
    Reachable (ofCalls span calls : BranchCache φ) :=
  List.foldlRecOn calls _ (.ofSpan span) fun _ h call _ => h.run call

theorem wellFormed_ofSpan (span : Nat) : (ofSpan span : BranchCache φ).WellFormed := by
  have hvacant : ∀ slot, (ofSpan span : BranchCache φ).branches.get? slot = none := fun _ => rfl
  refine
    { arena := Arena.wellFormed_empty, roots := ?_
      base_live := ?_, base_delta := ?_, base_iff := ?_, linked := ?_ }
  · intro root slot
    have hroots : (ofSpan span : BranchCache φ).roots[root]? = none := by simp [ofSpan]
    simp [hvacant, hroots]
  · intro slot h
    cases h
  · intro slot branch h
    cases h
  · intro slot branch h
    simp [hvacant] at h
  · intro slot branch parent h
    simp [hvacant] at h

/-- A new cache takes any base. -/
theorem init_ofSpan (span : Nat) (block : UInt64) (root : Hash) :
    (ofSpan span : BranchCache φ).init block root =
      .ok { ((ofSpan span).track ⟨⟨block, root, none⟩, none⟩).2 with
        base := some ((ofSpan span : BranchCache φ).track ⟨⟨block, root, none⟩, none⟩).1 } :=
  rfl

theorem init_eq (h : c.init block root = .ok after) :
    c.base = none ∧ after = { (c.track ⟨⟨block, root, none⟩, none⟩).2 with
      base := some (c.track ⟨⟨block, root, none⟩, none⟩).1 } := by
  unfold init at h
  split at h
  · cases h
  · next hb => exact ⟨hb, (Except.ok.inj h).symm⟩

theorem wellFormed_init (hc : c.WellFormed) (h : c.init block root = .ok after) :
    after.WellFormed := by
  obtain ⟨hb, rfl⟩ := init_eq h
  have hvacant := hc.get?_of_base_none hb
  have hfresh : c.contains root = false := by
    by_contra hn
    obtain ⟨slot, branch, hlive, _⟩ := (hc.contains_iff root).mp (by simpa using hn)
    simp [hvacant] at hlive
  have hindexed : (c.track ⟨⟨block, root, none⟩, none⟩).2.Indexed :=
    indexed_track hc.toIndexed hfresh
  have hget := get?_track hc.arena ⟨⟨block, root, none⟩, none⟩
  simp only [hvacant] at hget
  refine
    { arena := hindexed.arena, roots := hindexed.roots
      base_live := ?_, base_delta := ?_, base_iff := ?_, linked := ?_ }
  · intro slot hslot
    obtain rfl := Option.some.inj hslot
    exact ⟨_, by rw [hget, if_pos rfl]⟩
  · intro slot branch hslot hlive
    obtain rfl := Option.some.inj hslot
    rw [hget, if_pos rfl] at hlive
    obtain rfl := Option.some.inj hlive
    rfl
  · intro slot branch hlive
    rw [hget] at hlive
    split at hlive
    · next hs =>
      obtain rfl := Option.some.inj hlive
      simp [hs]
    · cases hlive
  · intro slot branch parent hlive hp
    rw [hget] at hlive
    split at hlive
    · obtain rfl := Option.some.inj hlive
      cases hp
    · cases hlive

/-- Without a base there is nothing to insert on. -/
theorem base_of_insert {out : Option BlockState} {delta : Option Delta}
    (h : c.insert block root delta parentRoot = .ok (out, after)) : ∃ base, c.base = some base := by
  cases hb : c.base with
  | none => simp [insert, hb] at h
  | some base => exact ⟨base, rfl⟩

theorem Inserted.wellFormed {state : BlockState} {out : Option BlockState}
    (h : Inserted c base state parentRoot out after) (hc : c.WellFormed) (hb : c.base = some base) :
    after.WellFormed := by
  cases h with
  | ignored _ => exact hc
  | tracked hfits _ => exact hfits.wellFormed hc
  | moved hfits _ _ hmoved => exact hmoved.wellFormed (hfits.wellFormed hc) hb

theorem wellFormed_reachable (h : Reachable c) : c.WellFormed := by
  induction h with
  | ofSpan span => exact wellFormed_ofSpan span
  | init _ h ih => exact wellFormed_init ih h
  | insert _ h ih =>
    obtain ⟨base, hb⟩ := base_of_insert h
    exact (inserted_of_insert ih hb h).wellFormed ih hb

/-- The filter claims every key of every tracked delta. -/
def Covers (c : BranchCache φ) : Prop :=
  ∀ key ∈ c.trackedKeys, KeyFilter.contains c.filter key = true

omit [KeyFilter φ] in
theorem mem_trackedKeys : key ∈ c.trackedKeys ↔ ∃ slot branch delta,
    c.branches.get? slot = some branch ∧ branch.state.delta = some delta ∧ key ∈ delta.keys := by
  simp only [trackedKeys, List.mem_flatMap, Prod.exists, Arena.mem_toList]
  constructor
  · rintro ⟨slot, branch, hlive, hkey⟩
    cases hd : branch.state.delta with
    | none => simp [hd] at hkey
    | some delta => exact ⟨slot, branch, delta, hlive, hd, by simpa [hd] using hkey⟩
  · rintro ⟨slot, branch, delta, hlive, hd, hkey⟩
    exact ⟨slot, branch, hlive, by simpa [hd] using hkey⟩

/-- These keys were put into the filter since it was made, all that are tracked among them. -/
structure Fed (c : BranchCache φ) (keys : List Bytes) : Prop where
  filter : ∃ expected, c.filter = KeyFilter.insertAll (KeyFilter.empty expected) keys
  tracked : c.trackedKeys ⊆ keys

/-- Tracking puts in the keys of the new branch and keeps those that are there. -/
theorem Fed.track {keys : List Bytes} (hf : c.Fed keys) (ha : c.branches.WellFormed)
    (branch : Branch) :
    (c.track branch).2.Fed (keys ++ (branch.state.delta.map Delta.keys).getD []) := by
  constructor
  case filter =>
    obtain ⟨expected, made⟩ := hf.filter
    refine ⟨expected, ?_⟩
    change KeyFilter.insertAll c.filter _ = _
    rw [made, KeyFilter.insertAll, KeyFilter.insertAll, ← List.foldl_append]
    rfl
  case tracked =>
    intro key mem
    obtain ⟨slot, tracked, delta, hlive, hd, hkey⟩ := mem_trackedKeys.mp mem
    rw [get?_track ha] at hlive
    split at hlive
    · obtain rfl := Option.some.inj hlive
      rw [hd]
      exact List.mem_append_right keys hkey
    · exact List.mem_append_left _
        (hf.tracked (mem_trackedKeys.mpr ⟨slot, tracked, delta, hlive, hd, hkey⟩))

/-- When the base moves, the filter is made anew from the keys that stay. -/
theorem Moved.fed (hm : Moved c moved base next above) : moved.Fed moved.trackedKeys where
  filter := ⟨_, hm.filter⟩
  tracked := List.Subset.refl _

theorem exists_fed (h : Reachable c) : ∃ keys, c.Fed keys := by
  induction h with
  | ofSpan span => exact ⟨[], ⟨0, rfl⟩, List.Subset.refl _⟩
  | @init _ _ block root hr h ih =>
    obtain ⟨keys, fed⟩ := ih
    obtain ⟨_, rfl⟩ := init_eq h
    have first := fed.track (wellFormed_reachable hr).arena ⟨⟨block, root, none⟩, none⟩
    exact ⟨_, first.filter, first.tracked⟩
  | insert hr h ih =>
    obtain ⟨keys, fed⟩ := ih
    obtain ⟨base, hb⟩ := base_of_insert h
    have hc := wellFormed_reachable hr
    cases inserted_of_insert hc hb h with
    | ignored _ => exact ⟨keys, fed⟩
    | tracked _ _ => exact ⟨_, fed.track hc.arena _⟩
    | moved _ _ _ hmoved => exact ⟨_, hmoved.fed⟩

theorem covers_reachable [HonestKeyFilter φ] (h : Reachable c) : c.Covers := by
  intro key mem
  obtain ⟨keys, fed⟩ := exists_fed h
  obtain ⟨expected, made⟩ := fed.filter
  rw [made]
  exact HonestKeyFilter.contains_insertAll expected keys key (fed.tracked mem)

end BranchCache

end StateSync.Store
