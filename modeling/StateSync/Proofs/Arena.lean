import Mathlib
import StateSync.Store.Arena

/-! The free list of an arena: every operation keeps it sound, and new values never overwrite. -/

namespace StateSync.Store.Arena

variable {α : Type} {a : Arena α} {slot : Nat} {value : α}

theorem lt_size_of_get? (h : a.get? slot = some value) : slot < a.slots.size := by
  by_contra hn
  simp [get?, Array.getElem?_eq_none (Nat.le_of_not_lt hn)] at h

theorem wellFormed_empty : ({} : Arena α).WellFormed := ⟨by simp, by simp, by simp⟩

/-- A value never takes the place of another. -/
theorem get?_insert_slot (ha : a.WellFormed) (value : α) : a.get? (a.insert value).1 = none := by
  unfold insert
  cases hf : a.free with
  | nil => simp [get?]
  | cons first free => exact ha.free_vacant first (hf ▸ List.mem_cons_self)

theorem wellFormed_insert (ha : a.WellFormed) (value : α) : (a.insert value).2.WellFormed := by
  have hget := get?_insert ha value
  unfold insert at hget ⊢
  cases hf : a.free with
  | nil => simpa [hf] using (⟨by simp, by simp, by simp⟩ : WellFormed _)
  | cons first free =>
    simp only [hf] at hget ⊢
    have hnodup := List.nodup_cons.mp (hf ▸ ha.free_nodup)
    refine ⟨?_, ?_, hnodup.2⟩
    · intro s hs
      simpa using ha.free_lt s (hf ▸ List.mem_cons_of_mem first hs)
    · intro s hs
      have hne : s ≠ first := fun he => hnodup.1 (he ▸ hs)
      rw [hget, if_neg hne]
      exact ha.free_vacant s (hf ▸ List.mem_cons_of_mem first hs)

theorem wellFormed_remove (ha : a.WellFormed) (slot : Nat) : (a.remove slot).WellFormed := by
  have hself := get?_remove_self a slot
  have hother := fun other (h : slot ≠ other) => get?_remove_of_ne a h
  unfold remove at hself hother ⊢
  cases h : a.get? slot with
  | none => exact ha
  | some value =>
    simp only [h] at hself hother ⊢
    have hnot : slot ∉ a.free := fun hmem => by simp [ha.free_vacant slot hmem] at h
    refine ⟨?_, ?_, List.nodup_cons.mpr ⟨hnot, ha.free_nodup⟩⟩
    · intro s hs
      rcases List.mem_cons.mp hs with rfl | hs
      · simpa using lt_size_of_get? h
      · simpa using ha.free_lt s hs
    · intro s hs
      rcases List.mem_cons.mp hs with rfl | hs
      · exact hself
      · have hne : slot ≠ s := fun he => hnot (he ▸ hs)
        rw [hother s hne]
        exact ha.free_vacant s hs

theorem wellFormed_modify (ha : a.WellFormed) (slot : Nat) (change : α → α) :
    (a.modify slot change).WellFormed := by
  refine ⟨?_, ?_, ha.free_nodup⟩
  · intro s hs
    simpa [modify] using ha.free_lt s hs
  · intro s hs
    simp [get?_modify, ha.free_vacant s hs]

theorem mem_live : slot ∈ a.live ↔ ∃ value, a.get? slot = some value := by
  simp only [live, List.mem_filter, List.mem_range, Option.isSome_iff_exists]
  exact ⟨fun h => h.2, fun h => ⟨lt_size_of_get? h.choose_spec, h⟩⟩

theorem nodup_live (a : Arena α) : a.live.Nodup := List.nodup_range.filter _

theorem mem_toList : (slot, value) ∈ a.toList ↔ a.get? slot = some value := by
  simp only [toList, List.mem_filterMap, List.mem_range, Option.map_eq_some_iff, Prod.mk.injEq]
  constructor
  · rintro ⟨s, _, v, hv, rfl, rfl⟩
    exact hv
  · intro h
    exact ⟨slot, lt_size_of_get? h, value, h, rfl, rfl⟩

theorem nodup_toList (a : Arena α) : a.toList.Nodup := by
  refine List.nodup_range.filterMap ?_
  intro slot other entry hslot hother
  obtain ⟨_, _, rfl⟩ := Option.map_eq_some_iff.mp hslot
  obtain ⟨_, _, same⟩ := Option.map_eq_some_iff.mp hother
  exact (congrArg Prod.fst same).symm

end StateSync.Store.Arena
