import Mathlib
import StateSync.Store.Backend

/-! Batches: the last value of a key wins and every other key keeps its value. -/

namespace StateSync.Store

/-- The value that a batch leaves under a key. -/
def lastValue (batch : List (Bytes × Bytes)) (key : Bytes) : Option Bytes :=
  batch.findSomeRev? fun row => if row.1 = key then some row.2 else none

/-- A store in which a stored batch is found again and all else is found as before. -/
class LawfulByteStore (σ : Type) [ByteStore σ] : Prop where
  get_putAll : ∀ {s t : σ} {batch : List (Bytes × Bytes)} {key : Bytes} {old : Option Bytes},
    ByteStore.putAll s batch = (.ok (), t) → ByteStore.get s key = .ok old →
      ByteStore.get t key = .ok ((lastValue batch key).or old)

theorem lastValue_eq_some {batch : List (Bytes × Bytes)} {key value : Bytes}
    (h : lastValue batch key = some value) : (key, value) ∈ batch := by
  rw [lastValue, List.findSomeRev?_eq_findSome?_reverse] at h
  obtain ⟨row, hrow, hvalue⟩ := List.exists_of_findSome?_eq_some h
  split at hvalue
  · next hkey =>
    obtain rfl := Option.some.inj hvalue
    exact hkey ▸ List.mem_reverse.mp hrow
  · cases hvalue

theorem lastValue_eq_none {batch : List (Bytes × Bytes)} {key : Bytes} :
    lastValue batch key = none ↔ ∀ value, (key, value) ∉ batch := by
  simp only [lastValue, List.findSomeRev?_eq_findSome?_reverse, List.findSome?_eq_none_iff,
    List.mem_reverse]
  constructor
  · intro h value hmem
    simpa using h _ hmem
  · intro h row hmem
    have hne : row.1 ≠ key := fun he => h row.2 (he ▸ hmem)
    simp [hne]

theorem getElem?_insertMany (rows : Rows) (batch : List (Bytes × Bytes)) (key : Bytes) :
    (rows.insertMany batch)[key]? = (lastValue batch key).or rows[key]? := by
  simp only [Std.TreeMap.getElem?_insertMany_list, Std.LawfulEqOrd.compare_eq_iff_eq]
  rfl

/-- The rows of a map hold one value for a key, whichever of them is taken. -/
theorem lastValue_toList (rows : Rows) (key : Bytes) : lastValue rows.toList key = rows[key]? := by
  cases h : lastValue rows.toList key with
  | some value =>
    exact (Std.TreeMap.mem_toList_iff_getElem?_eq_some.mp (lastValue_eq_some h)).symm
  | none =>
    cases hrow : rows[key]? with
    | none => rfl
    | some value =>
      have hmem := Std.TreeMap.mem_toList_iff_getElem?_eq_some.mpr hrow
      exact (lastValue_eq_none.mp h value hmem).elim

instance : LawfulByteStore Rows where
  get_putAll {s t batch key old} hput hget := by
    obtain rfl : s.insertMany batch = t := congrArg Prod.snd hput
    have hold : s[key]? = old := Except.ok.inj hget
    show Except.ok (s.insertMany batch)[key]? = _
    rw [getElem?_insertMany, hold]

namespace Backend

theorem rows_of_get {b : Backend} {t : Table} {key : Bytes} {row : Option Bytes}
    (h : b.get t key = .ok row) : (b.rows t)[key]? = row := by
  unfold get at h
  split at h
  · cases h
  · exact Except.ok.inj h

theorem putAll_eq {b c : Backend} {t : Table} {batch : List (Bytes × Bytes)}
    (h : b.putAll t batch = .ok c) : c = b.setRows t ((b.rows t).insertMany batch) := by
  unfold putAll at h
  split at h
  · cases h
  · exact (Except.ok.inj h).symm

theorem rows_of_put {b c : Backend} {t : Table} {key value : Bytes}
    (h : b.put t key value = .ok c) : (c.rows t)[key]? = some value := by
  rw [putAll_eq h, rows_setRows_self, getElem?_insertMany]
  simp [lastValue]

/-- A write is refused exactly while writing is out of service. -/
theorem put_cases (b : Backend) (t : Table) (key value : Bytes) :
    b.writeFault = none ∧ (∃ c, b.put t key value = .ok c) ∨
      ∃ fault, b.writeFault = some fault ∧ b.put t key value = .error fault := by
  cases out : b.writeFault with
  | none =>
    exact .inl ⟨rfl, b.setRows t ((b.rows t).insertMany [(key, value)]), by
      simp only [put, putAll, out]⟩
  | some fault => exact .inr ⟨fault, rfl, by simp only [put, putAll, out]⟩

theorem readFault_putAll {b c : Backend} {t : Table} {batch : List (Bytes × Bytes)}
    (h : b.putAll t batch = .ok c) : c.readFault = b.readFault := by
  obtain rfl := putAll_eq h
  cases t <;> rfl

theorem writeFault_put {b c : Backend} {t : Table} {key value : Bytes}
    (h : b.put t key value = .ok c) : c.writeFault = b.writeFault := by
  obtain rfl := putAll_eq h
  cases t <;> rfl

theorem get_putAll {b c : Backend} {t : Table} {batch : List (Bytes × Bytes)} {key : Bytes}
    {old : Option Bytes} (hput : b.putAll t batch = .ok c) (hget : b.get t key = .ok old) :
    c.get t key = .ok ((lastValue batch key).or old) := by
  have row := rows_of_get hget
  unfold get at hget ⊢
  rw [readFault_putAll hput]
  split at hget
  · cases hget
  · rw [putAll_eq hput, rows_setRows_self, getElem?_insertMany, row]

/-- A table of a backend that can be read is read by its rows. -/
theorem get_tableStore {b : Backend} (readable : b.readFault = none) (t : Table) (key : Bytes) :
    ByteStore.get (⟨b, t.name⟩ : TableStore) key = .ok (b.rows t)[key]? := by
  simp [ByteStore.get, getNamed, onTableUnless, onTable, get, readable, Except.mapError]

end Backend

instance : LawfulByteStore TableStore where
  get_putAll {s t batch key old} hput hget := by
    simp only [ByteStore.putAll, ByteStore.get, Backend.putAllNamed, Backend.getNamed,
      Backend.onTableUnless, Backend.onTable] at hput hget ⊢
    cases htable : Table.ofName? s.table with
    | none => cases hw : s.backend.writeFault <;> simp [hw, htable] at hput
    | some table =>
      cases hw : s.backend.writeFault with
      | some fault => simp [hw] at hput
      | none =>
        cases hr : s.backend.readFault with
        | some fault => simp [hr, Except.mapError] at hget
        | none =>
          cases hc : s.backend.putAll table batch with
          | error fault => simp [hw, htable, hc] at hput
          | ok c =>
            obtain rfl : { s with backend := c } = t := by simpa [hw, htable, hc] using hput
            have hold : s.backend.get table key = .ok old := by
              cases hg : s.backend.get table key <;>
                simp_all [Except.mapError]
            have hget := Backend.get_putAll hc hold
            simp [Backend.readFault_putAll hc, hr, htable, hget, Except.mapError]

end StateSync.Store
