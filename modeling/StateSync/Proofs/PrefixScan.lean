import StateSync.Bytes.Lemmas
import StateSync.Proofs.ByteStore

/-!
Prefix scans of a backend. In key order the keys that start with a prefix stand side by side, right
behind the keys below the prefix, so a scan that begins at the prefix and stops at the first other
key has met them all. After any run of writes it shows what the last of them left in its table.
-/

namespace StateSync.Store

section Sorted

variable {α : Type} {P : α → Bool} {l : List α}

/-- What can only hold of a first part of a list parts it there. -/
theorem parted_eq_filter (closed : l.Pairwise fun x y => P y = true → P x = true) :
    l.takeWhile P = l.filter P ∧ l.dropWhile P = l.filter (!P ·) := by
  induction l with
  | nil => exact ⟨rfl, rfl⟩
  | cons x l ih =>
    obtain ⟨first, rest⟩ := List.pairwise_cons.mp closed
    cases holds : P x with
    | true =>
      obtain ⟨taken, dropped⟩ := ih rest
      rw [List.takeWhile_cons_of_pos holds, List.dropWhile_cons_of_pos holds, taken, dropped]
      simp [holds]
    | false =>
      have none : ∀ y ∈ x :: l, ¬P y = true := by
        intro y mem later
        rcases List.mem_cons.mp mem with rfl | mem
        · cases holds.symm.trans later
        · cases holds.symm.trans (first y mem later)
      have fails := none x List.mem_cons_self
      rw [List.takeWhile_cons_of_neg fails, List.dropWhile_cons_of_neg fails,
        List.filter_eq_nil_iff.mpr none]
      refine ⟨rfl, (List.filter_eq_self.mpr ?_).symm⟩
      intro y mem
      rw [Bool.eq_false_of_not_eq_true (none y mem), Bool.not_false]

end Sorted

section Between

variable {start a b : Bytes}

theorem not_lt_of_isPrefix (h : start <+: a) : ¬a < start := h.le

/-- Between a prefix and a key that starts with it, all keys start with it. -/
theorem isPrefix_of_between (above : ¬a < start) (below : a < b) (h : start <+: b) :
    start <+: a := by
  induction start generalizing a b with
  | nil => exact List.nil_prefix
  | cons first rest ih =>
    obtain ⟨tail, rfl⟩ := h
    cases a with
    | nil => exact absurd (List.nil_lt_cons first rest) above
    | cons head others =>
      rw [List.cons_lt_cons_iff] at above
      rw [List.cons_append, List.cons_lt_cons_iff] at below
      rcases below with less | ⟨rfl, less⟩
      · exact absurd (.inl less) above
      · have above' : ¬others < rest := fun less' => above (.inr ⟨rfl, less'⟩)
        exact List.cons_prefix_cons.mpr ⟨rfl, ih above' less (List.prefix_append rest tail)⟩

end Between

namespace Backend

theorem sorted_toList (rows : Rows) : rows.toList.Pairwise fun a b => a.1 < b.1 :=
  Std.TreeMap.ordered_keys_toList.imp Bytes.compare_eq_lt.mp

/-- A scan starts and stops where it should. -/
theorem scanRows_eq_filter (rows : Rows) (start : Bytes) :
    scanRows rows start = rows.toList.filter fun row => start.isPrefixOf row.1 := by
  have sorted := sorted_toList rows
  have skipped : (rows.toList.dropWhile fun row => compare row.1 start == .lt) =
      rows.toList.filter fun row => !(compare row.1 start == .lt) := by
    refine (parted_eq_filter (sorted.imp ?_)).2
    intro x y less below
    rw [beq_iff_eq, Bytes.compare_eq_lt] at below ⊢
    exact List.lt_trans less below
  have fromStart : (rows.toList.filter fun row => !(compare row.1 start == .lt)).Pairwise
      fun x y => start.isPrefixOf y.1 = true → start.isPrefixOf x.1 = true := by
    refine List.pairwise_filter.mpr (sorted.imp ?_)
    intro x y less notBelow _ starts
    rw [List.isPrefixOf_iff_prefix] at starts ⊢
    refine isPrefix_of_between (fun below => ?_) less starts
    simp [Bytes.compare_eq_lt.mpr below] at notBelow
  rw [scanRows, skipped, (parted_eq_filter fromStart).1, List.filter_filter]
  refine List.filter_congr fun row _ => ?_
  cases starts : start.isPrefixOf row.1 with
  | false => rfl
  | true =>
    have notBelow := not_lt_of_isPrefix (List.isPrefixOf_iff_prefix.mp starts)
    have ge : (compare row.1 start == .lt) = false := by
      rw [beq_eq_false_iff_ne]
      exact fun below => notBelow (Bytes.compare_eq_lt.mp below)
    rw [ge]
    rfl

theorem sorted_scanRows (rows : Rows) (start : Bytes) :
    (scanRows rows start).Pairwise fun a b => a.1 < b.1 := by
  rw [scanRows_eq_filter]
  exact (sorted_toList rows).filter _

theorem mem_scanRows {rows : Rows} {start key value : Bytes} :
    (key, value) ∈ scanRows rows start ↔ start <+: key ∧ rows[key]? = some value := by
  rw [scanRows_eq_filter, List.mem_filter, Std.TreeMap.mem_toList_iff_getElem?_eq_some,
    List.isPrefixOf_iff_prefix]
  exact and_comm

end Backend

theorem Table.name_of_ofName? {name : String} {t : Table} (h : Table.ofName? name = some t) :
    t.name = name := by
  have found := List.find?_some h
  simpa using found

/-- A write to the table of a name. -/
inductive Write
  | put (table : String) (key value : Bytes)
  | putAll (table : String) (batch : List (Bytes × Bytes))
  | delete (table : String) (key : Bytes)
  | clear (table : String)

namespace Write

def table : Write → String
  | put table _ _ | putAll table _ | delete table _ | clear table => table

/-- What a write makes of a backend, unless it is refused. -/
def apply (b : Backend) : Write → Except StorageFault Backend
  | put table key value => b.putAllNamed table [(key, value)]
  | putAll table batch => b.putAllNamed table batch
  | delete table key => b.deleteNamed table key
  | clear table => b.clearNamed table

/-- The backend after a write. A refused one leaves it as it was. -/
def run (w : Write) (b : Backend) : Backend := (w.apply b).toOption.getD b

/-- What a write leaves under a key, if it concerns it: a value, or none. -/
def leaves? (key : Bytes) : Write → Option (Option Bytes)
  | put _ written value => if written = key then some (some value) else none
  | putAll _ batch => (lastValue batch key).map some
  | delete _ deleted => if deleted = key then some none else none
  | clear _ => some none

/-- The rows of its table after a write. -/
def onRows (rows : Rows) : Write → Rows
  | put _ key value => rows.insertMany [(key, value)]
  | putAll _ batch => rows.insertMany batch
  | delete _ key => rows.erase key
  | clear _ => ∅

theorem getElem?_onRows (w : Write) (rows : Rows) (key : Bytes) :
    (w.onRows rows)[key]? = (w.leaves? key).getD rows[key]? := by
  cases w with
  | put _ written value =>
    rw [onRows, getElem?_insertMany, leaves?]
    by_cases same : written = key
    · simp [lastValue, same]
    · simp [lastValue, same]
  | putAll _ batch =>
    rw [onRows, getElem?_insertMany, leaves?]
    cases lastValue batch key <;> rfl
  | delete _ deleted =>
    simp only [onRows, leaves?, Std.TreeMap.getElem?_erase, Std.LawfulEqOrd.compare_eq_iff_eq]
    split <;> rfl
  | clear _ => simp [onRows, leaves?]

/-- A write to a known table is done while writing is in service. -/
theorem apply_of_known {b : Backend} {w : Write} {t : Table} (known : w.table = t.name)
    (inService : b.writeFault = none) :
    w.apply b = .ok (b.setRows t (w.onRows (b.rows t))) := by
  have putAll : ∀ batch, b.putAllNamed t.name batch =
      .ok (b.setRows t ((b.rows t).insertMany batch)) := by
    intro batch
    simp [Backend.putAllNamed, Backend.onTableUnless, Backend.onTable, Backend.putAll, inService]
  cases w with
  | put table key value =>
    obtain rfl : table = t.name := known
    exact putAll _
  | putAll table batch =>
    obtain rfl : table = t.name := known
    exact putAll _
  | delete table key =>
    obtain rfl : table = t.name := known
    simp [apply, Backend.deleteNamed, Backend.onTable, Backend.delete, onRows]
  | clear table =>
    obtain rfl : table = t.name := known
    simp [apply, Backend.clearNamed, Backend.onTable, Backend.clear, onRows]

/-- A write to an unknown table is refused. -/
theorem apply_of_unknown {b : Backend} {w : Write} (unknown : Table.ofName? w.table = none)
    (inService : b.writeFault = none) : w.apply b = .error (.unknownTable w.table) := by
  cases w with
  | put | putAll =>
    simp only [apply, table, Backend.putAllNamed, Backend.onTableUnless, Backend.onTable,
      inService] at unknown ⊢
    rw [unknown]
  | delete | clear =>
    simp only [apply, table, Backend.deleteNamed, Backend.clearNamed, Backend.onTable] at unknown ⊢
    rw [unknown]

/-- A write changes nothing, or the rows of its table. -/
theorem run_cases (w : Write) {b : Backend} (inService : b.writeFault = none) :
    (∀ t : Table, w.table ≠ t.name) ∧ w.run b = b ∨
      ∃ t : Table, w.table = t.name ∧ w.run b = b.setRows t (w.onRows (b.rows t)) := by
  unfold run
  cases known : Table.ofName? w.table with
  | none =>
    refine .inl ⟨fun t same => ?_, by rw [apply_of_unknown known inService]; rfl⟩
    rw [same, Table.ofName?_name] at known
    cases known
  | some t =>
    have name : w.table = t.name := (Table.name_of_ofName? known).symm
    exact .inr ⟨t, name, by rw [apply_of_known name inService]; rfl⟩

theorem writeFault_run (w : Write) {b : Backend} (inService : b.writeFault = none) :
    (w.run b).writeFault = none := by
  rcases w.run_cases inService with ⟨-, same⟩ | ⟨t, -, changed⟩
  · rw [same, inService]
  · rw [changed]
    cases t <;> exact inService

/-- Only a write to its own table concerns the rows of a table. -/
theorem rows_run (w : Write) {b : Backend} (inService : b.writeFault = none) (t : Table) :
    (w.run b).rows t = if w.table = t.name then w.onRows (b.rows t) else b.rows t := by
  rcases w.run_cases inService with ⟨unknown, same⟩ | ⟨u, name, changed⟩
  · rw [same, if_neg (unknown t)]
  · rw [changed]
    by_cases own : u = t
    · subst own
      rw [if_pos name, Backend.rows_setRows_self]
    · have other : w.table ≠ t.name := by
        intro same
        have found := congrArg Table.ofName? (name.symm.trans same)
        rw [Table.ofName?_name, Table.ofName?_name] at found
        exact own (Option.some.inj found)
      rw [if_neg other, Backend.rows_setRows_of_ne b own]

end Write

/-- The backend after some writes. -/
def Backend.afterWrites (b : Backend) (writes : List Write) : Backend :=
  writes.foldl (fun b w => w.run b) b

/-- The writes to a table. -/
def Write.to (t : Table) (writes : List Write) : List Write :=
  writes.filter fun w => w.table = t.name

/-- The value that some writes leave under a key: what the last that concerns it has left. -/
def Write.lastLeft (writes : List Write) (key : Bytes) : Option Bytes :=
  (writes.findSomeRev? (·.leaves? key)).join

namespace Backend

variable {b : Backend}

theorem rows_afterWrites (inService : b.writeFault = none) (writes : List Write) (t : Table) :
    (b.afterWrites writes).rows t = (Write.to t writes).foldl Write.onRows (b.rows t) := by
  induction writes generalizing b with
  | nil => rfl
  | cons w writes ih =>
    have later := ih (w.writeFault_run inService)
    rw [w.rows_run inService] at later
    rw [Write.to, List.filter_cons]
    change ((w.run b).afterWrites writes).rows t = _
    rw [later]
    by_cases own : w.table = t.name
    · simp [own, Write.to]
    · simp [own, Write.to]

theorem getElem?_foldl_onRows (writes : List Write) (rows : Rows) (key : Bytes) :
    (writes.foldl Write.onRows rows)[key]? =
      (writes.findSomeRev? (·.leaves? key)).getD rows[key]? := by
  induction writes generalizing rows with
  | nil => rfl
  | cons w writes ih =>
    rw [List.foldl_cons, ih, w.getElem?_onRows, List.findSomeRev?]
    cases writes.findSomeRev? (·.leaves? key) <;> rfl

/-- A table that was empty has what the writes to it have left. -/
theorem getElem?_afterWrites (writes : List Write) (t : Table) (key : Bytes) :
    ((afterWrites {} writes).rows t)[key]? = Write.lastLeft (Write.to t writes) key := by
  have empty : ((({} : Backend).rows t)[key]? : Option Bytes) = none := by
    cases t <;> rfl
  rw [rows_afterWrites rfl, getElem?_foldl_onRows, empty, Write.lastLeft]
  cases (Write.to t writes).findSomeRev? (·.leaves? key) <;> rfl

/--
After any writes to a new backend, a scan shows the keys that start with the prefix and have a value,
each once, in rising order and with what the last write to its table has left. Writes to other
tables may as well not have been made; a table that does not exist is not scanned.
-/
theorem scan_complete (writes : List Write) (name : String) (start : Bytes) :
    let answer := (afterWrites {} writes).scanNamed name start
    (Table.ofName? name = none → answer = .error (.unknownTable name)) ∧
    ∀ t : Table, t.name = name → ∃ rows, answer = .ok rows ∧
      rows.Pairwise (fun a b => a.1 < b.1) ∧
      (∀ key value, (key, value) ∈ rows ↔
        start <+: key ∧ Write.lastLeft (Write.to t writes) key = some value) ∧
      (afterWrites {} (Write.to t writes)).scanNamed name start = .ok rows := by
  intro answer
  constructor
  · intro unknown
    simp only [answer, scanNamed, onTable, unknown]
  · rintro t rfl
    have scanned : ∀ b : Backend, b.scanNamed t.name start = .ok (scanRows (b.rows t) start) := by
      intro b
      simp only [scanNamed, onTable, Table.ofName?_name, scan]
    refine ⟨_, scanned _, sorted_scanRows _ _, fun key value => ?_, ?_⟩
    · rw [mem_scanRows, getElem?_afterWrites]
    · have own : Write.to t (Write.to t writes) = Write.to t writes := by
        rw [Write.to, Write.to, List.filter_filter]
        simp
      rw [scanned, rows_afterWrites rfl, own, ← rows_afterWrites rfl]

/-- Keys of the greatest byte: one is written twice, one deleted, two belong to other tables. -/
def greatestBytes : List Write :=
  [.put "trie_nodes" [0xff, 0x01] [0x0a], .putAll "trie_nodes" [([0xff], [0x10]), ([0xfe], [0x20])],
    .put "snap_state" [0xff, 0x02] [0x30], .put "other" [0xff, 0x03] [0x40],
    .put "trie_nodes" [0xff, 0xff] [0x50], .delete "trie_nodes" [0xff, 0xff],
    .put "trie_nodes" [0xff, 0x01] [0x0b], .clear "snap_state"]

/-- The prefix itself comes first, then its live extension with the value written last. -/
theorem scan_complete_greatestBytes :
    let b := afterWrites {} greatestBytes
    b.scanNamed "other" [0xff] = .error (.unknownTable "other") ∧
      ∃ rows, b.scanNamed "trie_nodes" [0xff] = .ok rows ∧ ([0xff, 0x01], [0x0b]) ∈ rows ∧
        (∀ value, ([0xff, 0xff], value) ∉ rows) ∧ rows.length = 2 := by
  intro b
  have refused := (scan_complete greatestBytes "other" [0xff]).1 (by decide +kernel)
  obtain ⟨rows, shown, -, found, -⟩ :=
    (scan_complete greatestBytes "trie_nodes" [0xff]).2 .trieNodes rfl
  have written : Write.lastLeft (Write.to .trieNodes greatestBytes) [0xff, 0x01] = some [0x0b] := by
    decide +kernel
  have deleted : Write.lastLeft (Write.to .trieNodes greatestBytes) [0xff, 0xff] = none := by
    decide +kernel
  have two : (b.scanNamed "trie_nodes" [0xff]).toOption.map List.length = some 2 := by
    decide +kernel
  rw [shown] at two
  refine ⟨refused, rows, shown, (found _ _).mpr ⟨⟨[0x01], rfl⟩, written⟩, ?_, Option.some.inj two⟩
  intro value mem
  cases deleted.symm.trans ((found _ _).mp mem).2

end Backend

end StateSync.Store
