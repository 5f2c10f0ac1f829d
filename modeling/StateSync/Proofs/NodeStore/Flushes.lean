import StateSync.Proofs.NodeStore.Durability

/-!
What a flush up to a block writes. A key has one node in memory, so a key that is due is written as
it was last committed, also when that was for a block above: the row then skips what the blocks up
to the boundary left under the key.
-/

namespace StateSync.Store.NodeStore.Journal

open Trie

variable {κ : Type}

/-- The commits for blocks up to one. -/
def upTo (block : UInt64) (commits : List (Commit κ)) : List (Commit κ) :=
  commits.filter fun c => c.block ≤ block

section Last

variable [DecidableEq κ] {commits : List (Commit κ)} {key : κ}

theorem lastPayload_eq_none :
    lastPayload commits key = none ↔ ∀ c ∈ commits, c.key ≠ key := by
  simp [lastPayload, List.findSome?_eq_none_iff]

/-- Blocks with the same commits of a key below them have the same last one. -/
theorem lastPayload_upTo_congr {block other : UInt64}
    (same : ∀ c ∈ commits, c.key = key → (c.block ≤ block ↔ c.block ≤ other)) :
    lastPayload (upTo block commits) key = lastPayload (upTo other commits) key := by
  induction commits with
  | nil => rfl
  | cons c commits ih =>
    have rest := ih fun d mem => same d (List.mem_cons_of_mem _ mem)
    by_cases hkey : c.key = key
    · have both := same c List.mem_cons_self hkey
      by_cases le : c.block ≤ block
      · simp [upTo, le, both.mp le, lastPayload_cons, hkey]
      · simpa [upTo, le, mt both.mpr le] using rest
    · have skip : ∀ bound, lastPayload (upTo bound (c :: commits)) key =
          lastPayload (upTo bound commits) key := fun bound => by
        by_cases le : c.block ≤ bound <;> simp [upTo, le, lastPayload_cons, hkey]
      rw [skip, skip, rest]

end Last

variable [NodeKey κ]

/-- A property of every flush of a run, of the journals before and after it and of its block. -/
def EveryFlush (P : Journal κ → UInt64 → Journal κ → Prop) : Journal κ → List (Call κ) → Prop
  | _, [] => True
  | j, c :: calls =>
    (∀ block, c.announced? j.store = some block → P j block (j.call c)) ∧
      EveryFlush P (j.call c) calls

variable [DecidableEq κ] {keys : Set κ} {backend : Backend} {j : Journal κ}

/-- A key was committed up to a block and above the boundary. -/
def Due (j : Journal κ) (block : UInt64) (key : κ) : Prop :=
  ∃ c ∈ j.commits, c.key = key ∧ c.block ≤ block ∧ j.store.settled c.block = false

/-- A flush writes the keys that are due, each as it was last committed, and no others. -/
def WritesLatest (keys : Set κ) (j : Journal κ) (block : UInt64) (after : Journal κ) : Prop :=
  ∀ key ∈ keys, (j.Due block key → after.row key = lastPayload j.commits key) ∧
    (¬j.Due block key → after.row key = j.row key)

/-- A flush leaves in each row what the commits up to its block left under the key. -/
def Faithful (keys : Set κ) (j : Journal κ) (block : UInt64) (after : Journal κ) : Prop :=
  ∀ key ∈ keys, after.row key = (lastPayload (upTo block j.commits) key).or (j.row key)

/-- At a flush no key that is due was last committed otherwise, for a later block. -/
def NoneOvertaken (keys : Set κ) (j : Journal κ) (block : UInt64) (_ : Journal κ) : Prop :=
  ∀ key ∈ keys, j.Due block key → lastPayload j.commits key = lastPayload (upTo block j.commits) key

/-- The rows are what the commits up to the boundary left. -/
def RowsAtBoundary (keys : Set κ) (j : Journal κ) : Prop :=
  ∀ boundary, j.store.boundary = some boundary → ∀ key ∈ keys, ∀ payload,
    lastPayload (upTo boundary j.commits) key = some payload → j.row key = some payload

omit [DecidableEq κ] in
theorem EveryFlush.imp {P Q R : Journal κ → UInt64 → Journal κ → Prop} {calls : List (Call κ)}
    (himp : ∀ j block after, P j block after → Q j block after → R j block after)
    (hP : EveryFlush P j calls) (hQ : EveryFlush Q j calls) : EveryFlush R j calls := by
  induction calls generalizing j with
  | nil => trivial
  | cons c calls ih =>
    exact ⟨fun block h => himp _ _ _ (hP.1 block h) (hQ.1 block h), ih hP.2 hQ.2⟩

theorem mem_queued_iff_due (scheduled : j.Scheduled) {block : UInt64}
    (above : j.store.settled block = false) (key : κ) :
    key ∈ j.store.queued (· ≤ block) ↔ j.Due block key := by
  rw [mem_queued]
  constructor
  · rintro ⟨queuedBlock, le, waits⟩
    obtain ⟨c, mem, rfl, rfl⟩ := scheduled.origin _ _ waits
    refine ⟨c, mem, rfl, of_decide_eq_true le, ?_⟩
    by_contra below
    have all := scheduled.leftover _ _ waits (Bool.eq_true_of_not_eq_false below)
    cases above.symm.trans (all block)
  · rintro ⟨c, mem, rfl, le, unsettled⟩
    exact ⟨c.block, decide_eq_true le, scheduled.listed c mem unsettled⟩

theorem contents_of_due {block : UInt64} {key : κ} (h : j.Due block key) :
    j.contents backend key = lastPayload j.commits key := by
  obtain ⟨c, mem, hkey, -, -⟩ := h
  cases last : lastPayload j.commits key with
  | none => exact absurd hkey (lastPayload_eq_none.mp last c mem)
  | some payload => simp [contents, last]

/-- Outside of what is due, the rows settled at the boundary are those of any later block. -/
theorem RowsAtBoundary.row_eq (hj : j.RowsAtBoundary keys) {block : UInt64}
    (above : j.store.settled block = false) {key : κ} (mem : key ∈ keys)
    (undue : ¬j.Due block key) :
    j.row key = (lastPayload (upTo block j.commits) key).or (j.row key) := by
  cases last : lastPayload (upTo block j.commits) key with
  | none => rfl
  | some payload =>
    have old : ∀ c ∈ j.commits, c.key = key → c.block ≤ block → j.store.settled c.block = true := by
      intro c hc hkey le
      by_contra unsettled
      exact undue ⟨c, hc, hkey, le, Bool.eq_false_of_not_eq_true unsettled⟩
    cases known : j.store.boundary with
    | none =>
      have unsettled : ∀ c : Commit κ, j.store.settled c.block ≠ true := by
        simp [NodeStore.settled, known]
      have none : lastPayload (upTo block j.commits) key = none := by
        refine lastPayload_eq_none.mpr fun c hc hkey => ?_
        obtain ⟨hc, le⟩ := List.mem_filter.mp hc
        exact unsettled c (old c hc hkey (of_decide_eq_true le))
      cases none.symm.trans last
    | some boundary =>
      have settles : ∀ later, j.store.settled later = decide (later ≤ boundary) := fun later => by
        rw [NodeStore.settled, known]
      rw [settles, decide_eq_false_iff_not] at above
      have same : lastPayload (upTo block j.commits) key =
          lastPayload (upTo boundary j.commits) key := by
        refine lastPayload_upTo_congr fun c hc hkey => ⟨fun le => ?_, fun le => ?_⟩
        · exact of_decide_eq_true ((settles _).symm.trans (old c hc hkey le))
        · exact UInt64.le_trans le (UInt64.le_of_lt (UInt64.not_le.mp above))
      exact hj boundary known key mem payload (same.symm.trans last)

theorem Due.exists_upTo {block : UInt64} {key : κ} (h : j.Due block key) :
    ∃ payload, lastPayload (upTo block j.commits) key = some payload := by
  obtain ⟨c, mem, hkey, le, -⟩ := h
  rw [← Option.ne_none_iff_exists', Ne, lastPayload_eq_none]
  intro none
  exact none c (List.mem_filter.mpr ⟨mem, decide_eq_true le⟩) hkey

theorem faithful_of_noneOvertaken {block : UInt64} {after : Journal κ}
    (hj : j.RowsAtBoundary keys) (above : j.store.settled block = false)
    (written : WritesLatest keys j block after) (current : NoneOvertaken keys j block after) :
    Faithful keys j block after := by
  intro key mem
  by_cases due : j.Due block key
  · obtain ⟨payload, last⟩ := due.exists_upTo
    rw [(written key mem).1 due, current key mem due, last]
    rfl
  · rw [(written key mem).2 due]
    exact hj.row_eq above mem due

theorem noneOvertaken_of_faithful {block : UInt64} {after : Journal κ}
    (written : WritesLatest keys j block after) (faithful : Faithful keys j block after) :
    NoneOvertaken keys j block after := by
  intro key mem due
  obtain ⟨payload, last⟩ := due.exists_upTo
  rw [← (written key mem).1 due, faithful key mem, last]
  rfl

theorem RowsAtBoundary.congr {s : NodeStore κ} (hj : j.RowsAtBoundary keys)
    (same : Agrees j.store s) : RowsAtBoundary keys { j with store := s } := by
  intro boundary known key mem payload last
  have old := hj boundary (same.boundary.symm.trans known) key mem payload last
  exact (congrArg (·[NodeKey.toBytes key]?) same.rows).trans old

/-- A commit that is accepted is above the boundary. -/
theorem rowsAtBoundary_store {block : UInt64} {key : κ} {payload : Bytes}
    (hj : j.RowsAtBoundary keys) (above : j.store.settled block = false) : RowsAtBoundary keys
      { store := j.store.store block key payload
        commits := ⟨block, key, payload⟩ :: j.commits } := by
  intro boundary known other mem found last
  change j.store.boundary = some boundary at known
  rw [NodeStore.settled, known, decide_eq_false_iff_not] at above
  refine hj boundary known other mem found ?_
  rwa [upTo, List.filter_cons_of_neg (by simpa using above)] at last

variable [Std.TransOrd κ] [Std.LawfulEqOrd κ]

omit [Std.TransOrd κ] [Std.LawfulEqOrd κ] in
theorem rowsAtBoundary_call (hj : j.RowsAtBoundary keys) {c : Call κ}
    (faithful : ∀ block, c.announced? j.store = some block → Faithful keys j block (j.call c)) :
    (j.call c).RowsAtBoundary keys := by
  have step := called j c
  generalize c.announced? j.store = announced at step faithful
  generalize j.call c = after at step faithful ⊢
  cases step with
  | quiet same => exact hj.congr same
  | stored above => exact rowsAtBoundary_store hj above
  | @flushed _ block _ s t _ done same =>
    have reached : s.boundary = some block := by
      obtain ⟨written, _, rfl⟩ := flush_eq done
      rw [same.boundary, boundary_prune]
      rfl
    intro boundary known key mem payload last
    obtain rfl := Option.some.inj (reached.symm.trans known)
    rw [faithful block rfl key mem, show lastPayload (upTo block j.commits) key = _ from last]
    rfl

/-- The flush at an announced boundary writes what is due as it was last committed. -/
theorem writesLatest_of_announced (distinct : Set.InjOn NodeKey.toBytes keys)
    (h : Reachable keys backend j) {c : Call κ} {block : UInt64}
    (announced : c.announced? j.store = some block) :
    j.store.settled block = false ∧ WritesLatest keys j block (j.call c) := by
  obtain ⟨above, -, rows⟩ := row_announced distinct (sound_reachable distinct h) announced
  have due := mem_queued_iff_due (scheduled_reachable h) above
  refine ⟨above, fun key mem => ⟨fun waits => ?_, fun idle => ?_⟩⟩
  · rw [rows key mem, if_pos ((due key).mpr waits), contents_of_due waits]
  · rw [rows key mem, if_neg (mt (due key).mp idle)]

variable {calls : List (Call κ)}

theorem everyFlush_writesLatest (distinct : Set.InjOn NodeKey.toBytes keys)
    (h : Reachable keys backend j) (inKeys : ∀ c ∈ calls, c.Over keys) :
    EveryFlush (WritesLatest keys) j calls := by
  induction calls generalizing j with
  | nil => trivial
  | cons c calls ih =>
    rw [List.forall_mem_cons] at inKeys
    refine ⟨fun block announced => ?_, ih (h.call inKeys.1) inKeys.2⟩
    exact (writesLatest_of_announced distinct h announced).2

theorem everyFlush_faithful (distinct : Set.InjOn NodeKey.toBytes keys)
    (h : Reachable keys backend j) (inKeys : ∀ c ∈ calls, c.Over keys)
    (hj : j.RowsAtBoundary keys) (current : EveryFlush (NoneOvertaken keys) j calls) :
    EveryFlush (Faithful keys) j calls := by
  induction calls generalizing j with
  | nil => trivial
  | cons c calls ih =>
    rw [List.forall_mem_cons] at inKeys
    have faithful : ∀ block, c.announced? j.store = some block →
        Faithful keys j block (j.call c) := by
      intro block announced
      obtain ⟨above, written⟩ := writesLatest_of_announced distinct h announced
      exact faithful_of_noneOvertaken hj above written (current.1 block announced)
    exact ⟨faithful, ih (h.call inKeys.1) inKeys.2 (rowsAtBoundary_call hj faithful) current.2⟩

/--
Every flush writes exactly the keys that are due, each as it was last committed. So the flushes of
a run all stop at their blocks exactly if none meets a due key that was last committed otherwise
for a later block.
-/
theorem everyFlush_faithful_iff (distinct : Set.InjOn NodeKey.toBytes keys) (backend : Backend)
    (persistence : Persistence) (pruning : Pruning) (eviction : EvictionOrder κ)
    (inKeys : ∀ c ∈ calls, c.Over keys) :
    let start : Journal κ := { store := { backend, persistence, pruning, eviction } }
    EveryFlush (WritesLatest keys) start calls ∧
      (EveryFlush (Faithful keys) start calls ↔ EveryFlush (NoneOvertaken keys) start calls) := by
  intro start
  have fresh : Reachable keys backend start := .start
  have written := everyFlush_writesLatest distinct fresh inKeys
  refine ⟨written, fun faithful => ?_, fun current => ?_⟩
  · exact written.imp (fun _ _ _ => noneOvertaken_of_faithful) faithful
  · have hj : start.RowsAtBoundary keys := fun boundary known => by cases known
    exact everyFlush_faithful distinct fresh inKeys hj current

/-- A key that is committed again for the next block before the first one is flushed. -/
def overtaken : List (Call Position) :=
  [.commit 1 (child 1) [0x11], .commit 2 (child 1) [0x22], .finish .state 1 .zero]

/-- The flush of the first block writes what the second one left. -/
theorem everyFlush_faithful_iff_overtaken :
    let start : Journal Position :=
      { store := { backend := {}, persistence := .archive, pruning := .disabled } }
    (overtaken.foldl call start).row (child 1) = some [0x22] ∧
      ¬EveryFlush (Faithful children) start overtaken := by
  intro start
  have inKeys : ∀ c ∈ overtaken, c.Over children := by simp [overtaken, Call.Over, children]
  have exactly :=
    (everyFlush_faithful_iff injOn_children {} .archive .disabled (.stable Position) inKeys).2
  refine ⟨by decide +kernel, fun faithful => ?_⟩
  have current := (exactly.mp faithful).2.2.1 1 (by decide +kernel) (child 1) (by simp [children])
  have due : ((start.call (.commit 1 (child 1) [0x11])).call (.commit 2 (child 1) [0x22])).Due 1
      (child 1) :=
    ⟨⟨1, child 1, [0x11]⟩, List.mem_cons_of_mem _ List.mem_cons_self, rfl, by decide, rfl⟩
  exact absurd (current due) (by decide +kernel)

end StateSync.Store.NodeStore.Journal
