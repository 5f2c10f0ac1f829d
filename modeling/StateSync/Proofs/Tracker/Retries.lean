import Mathlib.Logic.Function.Iterate
import StateSync.Proofs.Tracker.Reports
import StateSync.Proofs.Tracker.Schedule
import StateSync.Proofs.Tracker.Targets

/-!
Storage ranges that keep coming back. A range is followed through a run by a ticket: it enters the
tracker, goes out in a batch, comes back whole, waits and goes out again. However many rounds this
takes, and whatever happens in between, the range is in one place at a time, and what its returns
did to its count, to the metrics and to the pivot follows from how many they were. If no range
enters with a count beyond its retries, none ever has one: counts stay far below 2 ^ 32.
-/

namespace StateSync.Sync

variable {π : Type}

/-- A report that brought a storage range back, as the tracker before and after it. -/
structure Return (π : Type) where
  before : Tracker π
  after : Tracker π

/-- A storage range in the course of a run, as it entered, with what brought it back whole. -/
structure Ticket (π : Type) where
  number : Nat
  first : StorageRange
  /-- The latest first. -/
  returns : List (Return π) := []

namespace Return

/-- The failures of ranges that the report counted. -/
def failures (r : Return π) : Nat :=
  (r.after.metrics.rangeFailures - r.before.metrics.rangeFailures).toNat

/-- The report forced the pivot to move as often as it counted a failure. -/
def Forces [PivotSource π] (r : Return π) : Prop :=
  r.after.pivot = (fun pivot => (PivotSource.advance pivot).1)^[r.failures] r.before.pivot

end Return

namespace Ticket

/-- The failures that the returns of a range have counted. -/
def failures (k : Ticket π) : Nat := (k.returns.map Return.failures).sum

/-- A ticket is for a range that waits or is out: the one that entered, but for its count. -/
structure Carries [PivotSource π] (k : Ticket π) (range : StorageRange) : Prop where
  accounts : range.accounts = k.first.accounts
  start : range.start = k.first.start
  limit : range.limit = k.first.limit
  attempts : k.first.attempts ≤ maxRangeRetries →
    range.attempts = (k.first.attempts + k.returns.length) % (maxRangeRetries + 1)
  failures : k.first.attempts ≤ maxRangeRetries →
    k.failures = (k.first.attempts + k.returns.length) / (maxRangeRetries + 1)
  forces : ∀ r ∈ k.returns, r.Forces

end Ticket

namespace Tracker

variable [PivotSource π] {t u : Tracker π} {range : StorageRange}

theorem ranges_requeue (t : Tracker π) (range : StorageRange) :
    (t.requeue range).ranges = t.ranges ++ [range.retried] := by
  by_cases often : maxRangeRetries < range.attempts + 1
  · simp only [requeue, StorageRange.retried, if_pos often]
    rfl
  · simp only [requeue, StorageRange.retried, if_neg often]

theorem ranges_reportStorageRange (t : Tracker π) (range : StorageRange) :
    (t.reportStorageRange (some range)).ranges = t.ranges ++ [range.retried] :=
  (release_released _ .storage).ranges.trans (t.ranges_requeue range)

/-- The report that a range came back. -/
def returned (t : Tracker π) (range : StorageRange) : Return π :=
  ⟨t, t.reportStorageRange (some range)⟩

theorem standing_returned (t : Tracker π) (range : StorageRange) :
    (t.returned range).after.standing = t.standing.hear
      { kind := .storage, exhausted := maxRangeRetries < range.attempts + 1,
        ranges := [range.retried] } :=
  standing_run (c := .reportStorageRange (some range)) rfl rfl

/-- A failure is counted when the retries of the range are used up. -/
theorem failures_returned (t : Tracker π) (range : StorageRange) :
    (t.returned range).failures = if maxRangeRetries < range.attempts + 1 then 1 else 0 := by
  have counted := congrArg Standing.rangeFailures (t.standing_returned range)
  change (t.returned range).after.metrics.rangeFailures = _ at counted
  rw [Return.failures, counted]
  simp only [Standing.hear, decide_eq_true_eq]
  split
  · rw [add_comm]
    exact congrArg UInt64.toNat (UInt64.add_sub_cancel 1 t.metrics.rangeFailures)
  · exact congrArg UInt64.toNat (UInt64.sub_self t.metrics.rangeFailures)

theorem forces_returned (t : Tracker π) (range : StorageRange) : (t.returned range).Forces := by
  have moved := congrArg Standing.pivot (t.standing_returned range)
  rw [Return.Forces, failures_returned]
  refine moved.trans ?_
  simp only [Standing.hear, decide_eq_true_eq]
  split <;> rfl

/-- What a request for work takes out of the queue of ranges, with the range that it hands out. -/
inductive TakesRange (t : Tracker π) : Option StorageRange → Tracker π → Prop
  | nothing {u : Tracker π} (same : u.ranges = t.ranges) : TakesRange t none u
  | retry {u : Tracker π} {range : StorageRange} {rest : List StorageRange} {root : Hash}
      {block : UInt64} (waiting : t.ranges = range :: rest) (left : u.ranges = rest) :
      TakesRange t (some { range with root, block }) u
  | batch {u : Tracker π} {range : StorageRange} (idle : t.ranges = []) (same : u.ranges = [])
      (new : range.attempts = 0) : TakesRange t (some range) u

end Tracker

/-- The storage range that a call hands out, if any. -/
def Call.range? [PivotSource π] (c : Call π) (t : Tracker π) : Option StorageRange :=
  match c.batch? t with
  | some (.storageRange range) => some range
  | _ => none

namespace Tracker

variable [PivotSource π] {t u : Tracker π}

theorem nextRequest_takesRange (t : Tracker π) (now : UInt64) :
    t.TakesRange ((Call.nextRequest now).range? t) (t.nextRequest now).2 := by
  cases read : t.readPivot.1 with
  | none =>
    have out : (Call.nextRequest now).range? t = none := by
      simp only [Call.range?, Call.batch?, nextRequest_of_no_pivot read]
    rw [out, nextRequest_of_no_pivot read]
    exact .nothing (t.asked_agrees now).ranges
  | some pivot =>
    by_cases due : ∃ batch left, Due t pivot batch left
    · obtain ⟨batch, left, due⟩ := due
      obtain ⟨answer, same⟩ := nextRequest_of_due read now due
      simp only [Call.range?, Call.batch?, answer]
      cases due with
      | refresh | accountRange | codes => exact .nothing same.ranges
      | retry fresh full waiting => exact .retry waiting same.ranges
      | storage fresh full idle waiting => exact .batch idle (same.ranges.trans idle) rfl
    · have undue : ∀ batch left, ¬Due t pivot batch left :=
        fun batch left h => due ⟨batch, left, h⟩
      obtain ⟨answer, same⟩ := nextRequest_of_none_due read now undue
      have out : (Call.nextRequest now).range? t = none := by
        rcases answer with answer | ⟨-, e, answer⟩
        · simp only [Call.range?, Call.batch?, answer]
        · simp only [Call.range?, Call.batch?, answer]
      rw [out]
      exact .nothing same.ranges

end Tracker

/-- The ticket of a range that a tracker takes back. -/
def Ticket.takenBack [PivotSource π] (k : Ticket π) (t : Tracker π) (range : StorageRange) :
    Ticket π :=
  { k with returns := t.returned range :: k.returns }

namespace Ticket.Carries

variable [PivotSource π] {k : Ticket π} {range : StorageRange}

/-- A range carries its own count when it enters. -/
theorem new (number : Nat) (range : StorageRange) :
    ({ number, first := range } : Ticket π).Carries range where
  accounts := rfl
  start := rfl
  limit := rfl
  attempts within := by
    have below : range.attempts < maxRangeRetries + 1 := Nat.lt_succ_of_le within
    exact (Nat.mod_eq_of_lt below).symm
  failures within := by
    have below : range.attempts < maxRangeRetries + 1 := Nat.lt_succ_of_le within
    exact (Nat.div_eq_of_lt below).symm
  forces r mem := absurd mem List.not_mem_nil

/-- In a batch a range is for another root and block. -/
theorem restamp (h : k.Carries range) (root : Hash) (block : UInt64) :
    k.Carries { range with root, block } :=
  ⟨h.accounts, h.start, h.limit, h.attempts, h.failures, h.forces⟩

/-- One more return: the count goes on or, after the last retry, starts again with a failure. -/
theorem takenBack (h : k.Carries range) (t : Tracker π) :
    (k.takenBack t range).Carries range.retried where
  accounts := h.accounts
  start := h.start
  limit := h.limit
  attempts within := by
    have count := h.attempts within
    by_cases often : maxRangeRetries < range.attempts + 1
    · simp only [StorageRange.retried, if_pos often, Ticket.takenBack, List.length_cons]
      simp only [maxRangeRetries] at count often ⊢
      omega
    · simp only [StorageRange.retried, if_neg often, Ticket.takenBack, List.length_cons]
      simp only [maxRangeRetries] at count often ⊢
      omega
  failures within := by
    have count := h.attempts within
    have failures := h.failures within
    simp only [Ticket.failures, Ticket.takenBack, List.map_cons, List.sum_cons, List.length_cons,
      Tracker.failures_returned] at failures ⊢
    by_cases often : maxRangeRetries < range.attempts + 1
    · rw [if_pos often, failures]
      simp only [maxRangeRetries] at count often ⊢
      omega
    · rw [if_neg often, failures]
      simp only [maxRangeRetries] at count often ⊢
      omega
  forces := by
    intro r mem
    rcases List.mem_cons.mp mem with rfl | mem
    · exact t.forces_returned range
    · exact h.forces r mem

end Ticket.Carries

/-- A tracker with the tickets of its ranges. -/
structure Roster (π : Type) where
  tracker : Tracker π
  /-- The ranges that wait, in the order of the queue. -/
  waiting : List (Ticket π × StorageRange) := []
  /-- The ranges that were handed out and did not come back yet. -/
  out : List (Ticket π × StorageRange) := []
  issued : Nat := 0

/-- An event of a run: any call, or the report that a range that is out came back whole. -/
inductive Event (π : Type)
  | call (c : Call π)
  | comeBack (place : Nat)

namespace Event

/-- The range that enters with an event. -/
def entering? : Event π → Option StorageRange
  | call (.enqueueRange range) => some range
  | call (.reportStorageRange leftover) => leftover
  | _ => none

/-- No range enters with more attempts than it has retries. -/
def EntersWithin (event : Event π) : Prop :=
  ∀ range ∈ event.entering?, range.attempts ≤ maxRangeRetries

instance (event : Event π) : Decidable event.EntersWithin :=
  inferInstanceAs (Decidable (∀ range ∈ event.entering?, range.attempts ≤ maxRangeRetries))

end Event

namespace Roster

variable [PivotSource π] {r s : Roster π} {range : StorageRange} {event : Event π}

/-- All tickets with their ranges. -/
def entries (r : Roster π) : Multiset (Ticket π × StorageRange) := r.waiting + r.out

/-- The ticket for a range that enters now. -/
def ticket (r : Roster π) (range : StorageRange) : Ticket π where
  number := r.issued
  first := range

/-- A range comes back whole and waits again. -/
def takeBack (r : Roster π) (k : Ticket π) (range : StorageRange) : Roster π :=
  { r with
    tracker := r.tracker.reportStorageRange (some range)
    waiting := r.waiting ++ [(k.takenBack r.tracker range, range.retried)] }

/-- A range is handed out: the first one that waits or, if none does, a new one. -/
def handOut (r : Roster π) (t : Tracker π) (range : StorageRange) : Roster π :=
  match r.waiting with
  | (k, _) :: waiting => { r with tracker := t, waiting, out := r.out ++ [(k, range)] }
  | [] =>
    { r with tracker := t, out := r.out ++ [(r.ticket range, range)], issued := r.issued + 1 }

/-- The tickets after a call. What is reported without a ticket enters with that report. -/
def call (r : Roster π) : Call π → Roster π
  | .enqueueRange range =>
    { r with
      tracker := r.tracker.enqueueRange range
      waiting := r.waiting ++ [(r.ticket range, range)]
      issued := r.issued + 1 }
  | .reportStorageRange (some range) =>
    { r with issued := r.issued + 1 }.takeBack (r.ticket range) range
  | .nextRequest now =>
    let t := (r.tracker.nextRequest now).2
    match (Call.nextRequest now).range? r.tracker with
    | some range => r.handOut t range
    | none => { r with tracker := t }
  | c => { r with tracker := c.run r.tracker }

def step (r : Roster π) : Event π → Roster π
  | .call c => r.call c
  | .comeBack place =>
    match r.out[place]? with
    | some (k, range) => { r with out := r.out.eraseIdx place }.takeBack k range
    | none => r

/-- The tickets are kept beside the tracker: it does what it would do without them. -/
theorem tracker_call (r : Roster π) (c : Call π) : (r.call c).tracker = c.run r.tracker := by
  cases c with
  | nextRequest now =>
    simp only [call]
    split
    · next range _ =>
      unfold handOut
      split <;> rfl
    · rfl
  | reportStorageRange leftover => cases leftover <;> rfl
  | _ => rfl

/-- What an event does to the tickets and their ranges. -/
inductive Passes (r : Roster π) (event : Event π) (s : Roster π) : Prop
  | still (same : s.entries = r.entries) (issued : s.issued = r.issued)
  | entered {e : Ticket π × StorageRange} (added : s.entries = e ::ₘ r.entries)
      (issued : s.issued = r.issued + 1) (number : e.1.number = r.issued)
      (within : event.EntersWithin → e.1.first.attempts ≤ maxRangeRetries)
      (carries : e.1.Carries e.2)
  | moved {e e' : Ticket π × StorageRange} {rest : Multiset (Ticket π × StorageRange)}
      (before : r.entries = e ::ₘ rest) (after : s.entries = e' ::ₘ rest)
      (issued : s.issued = r.issued) (number : e'.1.number = e.1.number)
      (first : e'.1.first = e.1.first) (carries : e.1.Carries e.2 → e'.1.Carries e'.2)

/-- The tickets of the ranges that wait are in the order of the queue. -/
def InOrder (r : Roster π) : Prop := r.tracker.ranges = r.waiting.map Prod.snd

omit [PivotSource π] in
theorem entries_of_waiting {e : Ticket π × StorageRange} (waiting : s.waiting = r.waiting ++ [e])
    (out : s.out = r.out) : s.entries = e ::ₘ r.entries := by
  rw [entries, entries, waiting, out, ← Multiset.coe_add, Multiset.coe_singleton,
    ← Multiset.singleton_add]
  abel

omit [PivotSource π] in
theorem entries_of_out {e : Ticket π × StorageRange} {waiting : List (Ticket π × StorageRange)}
    (left : s.waiting = waiting) (out : s.out = r.out ++ [e]) :
    s.entries = e ::ₘ (waiting + r.out) := by
  rw [entries, left, out, ← Multiset.coe_add, Multiset.coe_singleton, ← Multiset.singleton_add]
  abel

omit [PivotSource π] in
theorem entries_of_getElem?_out {place : Nat} {e : Ticket π × StorageRange}
    (out : r.out[place]? = some e) : r.entries = e ::ₘ (r.waiting + r.out.eraseIdx place) := by
  obtain ⟨bound, listed⟩ := List.getElem?_eq_some_iff.mp out
  have parts := Multiset.coe_eq_coe.mpr (List.getElem_cons_eraseIdx_perm bound)
  rw [listed, ← Multiset.cons_coe] at parts
  rw [entries, ← parts, Multiset.add_cons]

theorem takeBack_inOrder (h : r.InOrder) (k : Ticket π) (range : StorageRange) :
    (r.takeBack k range).InOrder := by
  refine (r.tracker.ranges_reportStorageRange range).trans ?_
  rw [h, takeBack, List.map_append]
  rfl

theorem handOut_passes {t : Tracker π} (h : r.InOrder)
    (taken : r.tracker.TakesRange (some range) t) :
    (r.handOut t range).InOrder ∧ Passes r event (r.handOut t range) := by
  cases taken with
  | @retry _ head rest root block waiting left =>
    obtain ⟨⟨k, range⟩, others, first, rfl, rfl⟩ := List.map_eq_cons_iff.mp (h.symm.trans waiting)
    have before : r.entries = (k, range) ::ₘ (others + r.out) := by
      rw [entries, first, ← Multiset.cons_coe, Multiset.cons_add]
    unfold handOut
    rw [first]
    refine ⟨left, .moved before (entries_of_out rfl rfl) rfl rfl rfl ?_⟩
    exact fun carried => carried.restamp root block
  | batch idle same new =>
    have none : r.waiting = [] := List.map_eq_nil_iff.mp (h.symm.trans idle)
    have added : r.entries = ([] : List (Ticket π × StorageRange)) + r.out := by
      rw [entries, none]
    unfold handOut
    rw [none]
    refine ⟨same, .entered (e := (r.ticket range, range)) ?_ rfl rfl ?_ (.new r.issued range)⟩
    · rw [added]
      exact entries_of_out rfl rfl
    · exact fun _ => new.le.trans (Nat.zero_le _)

/-- Whatever else is called leaves the queue of ranges. -/
theorem ranges_run {c : Call π} (t : Tracker π) (enters : ∀ range, c ≠ .enqueueRange range)
    (reports : ∀ range, c ≠ .reportStorageRange (some range)) (asks : ∀ now, c ≠ .nextRequest now) :
    (c.run t).ranges = t.ranges := by
  by_cases aside : c.isAside = true
  · exact (c.run_aside aside t).ranges
  · cases c with
    | enqueueAccounts | enqueueCodes | enqueueRefreshes => rfl
    | enqueueRange range => exact absurd rfl (enters range)
    | nextRequest now => exact absurd rfl (asks now)
    | reportAccountRange path more => exact (t.reportAccountRange_released path more).ranges
    | reportStorageRange leftover =>
      cases leftover with
      | none => exact (t.release_released .storage).ranges
      | some range => exact absurd rfl (reports range)
    | reportStorage leftover =>
      exact ((t.enqueueAccounts leftover).release_released .storage).ranges
    | reportCodes leftover => exact ((t.enqueueCodes leftover).release_released .code).ranges
    | reportRefresh leftover =>
      exact ((t.enqueueRefreshes leftover).release_released .refresh).ranges
    | _ => exact absurd rfl aside

theorem call_passes (h : r.InOrder) (c : Call π) :
    (r.call c).InOrder ∧ Passes r (.call c) (r.call c) := by
  have others (kept : (c.run r.tracker).ranges = r.tracker.ranges) :
      InOrder { r with tracker := c.run r.tracker } ∧
        Passes r (.call c) { r with tracker := c.run r.tracker } :=
    ⟨kept.trans h, .still rfl rfl⟩
  cases c with
  | enqueueRange range =>
    have within : (Event.call (.enqueueRange range) : Event π).EntersWithin →
        range.attempts ≤ maxRangeRetries := fun enters => enters range rfl
    refine ⟨?_, .entered (entries_of_waiting rfl rfl) rfl rfl within (.new r.issued range)⟩
    change r.tracker.ranges ++ [range] = (r.waiting ++ [(r.ticket range, range)]).map Prod.snd
    rw [h, List.map_append]
    rfl
  | reportStorageRange leftover =>
    cases leftover with
    | none => exact others (r.tracker.release_released .storage).ranges
    | some range =>
      have carried : (r.ticket range).Carries range := .new r.issued range
      refine ⟨takeBack_inOrder h _ range, ?_⟩
      exact .entered (entries_of_waiting rfl rfl) rfl rfl (fun enters => enters range rfl)
        (carried.takenBack r.tracker)
  | nextRequest now =>
    have taken := r.tracker.nextRequest_takesRange now
    simp only [call]
    split
    · next range out =>
      rw [out] at taken
      exact handOut_passes h taken
    · next out =>
      rw [out] at taken
      cases taken with
      | nothing same => exact others same
  | _ => exact others (ranges_run r.tracker nofun nofun nofun)

theorem step_passes (h : r.InOrder) (event : Event π) :
    (r.step event).InOrder ∧ Passes r event (r.step event) := by
  cases event with
  | call c => exact call_passes h c
  | comeBack place =>
    simp only [step]
    split
    · next k range out =>
      have after : (takeBack { r with out := r.out.eraseIdx place } k range).entries =
          (k.takenBack r.tracker range, range.retried) ::ₘ (r.waiting + r.out.eraseIdx place) :=
        entries_of_waiting (r := { r with out := r.out.eraseIdx place }) rfl rfl
      refine ⟨takeBack_inOrder h k range, .moved (entries_of_getElem?_out out) after rfl rfl rfl ?_⟩
      exact fun carried => carried.takenBack r.tracker
    · exact ⟨h, .still rfl rfl⟩

/-- Every ticket is for one range, which is in one place and is the one that entered. -/
structure Sound (r : Roster π) : Prop where
  inOrder : r.InOrder
  numbers : r.entries.map (fun e => e.1.number) = Multiset.range r.issued
  carries : ∀ e ∈ r.entries, e.1.Carries e.2

/-- What holds of every range when it enters, and goes on holding, holds of all of them. -/
theorem Passes.forall_entries {P : Ticket π × StorageRange → Prop} (h : Passes r event s)
    (old : ∀ e ∈ r.entries, P e)
    (enters : ∀ e, e.1.Carries e.2 →
      (event.EntersWithin → e.1.first.attempts ≤ maxRangeRetries) → P e)
    (moves : ∀ e e' : Ticket π × StorageRange, e'.1.first = e.1.first →
      (e.1.Carries e.2 → e'.1.Carries e'.2) → P e → P e') : ∀ e ∈ s.entries, P e := by
  intro e mem
  cases h with
  | still same => exact old e (same ▸ mem)
  | @entered new added _ _ within carries =>
    rcases Multiset.mem_cons.mp (added ▸ mem) with rfl | mem
    · exact enters e carries within
    · exact old e mem
  | @moved before after _ split joined _ _ first carries =>
    rw [split] at old
    rcases Multiset.mem_cons.mp (joined ▸ mem) with rfl | mem
    · exact moves before e first carries (old before (Multiset.mem_cons_self _ _))
    · exact old e (Multiset.mem_cons_of_mem mem)

theorem sound_step (h : r.Sound) (event : Event π) : (r.step event).Sound := by
  obtain ⟨inOrder, passes⟩ := step_passes h.inOrder event
  have numbers := h.numbers
  refine ⟨inOrder, ?_, ?_⟩
  · cases passes with
    | still same issued => rw [same, issued, numbers]
    | entered added issued number =>
      rw [added, issued, Multiset.map_cons, number, numbers, Multiset.range_succ]
    | moved before after issued number =>
      rw [before, Multiset.map_cons] at numbers
      rw [after, issued, Multiset.map_cons, number, numbers]
  · exact passes.forall_entries h.carries (fun _ carries _ => carries) fun _ _ _ carries => carries

/-- The ranges that a run is about all entered with no more attempts than retries. -/
def Within (r : Roster π) : Prop := ∀ e ∈ r.entries, e.1.first.attempts ≤ maxRangeRetries

theorem within_step (h : r.Sound) (within : r.Within) (enters : event.EntersWithin) :
    (r.step event).Within :=
  (step_passes h.inOrder event).2.forall_entries within (fun _ _ first => first enters)
    fun _ _ first _ before => (congrArg StorageRange.attempts first).le.trans before

theorem sound_foldl (h : r.Sound) (events : List (Event π)) : (events.foldl step r).Sound := by
  induction events generalizing r with
  | nil => exact h
  | cons event events ih => exact ih (sound_step h event)

theorem within_foldl (h : r.Sound) (within : r.Within) {events : List (Event π)}
    (enters : ∀ event ∈ events, event.EntersWithin) : (events.foldl step r).Within := by
  induction events generalizing r with
  | nil => exact within
  | cons event events ih =>
    obtain ⟨first, rest⟩ := List.forall_mem_cons.mp enters
    exact ih (sound_step h event) (within_step h within first) rest

theorem sound_resume {pivot : π} {backend : Store.Backend} {metrics : Metrics} {t : Tracker π}
    (resumed : Tracker.resume pivot backend metrics = .ok t) : Sound { tracker := t } := by
  obtain ⟨_, _, _, _, rfl⟩ := Tracker.resume_eq resumed
  exact ⟨rfl, rfl, fun _ mem => absurd mem (Multiset.notMem_zero _)⟩

/-- No ticket is given twice or lost: each is for one range that waits or is out. -/
theorem Sound.count_number (h : r.Sound) {number : Nat} (issued : number < r.issued) :
    (r.entries.map fun e => e.1.number).count number = 1 := by
  rw [h.numbers]
  exact Multiset.count_eq_one_of_mem (Multiset.nodup_range _) (Multiset.mem_range.mpr issued)

/--
A range that entered with no attempts has come back whole. It waits again, once, at the end of the
queue, and its count, the failures and the forced moves of the pivot follow from its returns.
-/
structure WaitsAgain (r : Roster π) (k : Ticket π) (range : StorageRange)
    (s : Roster π) : Prop where
  reported : s.tracker = r.tracker.reportStorageRange (some range)
  queued : s.tracker.ranges = r.tracker.ranges ++ [range.retried]
  waiting : s.waiting = r.waiting ++ [(k.takenBack r.tracker range, range.retried)]
  once : ∀ e ∈ r.waiting ++ s.out, e.1.number ≠ k.number
  accounts : range.retried.accounts = k.first.accounts
  start : range.retried.start = k.first.start
  limit : range.retried.limit = k.first.limit
  attempts : range.retried.attempts = (k.returns.length + 1) % (maxRangeRetries + 1)
  failures : (k.takenBack r.tracker range).failures = (k.returns.length + 1) / (maxRangeRetries + 1)
  forces : ∀ report ∈ (k.takenBack r.tracker range).returns, report.Forces

theorem Sound.waitsAgain (h : r.Sound) {place : Nat} {k : Ticket π}
    (out : r.out[place]? = some (k, range)) (new : k.first.attempts = 0) :
    r.WaitsAgain k range (r.step (.comeBack place)) := by
  have after : r.step (.comeBack place) =
      takeBack { r with out := r.out.eraseIdx place } k range := by
    simp only [step, out]
  have listed : (k, range) ∈ r.entries :=
    Multiset.mem_add.mpr (.inr (List.mem_of_getElem? out))
  have carries := (h.carries _ listed).takenBack r.tracker
  have within : k.first.attempts ≤ maxRangeRetries := new.le.trans (Nat.zero_le _)
  have attempts := carries.attempts within
  have failures := carries.failures within
  have rounds : (k.takenBack r.tracker range).first.attempts +
      (k.takenBack r.tracker range).returns.length = k.returns.length + 1 := by
    change k.first.attempts + (k.returns.length + 1) = _
    omega
  rw [rounds] at attempts failures
  rw [after]
  constructor
  case reported => rfl
  case queued => exact r.tracker.ranges_reportStorageRange range
  case waiting => rfl
  case once =>
    intro e mem same
    have distinct : (r.entries.map fun e => e.1.number).Nodup := h.numbers ▸ Multiset.nodup_range _
    rw [entries_of_getElem?_out out, Multiset.map_cons, Multiset.nodup_cons] at distinct
    refine distinct.1 (Multiset.mem_map.mpr ⟨e, ?_, same⟩)
    exact Multiset.mem_add.mpr (List.mem_append.mp mem)
  case accounts => exact carries.accounts
  case start => exact carries.start
  case limit => exact carries.limit
  case attempts => exact attempts
  case failures => exact failures
  case forces => exact carries.forces

/--
Retries are accounted for exactly, in any run and whatever is called in between: no range is lost, a
range that entered with no attempts waits again after each return with what so many returns come to,
and if all ranges enter within their retries then no range that waits or is out has more.
-/
theorem retries_exact {pivot : π} {backend : Store.Backend} {metrics : Metrics} {t : Tracker π}
    (resumed : Tracker.resume pivot backend metrics = .ok t) (events : List (Event π)) :
    let r := events.foldl step { tracker := t }
    (∀ c, (r.step (.call c)).tracker = c.run r.tracker) ∧
      (r.tracker.ranges = r.waiting.map Prod.snd ∧
        ∀ number < r.issued, (r.entries.map fun e => e.1.number).count number = 1) ∧
      (∀ place k range, r.out[place]? = some (k, range) → k.first.attempts = 0 →
        r.WaitsAgain k range (r.step (.comeBack place))) ∧
      ((∀ event ∈ events, event.EntersWithin) →
        (∀ range ∈ r.tracker.ranges, range.attempts ≤ maxRangeRetries) ∧
          ∀ e ∈ r.out, e.2.attempts ≤ maxRangeRetries) := by
  intro r
  have start := sound_resume resumed
  have h : r.Sound := sound_foldl start events
  refine ⟨r.tracker_call, ⟨h.inOrder, fun _ => h.count_number⟩, fun _ _ _ => h.waitsAgain, ?_⟩
  intro enters
  have within : r.Within :=
    within_foldl start (fun _ mem => absurd mem (Multiset.notMem_zero _)) enters
  have few : ∀ e ∈ r.entries, e.2.attempts ≤ maxRangeRetries := by
    intro e mem
    rw [(h.carries e mem).attempts (within e mem)]
    exact Nat.le_of_lt_succ (Nat.mod_lt _ (Nat.succ_pos _))
  constructor
  · intro range queued
    rw [h.inOrder] at queued
    obtain ⟨e, mem, rfl⟩ := List.mem_map.mp queued
    exact few e (Multiset.mem_add.mpr (.inl mem))
  · exact fun e mem => few e (Multiset.mem_add.mpr (.inr mem))

/-- A range that starts here, with no accounts. -/
def rangeFrom (start : Hash) : StorageRange := ⟨.zero, 3, [], start, .greatest, 0⟩

/-- Two ranges go out and come back in turns; they are out for the sixth time. -/
def twoRanges : List (Event FixedPivot) :=
  let handOut : List (Event FixedPivot) := [.call (.nextRequest 0), .call (.nextRequest 0)]
  [.call (.enqueueRange (rangeFrom (.ofNat 9))), .call (.nextRequest 0),
    .call (.enqueueRange (rangeFrom (.ofNat 8)))] ++
    (List.replicate 5 (handOut ++ [.comeBack 0, .call .advancePivot, .comeBack 0])).flatten ++
    handOut

/-- The sixth return of the first range is a failure, and its count starts again. -/
theorem retries_exact_twoRanges :
    let r := twoRanges.foldl step { tracker := Ledger.newSync }
    let s := r.step (.comeBack 0)
    (s.tracker.ranges.map fun range => (range.start, range.attempts)) = [(.ofNat 9, 0)] ∧
      (s.out.map fun e => (e.2.start, e.2.attempts)) = [(.ofNat 8, 5)] ∧
      s.tracker.metrics.rangeFailures = 1 ∧ s.tracker.pivot.advances = 6 ∧
      (∃ k range, r.out[0]? = some (k, range) ∧ k.returns.length = 5 ∧
        r.WaitsAgain k range s) ∧
      ∀ e ∈ r.out, e.2.attempts ≤ maxRangeRetries := by
  intro r s
  obtain ⟨-, -, again, within⟩ := retries_exact Ledger.resume_newSync twoRanges
  have sixth : (r.out[0]?.map fun e => (e.1.first.attempts, e.1.returns.length)) = some (0, 5) := by
    decide +kernel
  obtain ⟨⟨k, range⟩, out, counts⟩ := Option.map_eq_some_iff.mp sixth
  obtain ⟨new, rounds⟩ := Prod.mk.inj counts
  have enters : ∀ event ∈ twoRanges, event.EntersWithin := by decide +kernel
  exact ⟨by decide +kernel, by decide +kernel, by decide +kernel, by decide +kernel,
    ⟨k, range, out, rounds, again 0 k range out new⟩, (within enters).2⟩

end Roster

end StateSync.Sync
