import StateSync.Proofs.Tracker.Ledger

/-!
Idle calls. When a call hands out nothing and the phase is not over, a request is in flight: the
bounds that hold account ranges back are met only while the queues behind them have work left.
-/

namespace StateSync.Sync

theorem InFlight.eq_none_iff {f : InFlight} : f = {} ↔ ∀ kind, f.count kind = 0 := by
  constructor
  · rintro rfl kind
    cases kind <;> rfl
  · intro none
    cases f
    simp only [InFlight.mk.injEq]
    exact ⟨none .account, none .storage, none .code, none .refresh⟩

namespace Tracker

variable {π : Type} {t : Tracker π} {pivot : Header}

section Schedule

theorem nextRefresh?_eq_none_iff : t.nextRefresh? pivot = none ↔ t.refreshes = [] := by
  simp [nextRefresh?]

theorem nextAccountRange?_eq_none_iff : t.nextAccountRange? pivot = none ↔
    t.moreAccounts = false ∨ t.isBackedUp = true ∨ t.inFlight.account ≠ 0 := by
  unfold nextAccountRange?
  cases t.moreAccounts <;> cases t.isBackedUp <;> simp

theorem nextRetry?_eq_none_iff : t.nextRetry? pivot = none ↔ t.ranges = [] := by
  unfold nextRetry?
  split <;> simp_all

theorem nextStorage?_eq_none_iff : t.nextStorage? pivot = none ↔ t.accounts = [] := by
  simp [nextStorage?]

theorem nextCodes?_eq_none_iff : t.nextCodes? pivot = none ↔ t.codes = [] := by
  simp [nextCodes?]

/-- Empty queues hold no account range back. -/
theorem not_isBackedUp (refreshes : t.refreshes = []) (ranges : t.ranges = [])
    (accounts : t.accounts = []) (codes : t.codes = []) : t.isBackedUp = false := by
  simp [isBackedUp, refreshes, ranges, accounts, codes, maxWaitingRanges, backlogBatches,
    storageBatchSize, codesBatchSize]

/-- Nothing is scheduled exactly if nothing waits and no account range is due. -/
theorem schedule?_eq_none_iff : t.schedule? pivot = none ↔
    t.refreshes = [] ∧ t.ranges = [] ∧ t.accounts = [] ∧ t.codes = [] ∧
      (t.moreAccounts = false ∨ t.inFlight.account ≠ 0) := by
  simp only [schedule?, Option.orElse_eq_orElse, Option.orElse_eq_or, Option.or_eq_none_iff,
    nextRefresh?_eq_none_iff, nextAccountRange?_eq_none_iff, nextRetry?_eq_none_iff,
    nextStorage?_eq_none_iff, nextCodes?_eq_none_iff]
  constructor
  · rintro ⟨refreshes, range, ranges, accounts, codes⟩
    rw [not_isBackedUp refreshes ranges accounts codes] at range
    refine ⟨refreshes, ranges, accounts, codes, range.imp_right ?_⟩
    rintro (backedUp | busy)
    · cases backedUp
    · exact busy
  · rintro ⟨refreshes, ranges, accounts, codes, range⟩
    exact ⟨refreshes, range.imp_right .inr, ranges, accounts, codes⟩

/-- If nothing is scheduled though the ranges are not finished, a request is in flight. -/
theorem exists_inFlight_of_schedule? (none : t.schedule? pivot = none)
    (busy : t.rangesFinished = false) : ∃ kind, t.inFlight.count kind ≠ 0 := by
  obtain ⟨refreshes, ranges, accounts, codes, range⟩ := schedule?_eq_none_iff.mp none
  rcases range with done | asked
  · by_contra idle
    have inFlight : t.inFlight = {} := by
      refine InFlight.eq_none_iff.mpr fun kind => ?_
      by_contra some
      exact idle ⟨kind, some⟩
    have finished := rangesFinished_iff.mpr ⟨done, ranges, accounts, codes, refreshes, inFlight⟩
    cases busy.symm.trans finished
  · exact ⟨.account, asked⟩

end Schedule

variable [PivotSource π] {now : UInt64}

/-- A call with a pivot that comes to nothing found nothing to schedule, and changed no work. -/
theorem idle_of_nextRequest (read : t.readPivot.1 = some pivot)
    (idle : (t.nextRequest now).1 = .ok (none, false)) :
    (t.asked now).schedule? pivot = none ∧ (t.asked now).rangesFinished = false ∧
      (t.asked now).Agrees (t.nextRequest now).2 := by
  rw [nextRequest_of_pivot read] at idle ⊢
  cases scheduled : (t.asked now).schedule? pivot with
  | some next =>
    rw [requestAt_of_scheduled scheduled] at idle
    cases idle
  | none =>
    cases done : (t.asked now).rangesFinished with
    | true =>
      rw [requestAt_of_finished scheduled done] at idle
      split at idle <;> cases idle
    | false =>
      rw [requestAt_of_idle scheduled done]
      exact ⟨rfl, rfl, logged_agrees _ _⟩

theorem exists_inFlight_of_idle (read : t.readPivot.1 = some pivot)
    (idle : (t.nextRequest now).1 = .ok (none, false)) :
    ∃ kind, (t.nextRequest now).2.inFlight.count kind ≠ 0 := by
  obtain ⟨none, busy, same⟩ := idle_of_nextRequest read idle
  rw [same.inFlight]
  exact exists_inFlight_of_schedule? none busy

/-- With nothing in flight, a call with a pivot hands out work until the ranges are finished. -/
theorem handedOut_of_inFlight_eq_none (read : t.readPivot.1 = some pivot)
    (none : t.inFlight = {}) (busy : t.rangesFinished = false) :
    ∃ batch, (t.nextRequest now).1 = .ok (some batch, false) := by
  have same := t.asked_agrees now
  rw [nextRequest_of_pivot read]
  cases scheduled : (t.asked now).schedule? pivot with
  | some next => exact ⟨next.1, by rw [requestAt_of_scheduled scheduled]⟩
  | none =>
    rw [← same.rangesFinished] at busy
    obtain ⟨kind, some⟩ := exists_inFlight_of_schedule? scheduled busy
    rw [same.inFlight] at some
    exact absurd (InFlight.eq_none_iff.mp none kind) some

end Tracker

namespace Ledger

variable {π : Type} [PivotSource π] {l : Ledger π}

omit [PivotSource π] in
theorem Balanced.outstanding_eq_zero_iff (hl : l.Balanced) :
    l.outstanding = 0 ↔ l.tracker.inFlight = {} := by
  constructor
  · intro none
    refine InFlight.eq_none_iff.mpr fun kind => ?_
    rw [hl.inFlight, none, Multiset.countP_zero]
  · exact hl.outstanding_eq_zero

/--
A call with a pivot that hands out nothing though the phase is not over leaves a request in flight:
if each batch is answered once, one is not answered yet. With no batch out there is always work to
hand out until the ranges are finished.
-/
theorem idle_awaits_report (l : Ledger π) {pivot : Header}
    (read : l.tracker.readPivot.1 = some pivot) (now : UInt64) :
    ((l.tracker.nextRequest now).1 = .ok (none, false) →
      (∃ kind, (l.tracker.nextRequest now).2.inFlight.count kind ≠ 0) ∧
      (l.Reachable → (l.call (.nextRequest now)).outstanding ≠ 0)) ∧
    (l.Reachable → l.outstanding = 0 → l.tracker.rangesFinished = false →
      ∃ batch, (l.tracker.nextRequest now).1 = .ok (some batch, false)) := by
  refine ⟨fun idle => ?_, fun reachable none busy => ?_⟩
  · obtain ⟨kind, some⟩ := Tracker.exists_inFlight_of_idle read idle
    refine ⟨⟨kind, some⟩, fun reachable none => ?_⟩
    have after := balanced_reachable (reachable.step (.call (c := .nextRequest now) rfl))
    exact some (InFlight.eq_none_iff.mp (after.outstanding_eq_zero_iff.mp none) kind)
  · have balanced := balanced_reachable reachable
    exact Tracker.handedOut_of_inFlight_eq_none read (balanced.outstanding_eq_zero_iff.mp none) busy

/-- A sync that heard of all accounts and of two codes. -/
def codesLeft : Ledger FixedPivot :=
  let l : Ledger FixedPivot := { tracker := newSync }
  let l := (l.call (.enqueueCodes [.ofNat 2, .ofNat 3])).call (.nextRequest 0)
  l.answer (.reportAccountRange .greatest false) firstRange

/-- It hands out the codes, and has nothing to do until it hears of them. -/
theorem idle_awaits_report_codesLeft :
    let l := codesLeft.call (.nextRequest 0)
    (∃ batch, (codesLeft.tracker.nextRequest 0).1 = .ok (some batch, false)) ∧
      (l.tracker.nextRequest 0).1 = .ok (none, false) ∧
      (∃ kind, (l.tracker.nextRequest 0).2.inFlight.count kind ≠ 0) ∧
      (l.call (.nextRequest 0)).outstanding ≠ 0 := by
  intro l
  have reachable : codesLeft.Reachable := by
    refine .step (.step (.step (.resume resume_newSync) (.call ?_)) (.call ?_)) (.answer ?_ ?_ ?_)
    all_goals decide +kernel
  have asked : l.Reachable := reachable.step (.call rfl)
  have idle : (l.tracker.nextRequest 0).1 = .ok (none, false) := by decide +kernel
  have handed := (idle_awaits_report codesLeft rfl 0).2 reachable (by decide +kernel)
    (by decide +kernel)
  obtain ⟨inFlight, out⟩ := (idle_awaits_report l rfl 0).1 idle
  exact ⟨handed, idle, inFlight, out asked⟩

end Ledger

end StateSync.Sync
