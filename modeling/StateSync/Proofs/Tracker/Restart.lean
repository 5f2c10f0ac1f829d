import StateSync.Proofs.Tracker.Ledger
import StateSync.Proofs.Tracker.Progress

/-!
Restarting a tracker. The greatest hash as the marker says that the phase is over. It is written
when the phase ends, but also by an account report that goes to the end while other work waits.
-/

namespace StateSync.Sync

namespace Tracker

variable {π : Type} {t : Tracker π}

/-- Without accounts to request a tracker resumes from the greatest hash only. -/
theorem phase_resume {pivot : π} {backend : Store.Backend} {metrics : Metrics}
    (h : resume pivot backend metrics = .ok t) :
    t.phase = .done ↔ backend.snapState[markerKey]? = some Hash.greatest.toBytes := by
  obtain ⟨next, moreAccounts, log, read, rfl⟩ := resume_eq h
  rcases readMarker_cases read with ⟨row, -, rfl⟩ | ⟨row, last⟩
  · simp [phase, row]
  · rw [row, Option.some.injEq, Hash.toBytes_inj, ← last]
    simp [phase]

end Tracker

namespace Ledger

variable {π : Type} [PivotSource π] {start l l' : Ledger π} {c : Call π}
  {past : List (Ledger π × Call π)}

/--
A run of calls: every ledger so far with the call that was made on it, newest first. A call writes
the marker at most once, so a stop within a call is as one before or after it.
-/
inductive Run (start : Ledger π) : List (Ledger π × Call π) → Ledger π → Prop
  | start : Run start [] start
  | step {past : List (Ledger π × Call π)} {l l' : Ledger π} {c : Call π} :
      Run start past l → Step l c l' → Run start ((l, c) :: past) l'

/-- All ranges are finished, or were at some time before. -/
def EverFinished (past : List (Ledger π × Call π)) (l : Ledger π) : Prop :=
  l.tracker.rangesFinished = true ∨ ∃ entry ∈ past, entry.1.tracker.rangesFinished = true

/-- An account report took the marker to the greatest hash. -/
def ReportedLast (past : List (Ledger π × Call π)) : Prop :=
  ∃ entry ∈ past, ∃ more, entry.2 = .reportAccountRange .greatest more ∧
    entry.1.tracker.next ≠ .greatest ∧
    (entry.1.tracker.reportAccountRange .greatest more).1 = .ok ()

/-- Why the marker is the greatest hash, and that it stays so. -/
structure Traced (past : List (Ledger π × Call π)) (l : Ledger π) : Prop where
  next : l.tracker.marker = some Hash.greatest.toBytes → l.tracker.next = .greatest
  cause : l.tracker.marker = some Hash.greatest.toBytes → EverFinished past l ∨ ReportedLast past
  stays : ReportedLast past → l.tracker.marker = some Hash.greatest.toBytes

omit [PivotSource π] in
theorem EverFinished.step (h : EverFinished past l) : EverFinished ((l, c) :: past) l' := by
  right
  rcases h with now | ⟨entry, mem, before⟩
  · exact ⟨(l, c), List.mem_cons_self, now⟩
  · exact ⟨entry, List.mem_cons_of_mem _ mem, before⟩

omit [PivotSource π] in
theorem ReportedLast.step (h : ReportedLast past) : ReportedLast ((l, c) :: past) := by
  obtain ⟨entry, mem, report⟩ := h
  exact ⟨entry, List.mem_cons_of_mem _ mem, report⟩

omit [PivotSource π] in
theorem traced_fresh {t : Tracker π} (fresh : t.marker = none) :
    Traced [] ({ tracker := t } : Ledger π) := by
  refine ⟨?_, ?_, ?_⟩
  · intro last
    cases fresh.symm.trans last
  · intro last
    cases fresh.symm.trans last
  · rintro ⟨entry, mem, _⟩
    cases mem

theorem Step.tracker_eq (h : Step l c l') : l'.tracker = c.run l.tracker := by
  cases h <;> rfl

theorem Step.progress (h : Step l c l') : l.tracker.Progress c l'.tracker := by
  rw [h.tracker_eq]
  exact l.tracker.run_progress c

theorem traced_step (hl : Traced past l) (h : Step l c l') : Traced ((l, c) :: past) l' := by
  refine ⟨?_, ?_, ?_⟩
  · intro last
    cases h.progress with
    | same next marker => exact next.trans (hl.next (marker.symm.trans last))
    | reported _ _ next marker =>
      exact next.trans (Hash.toBytes_inj.mp (Option.some.inj (marker.symm.trans last)))
    | refused ahead _ marker =>
      rw [hl.next (marker.symm.trans last)] at ahead
      exact (Hash.compare_greatest_ne_lt _ ahead).elim
    | ended _ next => exact next
  · intro last
    have before : l.tracker.marker = some Hash.greatest.toBytes →
        EverFinished ((l, c) :: past) l' ∨ ReportedLast ((l, c) :: past) :=
      fun old => (hl.cause old).imp EverFinished.step ReportedLast.step
    generalize hu : l'.tracker = u at last
    have moved := h.progress
    rw [hu] at moved
    cases moved with
    | same _ marker => exact before (marker.symm.trans last)
    | @reported path more _ ahead written _ marker =>
      obtain rfl := Hash.toBytes_inj.mp (Option.some.inj (marker.symm.trans last))
      have behind : l.tracker.next ≠ .greatest := by
        intro atEnd
        rw [atEnd] at ahead
        exact Hash.compare_greatest_ne_lt _ ahead
      exact .inr ⟨_, List.mem_cons_self, more, rfl, behind, written⟩
    | refused _ _ marker => exact before (marker.symm.trans last)
    | ended done => exact .inl (EverFinished.step (.inl done))
  · rintro ⟨entry, mem, more, report, behind, written⟩
    rcases List.mem_cons.mp mem with rfl | mem
    · dsimp only at report behind written
      subst report
      rw [h.tracker_eq]
      exact Tracker.marker_of_written (Hash.compare_greatest behind) written
    · have last := hl.stays ⟨entry, mem, more, report, behind, written⟩
      exact (h.progress.stays last (hl.next last)).1

theorem traced_run {t : Tracker π} (fresh : t.marker = none) (run : Run { tracker := t } past l) :
    Traced past l := by
  induction run with
  | start => exact traced_fresh fresh
  | step _ h ih => exact traced_step ih h

/--
A restart takes the phase for over rightly, on any run from a fresh backend, exactly if no account
report took the marker to the end before all ranges were finished.
-/
theorem restart_done_iff {pivot pivot' : π} {backend : Store.Backend} {metrics metrics' : Metrics}
    {t t' : Tracker π} (fresh : backend.get .snapState markerKey = .ok none)
    (started : Tracker.resume pivot backend metrics = .ok t) (run : Run { tracker := t } past l)
    (restarted : Tracker.resume pivot' l.tracker.backend metrics' = .ok t') :
    (t'.phase = .done → EverFinished past l) ↔ (ReportedLast past → EverFinished past l) := by
  obtain rfl := Except.ok.inj ((Tracker.resume_of_get_none fresh pivot metrics).symm.trans started)
  have traced : Traced past l := traced_run (by exact Store.Backend.rows_of_get fresh) run
  rw [Tracker.phase_resume restarted]
  constructor
  · intro right reported
    exact right (traced.stays reported)
  · intro right last
    rcases traced.cause last with finished | reported
    · exact finished
    · exact right reported

/-- A sync that is given a code and then hears that there are no more accounts. -/
def codeWaiting : List (Ledger FixedPivot × Call FixedPivot) × Ledger FixedPivot :=
  let l : Ledger FixedPivot := { tracker := newSync }
  let asked := l.call (.nextRequest 0)
  let given := asked.call (.enqueueCodes [.ofNat 2])
  ([(given, .reportAccountRange .greatest false), (asked, .enqueueCodes [.ofNat 2]),
    (l, .nextRequest 0)], given.answer (.reportAccountRange .greatest false) firstRange)

/-- A restart at that point takes the phase for over and the code is forgotten. -/
theorem restart_done_codeWaiting : codeWaiting.2.tracker.codes = [.ofNat 2] ∧
    ¬ EverFinished codeWaiting.1 codeWaiting.2 ∧
    ∃ t, Tracker.resume newSync.pivot codeWaiting.2.tracker.backend {} = .ok t ∧
      t.phase = .done ∧ t.queued = 0 := by
  have run : Run { tracker := newSync } codeWaiting.1 codeWaiting.2 := by
    refine .step (.step (.step .start (.call ?_)) (.call ?_)) (.answer ?_ ?_ ?_)
    all_goals decide +kernel
  have never : ¬ EverFinished codeWaiting.1 codeWaiting.2 := by
    unfold EverFinished
    decide +kernel
  have reported : ReportedLast codeWaiting.1 :=
    ⟨_, List.mem_cons_self, false, rfl, by decide +kernel, by decide +kernel⟩
  have readable : (Tracker.resume newSync.pivot codeWaiting.2.tracker.backend {}).isOk := by
    decide +kernel
  cases restarted : Tracker.resume newSync.pivot codeWaiting.2.tracker.backend {} with
  | error e => simp [restarted, Except.isOk, Except.toBool] at readable
  | ok t =>
    have right := restart_done_iff rfl resume_newSync run restarted
    refine ⟨by decide +kernel, never, t, rfl, ?_, (Tracker.queued_resume restarted).1⟩
    by_contra going
    exact never (right.mp (fun done => absurd done going) reported)

end Ledger

end StateSync.Sync
