import StateSync.Proofs.Tracker.Calls

/-! How calls move the account progress of a tracker: the next account and the marker. -/

namespace StateSync.Sync.Tracker

open Store

variable {π : Type} {t u : Tracker π}

/-- The progress marker in the backend. -/
def marker (t : Tracker π) : Option Bytes := t.backend.snapState[markerKey]?

theorem SameProgress.marker (h : t.SameProgress u) : u.marker = t.marker :=
  congrArg (·.snapState[markerKey]?) h.backend

/-- How a call moves the account progress: not at all, by a report, or by ending the phase. -/
inductive Progress (t : Tracker π) : Call π → Tracker π → Prop
  | same {c : Call π} {u : Tracker π} (next : u.next = t.next) (marker : u.marker = t.marker) :
      Progress t c u
  | reported {path : Hash} {more : Bool} {u : Tracker π} (ahead : compare t.next path = .lt)
      (written : (t.reportAccountRange path more).1 = .ok ()) (next : u.next = path)
      (marker : u.marker = some path.toBytes) : Progress t (.reportAccountRange path more) u
  | refused {path : Hash} {more : Bool} {u : Tracker π} (ahead : compare t.next path = .lt)
      (next : u.next = path) (marker : u.marker = t.marker) :
      Progress t (.reportAccountRange path more) u
  | ended {now : UInt64} {u : Tracker π} (done : t.rangesFinished = true)
      (next : u.next = .greatest)
      (marker : u.marker = some Hash.greatest.toBytes ∨ u.marker = t.marker) :
      Progress t (.nextRequest now) u

theorem SameProgress.progress (h : t.SameProgress u) (c : Call π) : Progress t c u :=
  .same h.next h.marker

/-- Once the marker is at the end, no call takes it or the next account away from there. -/
theorem Progress.stays {c : Call π} (h : Progress t c u)
    (last : t.marker = some Hash.greatest.toBytes) (next : t.next = .greatest) :
    u.marker = some Hash.greatest.toBytes ∧ u.next = .greatest := by
  cases h with
  | same keptNext keptMarker => exact ⟨keptMarker.trans last, keptNext.trans next⟩
  | reported ahead | refused ahead =>
    rw [next] at ahead
    exact (Hash.compare_greatest_ne_lt _ ahead).elim
  | ended _ atEnd marker =>
    rcases marker with written | kept
    · exact ⟨written, atEnd⟩
    · exact ⟨kept.trans last, atEnd⟩

/-- A report that gets ahead and succeeds has written the marker. -/
theorem marker_of_written {path : Hash} {more : Bool} (ahead : compare t.next path = .lt)
    (written : (t.reportAccountRange path more).1 = .ok ()) :
    (t.reportAccountRange path more).2.marker = some path.toBytes := by
  have h := t.reportAccountRange_reported path more
  rw [written] at h
  generalize (t.reportAccountRange path more).2 = u at h ⊢
  cases h with
  | behind late => exact absurd ahead late
  | written _ put => exact Backend.rows_of_put put

theorem reportAccountRange_progress (t : Tracker π) (path : Hash) (more : Bool) :
    Progress t (.reportAccountRange path more) (t.reportAccountRange path more).2 := by
  have h := t.reportAccountRange_reported path more
  generalize answered : (t.reportAccountRange path more).1 = answer at h
  generalize (t.reportAccountRange path more).2 = u at h ⊢
  cases h with
  | behind => exact .same (t.heard_next _ _) (by simp [marker])
  | written ahead put =>
    exact .reported ahead answered (t.heard_next path more) (Backend.rows_of_put put)
  | refused ahead => exact .refused ahead (t.heard_next path more) (by simp [marker])

/-- Ending the phase takes the next account to the end, and the marker if it can be written. -/
theorem finishRanges_marker (t : Tracker π) :
    t.finishRanges.2.next = t.next ∧ t.finishRanges.2.marker = t.marker ∨
    t.finishRanges.2.next = .greatest ∧
      (t.finishRanges.2.marker = some Hash.greatest.toBytes ∨
        t.finishRanges.2.marker = t.marker) := by
  have h := t.finishRanges_closing
  generalize t.finishRanges.1 = answer at h
  generalize t.finishRanges.2 = u at h ⊢
  cases h with
  | again => exact .inl ⟨rfl, rfl⟩
  | announced _ put => exact .inr ⟨rfl, .inl (Backend.rows_of_put put)⟩
  | refused => exact .inr ⟨rfl, .inr rfl⟩

variable [PivotSource π]

theorem nextRequest_progress (t : Tracker π) (now : UInt64) :
    Progress t (.nextRequest now) (t.nextRequest now).2 := by
  have h := t.nextRequest_requested now
  generalize (t.nextRequest now).1 = answer at h
  generalize (t.nextRequest now).2 = v at h ⊢
  have ending : ∀ s, t.rangesFinished = true → t.Agrees s → s.finishRanges.2.SameProgress v →
      Progress t (.nextRequest now) v := by
    intro s done same logged
    rcases s.finishRanges_marker with ⟨next, marker⟩ | ⟨next, marker⟩
    · exact .same ((logged.next.trans next).trans same.next)
        ((logged.marker.trans marker).trans same.toSameProgress.marker)
    · rw [same.toSameProgress.marker, ← logged.marker] at marker
      exact .ended done (logged.next.trans next) marker
  cases h with
  | noPivot same => exact same.toSameProgress.progress _
  | idle _ same => exact same.toSameProgress.progress _
  | handedOut same dispatched logged =>
    exact ((same.toSameProgress.trans dispatched.progress).trans logged.toSameProgress).progress _
  | finished done same ended logged =>
    exact ending _ done same (by rw [ended]; exact logged.toSameProgress)
  | failed done same ended =>
    exact ending _ done same (by rw [ended]; exact SameProgress.refl v)

theorem run_progress (t : Tracker π) (c : Call π) : Progress t c (c.run t) := by
  cases c with
  | nextRequest now => exact t.nextRequest_progress now
  | reportAccountRange path more => exact t.reportAccountRange_progress path more
  | setFaults => exact .same rfl rfl
  | _ => exact (Call.run_sameProgress rfl t).progress _

end StateSync.Sync.Tracker
