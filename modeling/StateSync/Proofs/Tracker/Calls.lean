import StateSync.Hash.Lemmas
import StateSync.Proofs.ByteStore
import StateSync.Sync.Tracker.Report
import StateSync.Sync.Tracker.Request

/-! Derived facts on what each call leaves of the work and of the marker of a tracker. -/

namespace StateSync.Sync

open Store

/-- A call on a tracker, or a change of the pivot or of the faults outside of it. -/
inductive Call (π : Type)
  | enqueueAccounts (accounts : List AccountLeaf)
  | enqueueRange (range : StorageRange)
  | enqueueCodes (hashes : List Hash)
  | enqueueRefreshes (items : List RefreshItem)
  | nextRequest (now : UInt64)
  | reportAccountRange (path : Hash) (more : Bool)
  | reportStorageRange (leftover : Option StorageRange)
  | reportStorage (leftover : List AccountLeaf)
  | reportCodes (leftover : List Hash)
  | reportRefresh (leftover : List RefreshItem)
  | canSync
  | advancePivot
  | start (now : UInt64)
  | setSeconds (seconds : UInt64)
  | addStateBytes (synced stitched committed : UInt64)
  | addSavedBytes (saved : UInt64)
  | setPivot (pivot : π)
  | setFaults (readFault writeFault : Option StorageFault)

/-- The tracker after a call. -/
def Call.run {π : Type} [PivotSource π] : Call π → Tracker π → Tracker π
  | enqueueAccounts accounts, t => t.enqueueAccounts accounts
  | enqueueRange range, t => t.enqueueRange range
  | enqueueCodes hashes, t => t.enqueueCodes hashes
  | enqueueRefreshes items, t => t.enqueueRefreshes items
  | nextRequest now, t => (t.nextRequest now).2
  | reportAccountRange path more, t => (t.reportAccountRange path more).2
  | reportStorageRange leftover, t => t.reportStorageRange leftover
  | reportStorage leftover, t => t.reportStorage leftover
  | reportCodes leftover, t => t.reportCodes leftover
  | reportRefresh leftover, t => t.reportRefresh leftover
  | canSync, t => t.canSync.2
  | advancePivot, t => t.advancePivot
  | start now, t => t.start now
  | setSeconds seconds, t => t.setSeconds seconds
  | addStateBytes synced stitched committed, t => t.addStateBytes synced stitched committed
  | addSavedBytes saved, t => t.addSavedBytes saved
  | setPivot pivot, t => { t with pivot }
  | setFaults readFault writeFault, t =>
    { t with backend := t.backend.withFaults readFault writeFault }

namespace InFlight

variable {f : InFlight} {kind other : RequestKind}

theorem remove_of_none (h : f.count kind = 0) : f.remove kind = f := by
  cases f
  cases kind <;> simp_all [remove, count, setCount]

theorem count_add (f : InFlight) (kind other : RequestKind) :
    (f.add kind).count other = f.count other + if kind = other then 1 else 0 := by
  by_cases h : kind = other
  · subst h
    simp [add]
  · simp [add, count_setCount_of_ne, h]

theorem count_remove (f : InFlight) (kind other : RequestKind) :
    (f.remove kind).count other = f.count other - if kind = other then 1 else 0 := by
  by_cases h : kind = other
  · subst h
    simp [remove]
  · simp [remove, count_setCount_of_ne, h]

end InFlight

namespace Tracker

variable {π : Type} {s t u : Tracker π}

/-- The same work waits. -/
structure SameQueues (t u : Tracker π) : Prop where
  ranges : u.ranges = t.ranges
  accounts : u.accounts = t.accounts
  codes : u.codes = t.codes
  refreshes : u.refreshes = t.refreshes

/-- The same work waits and the same requests are in flight. -/
structure SameWork (t u : Tracker π) : Prop extends SameQueues t u where
  inFlight : u.inFlight = t.inFlight

/-- The same work waits, and one request fewer of a kind is in flight. -/
structure Released (kind : RequestKind) (t u : Tracker π) : Prop extends SameQueues t u where
  inFlight : u.inFlight = t.inFlight.remove kind

/-- The same account progress, in memory and in the backend. -/
structure SameProgress (t u : Tracker π) : Prop where
  backend : u.backend = t.backend
  next : u.next = t.next
  moreAccounts : u.moreAccounts = t.moreAccounts
  announced : u.announced = t.announced
  finish : u.finish = t.finish

/-- At most the pivot, the counts and the log differ. -/
structure Agrees (t u : Tracker π) : Prop extends SameWork t u, SameProgress t u

theorem SameQueues.refl (t : Tracker π) : t.SameQueues t := ⟨rfl, rfl, rfl, rfl⟩

theorem SameProgress.refl (t : Tracker π) : t.SameProgress t := ⟨rfl, rfl, rfl, rfl, rfl⟩

theorem Agrees.refl (t : Tracker π) : t.Agrees t := ⟨⟨.refl t, rfl⟩, .refl t⟩

theorem SameQueues.trans (h : s.SameQueues t) (h' : t.SameQueues u) : s.SameQueues u where
  ranges := h'.ranges.trans h.ranges
  accounts := h'.accounts.trans h.accounts
  codes := h'.codes.trans h.codes
  refreshes := h'.refreshes.trans h.refreshes

theorem SameWork.trans (h : s.SameWork t) (h' : t.SameWork u) : s.SameWork u :=
  ⟨h.toSameQueues.trans h'.toSameQueues, h'.inFlight.trans h.inFlight⟩

theorem SameProgress.trans (h : s.SameProgress t) (h' : t.SameProgress u) : s.SameProgress u where
  backend := h'.backend.trans h.backend
  next := h'.next.trans h.next
  moreAccounts := h'.moreAccounts.trans h.moreAccounts
  announced := h'.announced.trans h.announced
  finish := h'.finish.trans h.finish

theorem Agrees.trans (h : s.Agrees t) (h' : t.Agrees u) : s.Agrees u :=
  ⟨h.toSameWork.trans h'.toSameWork, h.toSameProgress.trans h'.toSameProgress⟩

theorem Agrees.rangesFinished (h : t.Agrees u) : u.rangesFinished = t.rangesFinished := by
  simp only [Tracker.rangesFinished, h.inFlight, h.ranges, h.accounts, h.codes, h.refreshes,
    h.moreAccounts]

theorem rangesFinished_iff : t.rangesFinished = true ↔ t.moreAccounts = false ∧ t.ranges = [] ∧
    t.accounts = [] ∧ t.codes = [] ∧ t.refreshes = [] ∧ t.inFlight = {} := by
  simp [rangesFinished, and_assoc]

/-- Without a marker all accounts are to be received, and none if it is the greatest hash. -/
theorem readMarker_cases {marker : Option Bytes} {next : Hash} {moreAccounts : Bool}
    {log : List LogEvent} (h : readMarker marker = .ok (next, moreAccounts, log)) :
    marker = none ∧ next = .zero ∧ moreAccounts = true ∨
      marker = some next.toBytes ∧ (moreAccounts = false ↔ next = .greatest) := by
  cases marker with
  | none =>
    cases h
    exact .inl ⟨rfl, rfl, rfl⟩
  | some bytes =>
    right
    simp only [readMarker] at h
    split at h
    · cases h
    · next length =>
      have whole := Hash.toBytes_ofBytes (not_not.mp length)
      split at h
      · next last =>
        cases h
        exact ⟨by rw [← whole, last], by simp⟩
      · next last =>
        cases h
        exact ⟨by rw [whole], by simp [last]⟩

theorem resume_eq {pivot : π} {backend : Backend} {metrics : Metrics}
    (h : resume pivot backend metrics = .ok t) : ∃ next moreAccounts log,
      readMarker backend.snapState[markerKey]? = .ok (next, moreAccounts, log) ∧
      t = { pivot, backend, metrics, next, moreAccounts, log } := by
  unfold resume at h
  split at h
  · cases h
  · next marker found =>
    have row : backend.snapState[markerKey]? = marker := Backend.rows_of_get found
    rw [row]
    cases read : readMarker marker with
    | error e =>
      rw [read] at h
      cases h
    | ok result =>
      rw [read] at h
      exact ⟨_, _, _, rfl, (Except.ok.inj h).symm⟩

theorem resume_of_get_none {backend : Backend}
    (h : backend.get .snapState markerKey = .ok none) (pivot : π) (metrics : Metrics) :
    resume pivot backend metrics =
      .ok { pivot, backend, metrics, next := .zero, moreAccounts := true } := by
  rw [resume, h]
  rfl

theorem logged_agrees (t : Tracker π) (events : List LogEvent) : t.Agrees (t.logged events) :=
  ⟨⟨⟨rfl, rfl, rfl, rfl⟩, rfl⟩, ⟨rfl, rfl, rfl, rfl, rfl⟩⟩

theorem countRequest_agrees (t : Tracker π) (now : UInt64) : t.Agrees (t.countRequest now) :=
  ⟨⟨⟨rfl, rfl, rfl, rfl⟩, rfl⟩, ⟨rfl, rfl, rfl, rfl, rfl⟩⟩

theorem release_released (t : Tracker π) (kind : RequestKind) :
    Released kind t (t.release kind) := by
  unfold release
  split
  · next none => exact ⟨⟨rfl, rfl, rfl, rfl⟩, (InFlight.remove_of_none none).symm⟩
  · exact ⟨⟨rfl, rfl, rfl, rfl⟩, rfl⟩

theorem release_progress (t : Tracker π) (kind : RequestKind) :
    t.SameProgress (t.release kind) := by
  unfold release
  split <;> exact ⟨rfl, rfl, rfl, rfl, rfl⟩

/-- A tracker that expects no further accounts. -/
def closed (t : Tracker π) : Tracker π := { t with moreAccounts := false, next := .greatest }

/-- What ending the phase comes to. -/
inductive Closing (t : Tracker π) : Except SnapError Unit → Tracker π → Prop
  | again (announced : t.announced = true) : Closing t (.ok ()) t
  | announced {backend : Backend} (first : t.announced = false)
      (put : t.backend.put .snapState markerKey Hash.greatest.toBytes = .ok backend) :
      Closing t (.ok ()) (announce { t.closed with backend })
  | refused {fault : StorageFault} (first : t.announced = false)
      (put : t.backend.put .snapState markerKey Hash.greatest.toBytes = .error fault) :
      Closing t (.error (.store (.storage fault))) t.closed

theorem finishRanges_closing (t : Tracker π) :
    Closing t t.finishRanges.1 t.finishRanges.2 := by
  by_cases announced : t.announced = true
  · rw [finishRanges, if_pos announced]
    exact .again announced
  · have first := Bool.eq_false_iff.mpr announced
    rw [finishRanges, if_neg announced, saveMarker]
    dsimp only
    cases put : t.backend.put .snapState markerKey Hash.greatest.toBytes with
    | ok backend => exact .announced first put
    | error fault => exact .refused first put

theorem finishRanges_work (t : Tracker π) : t.SameWork t.finishRanges.2 := by
  have h := t.finishRanges_closing
  generalize t.finishRanges.1 = answer at h
  generalize t.finishRanges.2 = u at h ⊢
  cases h <;> exact ⟨⟨rfl, rfl, rfl, rfl⟩, rfl⟩

/-- A tracker that heard back from an account range. -/
def heard (t : Tracker π) (next : Hash) (more : Bool) : Tracker π :=
  release { t with next, moreAccounts := t.moreAccounts && more } .account

section Heard

variable (next : Hash) (more : Bool)

theorem heard_released (t : Tracker π) : Released .account t (t.heard next more) :=
  have out := release_released { t with next, moreAccounts := t.moreAccounts && more } .account
  ⟨⟨out.ranges, out.accounts, out.codes, out.refreshes⟩, out.inFlight⟩

@[simp] theorem heard_next (t : Tracker π) : (t.heard next more).next = next :=
  (release_progress _ _).next

@[simp] theorem heard_moreAccounts (t : Tracker π) :
    (t.heard next more).moreAccounts = (t.moreAccounts && more) :=
  (release_progress _ _).moreAccounts

@[simp] theorem heard_backend (t : Tracker π) : (t.heard next more).backend = t.backend :=
  (release_progress _ _).backend

@[simp] theorem heard_announced (t : Tracker π) :
    (t.heard next more).announced = t.announced :=
  (release_progress _ _).announced

@[simp] theorem heard_finish (t : Tracker π) : (t.heard next more).finish = t.finish :=
  (release_progress _ _).finish

end Heard

/-- What a report on an account range comes to. -/
inductive Reported (t : Tracker π) (path : Hash) (more : Bool) :
    Except SnapError Unit → Tracker π → Prop
  | behind (late : compare t.next path ≠ .lt) :
      Reported t path more (.ok ()) (t.heard t.next more)
  | written {backend : Backend} (ahead : compare t.next path = .lt)
      (put : t.backend.put .snapState markerKey path.toBytes = .ok backend) :
      Reported t path more (.ok ()) { t.heard path more with backend }
  | refused {fault : StorageFault} (ahead : compare t.next path = .lt)
      (put : t.backend.put .snapState markerKey path.toBytes = .error fault) :
      Reported t path more (.error (.store (.storage fault))) (t.heard path more)

theorem reportAccountRange_reported (t : Tracker π) (path : Hash) (more : Bool) :
    Reported t path more (t.reportAccountRange path more).1 (t.reportAccountRange path more).2 := by
  by_cases ahead : compare t.next path = .lt
  · have report : t.reportAccountRange path more = (t.heard path more).saveMarker path := by
      simp [reportAccountRange, heard, ahead]
    rw [report, saveMarker, heard_backend]
    cases put : t.backend.put .snapState markerKey path.toBytes with
    | ok backend => exact .written ahead put
    | error fault => exact .refused ahead put
  · have report : t.reportAccountRange path more = (.ok (), t.heard t.next more) := by
      simp [reportAccountRange, heard, ahead]
    rw [report]
    exact .behind ahead

theorem reportAccountRange_released (t : Tracker π) (path : Hash) (more : Bool) :
    Released .account t (t.reportAccountRange path more).2 := by
  have h := t.reportAccountRange_reported path more
  generalize (t.reportAccountRange path more).1 = answer at h
  generalize (t.reportAccountRange path more).2 = u at h ⊢
  cases h with
  | behind => exact t.heard_released t.next more
  | written =>
    have out := t.heard_released path more
    exact ⟨⟨out.ranges, out.accounts, out.codes, out.refreshes⟩, out.inFlight⟩
  | refused => exact t.heard_released path more

/-- The five ways in which the schedule hands out a batch. -/
inductive Dispatched (t : Tracker π) (pivot : Header) : Batch → Tracker π → Prop
  | refresh (waiting : t.refreshes ≠ []) :
      Dispatched t pivot
        (.refresh { root := pivot.stateRoot, block := pivot.number, items := t.refreshes })
        { t.dispatched .refresh with refreshes := [] }
  | accountRange (more : t.moreAccounts = true) (first : t.inFlight.account = 0) :
      Dispatched t pivot
        (.accountRange
          { root := pivot.stateRoot, block := pivot.number, start := t.next, limit := .greatest })
        (t.dispatched .account)
  | retry {range : StorageRange} {ranges : List StorageRange}
      (waiting : t.ranges = range :: ranges) :
      Dispatched t pivot
        (.storageRange { range with root := pivot.stateRoot, block := pivot.number })
        { t.dispatched .storage with ranges }
  | storage (waiting : t.accounts ≠ []) :
      Dispatched t pivot
        (.storageRange
          { root := pivot.stateRoot, block := pivot.number, start := .zero, limit := .greatest,
            accounts := t.accounts.take storageBatchSize, attempts := 0 })
        { t.dispatched .storage with accounts := t.accounts.drop storageBatchSize }
  | codes (waiting : t.codes ≠ []) :
      Dispatched t pivot
        (.codes { root := pivot.stateRoot, block := pivot.number,
                  hashes := t.codes.take codesBatchSize })
        { t.dispatched .code with codes := t.codes.drop codesBatchSize }

theorem dispatched_of_schedule? {pivot : Header} {batch : Batch}
    (h : t.schedule? pivot = some (batch, u)) : Dispatched t pivot batch u := by
  simp only [schedule?, Option.orElse_eq_orElse, Option.orElse_eq_or, Option.or_eq_some_iff] at h
  rcases h with h | ⟨_, h | ⟨_, h | ⟨_, h | ⟨_, h⟩⟩⟩⟩
  · unfold nextRefresh? at h
    split at h <;> cases h
    exact .refresh (by simp_all)
  · unfold nextAccountRange? at h
    split at h <;> cases h
    exact .accountRange (by simp_all) (by simp_all)
  · unfold nextRetry? at h
    split at h <;> cases h
    exact .retry ‹_›
  · unfold nextStorage? at h
    split at h <;> cases h
    exact .storage (by simp_all)
  · unfold nextCodes? at h
    split at h <;> cases h
    exact .codes (by simp_all)

theorem Dispatched.progress {pivot : Header} {batch : Batch} (h : Dispatched t pivot batch u) :
    t.SameProgress u := by
  cases h <;> exact ⟨rfl, rfl, rfl, rfl, rfl⟩

variable [PivotSource π]

theorem readPivot_agrees (t : Tracker π) : t.Agrees t.readPivot.2 :=
  ⟨⟨⟨rfl, rfl, rfl, rfl⟩, rfl⟩, ⟨rfl, rfl, rfl, rfl, rfl⟩⟩

theorem advancePivot_agrees (t : Tracker π) : t.Agrees t.advancePivot :=
  ⟨⟨⟨rfl, rfl, rfl, rfl⟩, rfl⟩, ⟨rfl, rfl, rfl, rfl, rfl⟩⟩

theorem canSync_agrees (t : Tracker π) : t.Agrees t.canSync.2 := by
  have read := t.readPivot_agrees
  unfold canSync
  split
  · next h =>
    rw [h] at read
    split <;> exact read.trans (logged_agrees _ _)
  · next h =>
    rw [h] at read
    exact read.trans (logged_agrees _ _)

/-- A tracker that asked for a newer pivot, as a range came back too often. -/
def askedNewer (t : Tracker π) (range : StorageRange) : Tracker π :=
  advancePivot
    { t.logged [.rangeKeepsFailing range.start range.accounts.length (range.attempts + 1)] with
      metrics := t.metrics.recordRangeFailure }

theorem askedNewer_agrees (t : Tracker π) (range : StorageRange) :
    t.Agrees (t.askedNewer range) :=
  ⟨⟨⟨rfl, rfl, rfl, rfl⟩, rfl⟩, ⟨rfl, rfl, rfl, rfl, rfl⟩⟩

/-- An unfinished range goes back to the queue as it was, but for its count of attempts. -/
theorem requeue_eq (t : Tracker π) (range : StorageRange) : ∃ s attempts, t.Agrees s ∧
    t.requeue range = s.enqueueRange { range with attempts } := by
  by_cases often : maxRangeRetries < range.attempts + 1
  · refine ⟨t.askedNewer range, 0, t.askedNewer_agrees range, ?_⟩
    simp only [requeue, if_pos often]
    rfl
  · refine ⟨t, range.attempts + 1, .refl t, ?_⟩
    simp only [requeue, if_neg often]
    rfl

/-- What a request for work comes to. -/
inductive Requested (t : Tracker π) :
    Except SnapError (Option Batch × Bool) → Tracker π → Prop
  | noPivot {u : Tracker π} (same : t.Agrees u) :
      Requested t (.ok (none, t.rangesFinished)) u
  | handedOut {s u v : Tracker π} {pivot : Header} {batch : Batch} (same : t.Agrees s)
      (dispatched : Dispatched s pivot batch u) (logged : u.Agrees v) :
      Requested t (.ok (some batch, false)) v
  | idle {u : Tracker π} (busy : t.rangesFinished = false) (same : t.Agrees u) :
      Requested t (.ok (none, false)) u
  | finished {s u v : Tracker π} (done : t.rangesFinished = true) (same : t.Agrees s)
      (ended : s.finishRanges = (.ok (), u)) (logged : u.Agrees v) :
      Requested t (.ok (none, true)) v
  | failed {s u : Tracker π} {e : SnapError} (done : t.rangesFinished = true)
      (same : t.Agrees s) (ended : s.finishRanges = (.error e, u)) :
      Requested t (.error e) u

/-- The tracker that a call schedules from. -/
def asked (t : Tracker π) (now : UInt64) : Tracker π := (t.countRequest now).readPivot.2

theorem asked_agrees (t : Tracker π) (now : UInt64) : t.Agrees (t.asked now) :=
  (countRequest_agrees t now).trans (readPivot_agrees _)

theorem nextRequest_of_pivot {pivot : Header} (h : t.readPivot.1 = some pivot) (now : UInt64) :
    t.nextRequest now = (t.asked now).requestAt pivot := by
  have read : (t.countRequest now).readPivot = (some pivot, t.asked now) := Prod.ext h rfl
  rw [nextRequest, read]

theorem nextRequest_of_no_pivot (h : t.readPivot.1 = none) (now : UInt64) :
    t.nextRequest now = (.ok (none, t.rangesFinished), t.asked now) := by
  have read : (t.countRequest now).readPivot = (none, t.asked now) := Prod.ext h rfl
  rw [nextRequest, read]
  simp only [(t.asked_agrees now).rangesFinished]

theorem requestAt_of_scheduled {pivot : Header} {batch : Batch}
    (h : t.schedule? pivot = some (batch, u)) :
    t.requestAt pivot = (.ok (some batch, false), u.logDue (some batch)) := by
  rw [requestAt, h]

theorem requestAt_of_idle {pivot : Header} (idle : t.schedule? pivot = none)
    (busy : t.rangesFinished = false) :
    t.requestAt pivot = (.ok (none, false), t.logDue none) := by
  rw [requestAt, idle]
  simp [busy]

theorem requestAt_of_finished {pivot : Header} (idle : t.schedule? pivot = none)
    (done : t.rangesFinished = true) : t.requestAt pivot = match t.finishRanges with
      | (.ok (), u) => (.ok (none, true), u.logDue none)
      | (.error e, u) => (.error e, u) := by
  rw [requestAt, idle]
  exact if_pos done

theorem nextRequest_requested (t : Tracker π) (now : UInt64) :
    Requested t (t.nextRequest now).1 (t.nextRequest now).2 := by
  have same := t.asked_agrees now
  cases read : t.readPivot.1 with
  | none =>
    rw [nextRequest_of_no_pivot read]
    exact .noPivot same
  | some pivot =>
    rw [nextRequest_of_pivot read]
    cases scheduled : (t.asked now).schedule? pivot with
    | some next =>
      rw [requestAt_of_scheduled scheduled]
      exact .handedOut same (dispatched_of_schedule? scheduled) (logged_agrees _ _)
    | none =>
      cases done : (t.asked now).rangesFinished with
      | true =>
        rw [requestAt_of_finished scheduled done]
        rw [same.rangesFinished] at done
        split
        · next ended => exact .finished done same ended (logged_agrees _ _)
        · next ended => exact .failed done same ended
      | false =>
        rw [requestAt_of_idle scheduled done]
        rw [same.rangesFinished] at done
        exact .idle done (same.trans (logged_agrees _ _))

/-- A request is told that the phase is over only when all ranges are finished. -/
theorem rangesFinished_of_nextRequest {now : UInt64}
    (h : (t.nextRequest now).1 = .ok (none, true)) : t.rangesFinished = true := by
  have asked := t.nextRequest_requested now
  generalize (t.nextRequest now).1 = answer at h asked
  cases asked with
  | noPivot => exact congrArg Prod.snd (Except.ok.inj h)
  | finished done => exact done
  | handedOut | idle | failed => cases h

end Tracker

namespace Call

variable {π : Type}

/-- A call that may move the account progress, or change what the backend does on a write. -/
def movesProgress : Call π → Bool
  | nextRequest _ | reportAccountRange _ _ | setFaults _ _ => true
  | _ => false

theorem run_sameProgress [PivotSource π] {c : Call π} (h : c.movesProgress = false)
    (t : Tracker π) : t.SameProgress (c.run t) := by
  cases c with
  | nextRequest | reportAccountRange | setFaults => cases h
  | reportStorageRange leftover =>
    cases leftover with
    | none => exact t.release_progress .storage
    | some range =>
      obtain ⟨s, attempts, same, hs⟩ := t.requeue_eq range
      have queued : s.SameProgress (t.requeue range) := hs ▸ ⟨rfl, rfl, rfl, rfl, rfl⟩
      exact (same.toSameProgress.trans queued).trans (Tracker.release_progress _ .storage)
  | reportStorage leftover =>
    have queued : t.SameProgress (t.enqueueAccounts leftover) := ⟨rfl, rfl, rfl, rfl, rfl⟩
    exact queued.trans (Tracker.release_progress _ .storage)
  | reportCodes leftover =>
    have queued : t.SameProgress (t.enqueueCodes leftover) := ⟨rfl, rfl, rfl, rfl, rfl⟩
    exact queued.trans (Tracker.release_progress _ .code)
  | reportRefresh leftover =>
    have queued : t.SameProgress (t.enqueueRefreshes leftover) := ⟨rfl, rfl, rfl, rfl, rfl⟩
    exact queued.trans (Tracker.release_progress _ .refresh)
  | canSync => exact t.canSync_agrees.toSameProgress
  | advancePivot => exact t.advancePivot_agrees.toSameProgress
  | enqueueAccounts | enqueueRange | enqueueCodes | enqueueRefreshes | start | setSeconds
  | addStateBytes | addSavedBytes | setPivot => exact ⟨rfl, rfl, rfl, rfl, rfl⟩

end Call

end StateSync.Sync
