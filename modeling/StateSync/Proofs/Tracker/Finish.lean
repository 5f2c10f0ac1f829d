import StateSync.Proofs.Tracker.Idle
import StateSync.Proofs.Tracker.Progress

/-!
The end of the phase. A tracker announces it at most once, when its ranges are finished and the
marker that tells of it is written; from then on the marker stays, through later calls and restarts.
Without a pivot a call only reports that the ranges are finished, so it may do so unannounced.
All this is about the states between whole calls, of which none begins before the last has ended.
-/

namespace StateSync.Sync.Tracker

open Store

variable {π : Type} {t u : Tracker π}

/-- No accounts remain, in memory and by the marker. -/
structure AtEnd (t : Tracker π) : Prop where
  marker : t.marker = some Hash.greatest.toBytes
  next : t.next = .greatest
  done : t.moreAccounts = false

theorem SameProgress.atEnd (h : t.SameProgress u) (ht : t.AtEnd) : u.AtEnd :=
  ⟨h.marker.trans ht.marker, h.next.trans ht.next, h.moreAccounts.trans ht.done⟩

/-- A tracker that resumes from the greatest hash expects no accounts. -/
theorem atEnd_resume {pivot : π} {backend : Backend} {metrics : Metrics}
    (h : resume pivot backend metrics = .ok t)
    (last : backend.snapState[markerKey]? = some Hash.greatest.toBytes) : t.AtEnd := by
  obtain ⟨next, moreAccounts, log, read, rfl⟩ := resume_eq h
  rcases readMarker_cases read with ⟨row, -, -⟩ | ⟨row, done⟩
  · cases row.symm.trans last
  · obtain rfl := Hash.toBytes_inj.mp (Option.some.inj (row.symm.trans last))
    exact ⟨last, rfl, done.mpr rfl⟩

/-- The end was announced once or not at all, and if it was, no accounts remain. -/
structure Announced (t : Tracker π) : Prop where
  sent : t.finish.sent.size = if t.announced then 1 else 0
  atEnd : t.announced = true → t.AtEnd

theorem Announced.of_sent (ht : t.Announced) (once : t.finish.sent.size = 1) :
    t.announced = true := by
  have sent := ht.sent
  rw [once] at sent
  cases announced : t.announced <;> simp [announced] at sent ⊢

theorem Announced.of_not_sent (ht : t.Announced) (none : t.finish.sent.size = 0) :
    t.announced = false := by
  have sent := ht.sent
  rw [none] at sent
  cases announced : t.announced <;> simp [announced] at sent ⊢

/-- How a call moves the end of the phase: not at all, or by announcing it. -/
inductive Ending (t : Tracker π) : Call π → Tracker π → Prop
  | silent {c : Call π} {u : Tracker π} (announced : u.announced = t.announced)
      (finish : u.finish = t.finish) (done : t.moreAccounts = false → u.moreAccounts = false) :
      Ending t c u
  | announced {now : UInt64} {s u : Tracker π} (first : t.announced = false)
      (before : s.finish = t.finish) (done : s.rangesFinished = true) (atEnd : s.AtEnd)
      (after : s.announce.Agrees u) : Ending t (.nextRequest now) u

theorem SameProgress.ending (h : t.SameProgress u) (c : Call π) : Ending t c u :=
  .silent h.announced h.finish h.moreAccounts.trans

theorem reportAccountRange_ending (t : Tracker π) (path : Hash) (more : Bool) :
    Ending t (.reportAccountRange path more) (t.reportAccountRange path more).2 := by
  have h := t.reportAccountRange_reported path more
  generalize (t.reportAccountRange path more).1 = answer at h
  generalize (t.reportAccountRange path more).2 = u at h ⊢
  cases h <;> exact .silent (t.heard_announced _ _) (t.heard_finish _ _) fun done => by simp [done]

/-- Closing a phase whose ranges are finished leaves them finished, whatever the backend does. -/
theorem rangesFinished_closed (done : t.rangesFinished = true) (backend : Backend) :
    ({ t.closed with backend } : Tracker π).rangesFinished = true := by
  obtain ⟨_, ranges, accounts, codes, refreshes, inFlight⟩ := rangesFinished_iff.mp done
  exact rangesFinished_iff.mpr ⟨rfl, ranges, accounts, codes, refreshes, inFlight⟩

variable [PivotSource π]

theorem nextRequest_ending (t : Tracker π) (now : UInt64) :
    Ending t (.nextRequest now) (t.nextRequest now).2 := by
  have h := t.nextRequest_requested now
  generalize (t.nextRequest now).1 = answer at h
  generalize (t.nextRequest now).2 = v at h ⊢
  cases h with
  | noPivot same => exact same.toSameProgress.ending _
  | idle _ same => exact same.toSameProgress.ending _
  | handedOut same dispatched logged =>
    exact ((same.toSameProgress.trans dispatched.progress).trans logged.toSameProgress).ending _
  | @finished s _ _ done same ended logged =>
    have closing := s.finishRanges_closing
    rw [ended] at closing
    cases closing with
    | again => exact (same.trans logged).toSameProgress.ending _
    | @announced backend first put =>
      rw [← same.rangesFinished] at done
      exact .announced (s := { s.closed with backend }) (same.announced.symm.trans first)
        same.finish (rangesFinished_closed done backend) ⟨Backend.rows_of_put put, rfl, rfl⟩ logged
  | @failed s _ _ _ same ended =>
    have closing := s.finishRanges_closing
    rw [ended] at closing
    cases closing with
    | refused => exact .silent same.announced same.finish fun _ => rfl

theorem run_ending (t : Tracker π) (c : Call π) : Ending t c (c.run t) := by
  cases c with
  | nextRequest now => exact t.nextRequest_ending now
  | reportAccountRange path more => exact t.reportAccountRange_ending path more
  | setFaults => exact .silent rfl rfl id
  | _ => exact (Call.run_sameProgress rfl t).ending _

/-- What a tracker on some backend comes to by calls. -/
inductive Reachable : Tracker π → Prop
  | resume {pivot : π} {backend : Backend} {metrics : Metrics} {t : Tracker π}
      (resumed : Tracker.resume pivot backend metrics = .ok t) : Reachable t
  | call {t : Tracker π} (c : Call π) : Reachable t → Reachable (c.run t)

/-- What a tracker comes to by calls and restarts. A restart finds the rows that were left. -/
inductive LeadsTo (t : Tracker π) : Tracker π → Prop
  | refl : LeadsTo t t
  | call {u : Tracker π} (c : Call π) : LeadsTo t u → LeadsTo t (c.run u)
  | restart {u v : Tracker π} {pivot : π} {backend : Backend} {metrics : Metrics} : LeadsTo t u →
      backend.snapState = u.backend.snapState → Tracker.resume pivot backend metrics = .ok v →
      LeadsTo t v

theorem AtEnd.run (ht : t.AtEnd) (c : Call π) : (c.run t).AtEnd := by
  obtain ⟨marker, next⟩ := (t.run_progress c).stays ht.marker ht.next
  refine ⟨marker, next, ?_⟩
  have ending := t.run_ending c
  generalize c.run t = u at ending ⊢
  cases ending with
  | silent _ _ done => exact done ht.done
  | announced _ _ _ atEnd after => exact after.moreAccounts.trans atEnd.done

theorem AtEnd.leadsTo (ht : t.AtEnd) (h : t.LeadsTo u) : u.AtEnd := by
  induction h with
  | refl => exact ht
  | call c _ ih => exact ih.run c
  | restart _ rows resumed ih =>
    exact atEnd_resume resumed ((congrArg (·[markerKey]?) rows).trans ih.marker)

theorem announced_run (ht : t.Announced) (c : Call π) : (c.run t).Announced := by
  have atEnd := fun announced => (ht.atEnd announced).run c
  have ending := t.run_ending c
  generalize c.run t = u at atEnd ending ⊢
  cases ending with
  | silent announced finish =>
    refine ⟨?_, fun now => atEnd (announced.symm.trans now)⟩
    rw [finish, announced]
    exact ht.sent
  | announced first before _ atEnd after =>
    have none := ht.sent
    rw [first, ← before] at none
    refine ⟨?_, fun _ => after.atEnd ⟨atEnd.marker, atEnd.next, atEnd.done⟩⟩
    rw [after.finish, after.announced]
    simpa [announce, Channel.send] using none

theorem announced_reachable (h : t.Reachable) : t.Announced := by
  induction h with
  | resume resumed =>
    obtain ⟨_, _, _, _, rfl⟩ := resume_eq resumed
    exact ⟨rfl, fun announced => by cases announced⟩
  | call c _ ih => exact announced_run ih c

/-- With a pivot and all ranges finished, a call comes to the end of the phase. -/
theorem nextRequest_closing {pivot : Header} (read : t.readPivot.1 = some pivot)
    (done : t.rangesFinished = true) (now : UInt64) : ∃ answer u,
      Closing (t.asked now) answer u ∧ (t.nextRequest now).1 = answer.map (fun _ => (none, true)) ∧
      u.Agrees (t.nextRequest now).2 := by
  have done := (t.asked_agrees now).rangesFinished.trans done
  obtain ⟨more, ranges, accounts, codes, refreshes, _⟩ := rangesFinished_iff.mp done
  have idle : (t.asked now).schedule? pivot = none :=
    schedule?_eq_none_iff.mpr ⟨refreshes, ranges, accounts, codes, .inl more⟩
  refine ⟨_, _, (t.asked now).finishRanges_closing, ?_⟩
  rw [nextRequest_of_pivot read, requestAt_of_finished idle done]
  rcases (t.asked now).finishRanges with ⟨_ | _, u⟩
  · exact ⟨rfl, .refl u⟩
  · exact ⟨rfl, logged_agrees u _⟩

/-- A call that fails announced and wrote nothing, and the ranges are still finished. -/
theorem unannounced_of_error {now : UInt64} {e : SnapError}
    (failed : (t.nextRequest now).1 = .error e) :
    (t.nextRequest now).2.finish = t.finish ∧ (t.nextRequest now).2.marker = t.marker ∧
      (t.nextRequest now).2.rangesFinished = true := by
  have h := t.nextRequest_requested now
  rw [failed] at h
  generalize (t.nextRequest now).2 = u at h ⊢
  cases h with
  | @failed s _ _ done same ended =>
    have closing := s.finishRanges_closing
    rw [ended] at closing
    rw [← same.rangesFinished] at done
    cases closing with
    | refused =>
      exact ⟨same.finish, same.toSameProgress.marker, rangesFinished_closed done s.backend⟩

theorem announced_of_finished {pivot : Header} {now : UInt64} (read : t.readPivot.1 = some pivot)
    (ended : (t.nextRequest now).1 = .ok (none, true)) :
    (t.nextRequest now).2.announced = true := by
  obtain ⟨answer, u, closing, answered, same⟩ :=
    nextRequest_closing read (rangesFinished_of_nextRequest ended) now
  rw [same.announced]
  cases closing with
  | again announced => exact announced
  | announced => rfl
  | refused => cases answered.symm.trans ended

/-- The first call that ends the phase answers by the write of the marker. -/
theorem nextRequest_of_first {pivot : Header} (read : t.readPivot.1 = some pivot)
    (done : t.rangesFinished = true) (first : t.announced = false) (now : UInt64) :
    match t.backend.writeFault with
    | some fault => (t.nextRequest now).1 = .error (.store (.storage fault))
    | none => (t.nextRequest now).1 = .ok (none, true) := by
  obtain ⟨answer, u, closing, answered, same⟩ := nextRequest_closing read done now
  have put := t.backend.put_cases .snapState markerKey Hash.greatest.toBytes
  rw [answered]
  cases closing with
  | again announced => cases first.symm.trans announced
  | @announced backend _ stored =>
    rcases put with ⟨none, _⟩ | ⟨fault, _, refused⟩
    · rw [none]
      rfl
    · cases stored.symm.trans refused
  | @refused fault _ refused =>
    rcases put with ⟨_, backend, stored⟩ | ⟨other, some, known⟩
    · cases refused.symm.trans stored
    · rw [some]
      cases known.symm.trans refused
      rfl

/--
The end is announced at most once, from a tracker whose ranges are finished and whose marker is
written. A refused write is the answer of the call, which announces nothing and is tried again.
Once announced, the end stays in all that follows, restarts included.
-/
theorem announced_once (h : t.Reachable) :
    t.finish.sent.size ≤ 1 ∧
    (∀ c : Call π, (c.run t).finish ≠ t.finish → ∃ s : Tracker π, s.rangesFinished = true ∧
      s.marker = some Hash.greatest.toBytes ∧ s.finish = t.finish ∧
      s.announce.Agrees (c.run t)) ∧
    (∀ now e, (t.nextRequest now).1 = .error e → (t.nextRequest now).2.finish = t.finish ∧
      (t.nextRequest now).2.marker = t.marker ∧ (t.nextRequest now).2.rangesFinished = true) ∧
    (∀ now pivot, t.readPivot.1 = some pivot → t.rangesFinished = true → t.finish.sent.size = 0 →
      match t.backend.writeFault with
      | some fault => (t.nextRequest now).1 = .error (.store (.storage fault))
      | none => (t.nextRequest now).1 = .ok (none, true) ∧
          (t.nextRequest now).2.finish.sent.size = 1) ∧
    (t.finish.sent.size = 1 → ∀ u, t.LeadsTo u →
      u.marker = some Hash.greatest.toBytes ∧ u.phase = .done) := by
  have ht := announced_reachable h
  refine ⟨?_, ?_, fun now e failed => unannounced_of_error failed, ?_, ?_⟩
  · rw [ht.sent]
    split <;> omega
  · intro c moved
    have ending := t.run_ending c
    generalize c.run t = u at ending moved ⊢
    cases ending with
    | silent _ finish => exact absurd finish moved
    | @announced _ s _ _ before done atEnd after => exact ⟨s, done, atEnd.marker, before, after⟩
  · intro now pivot read done none
    have answer := nextRequest_of_first read done (ht.of_not_sent none) now
    split
    · next fault some => rwa [some] at answer
    · next none =>
      rw [none] at answer
      have after := (announced_reachable (h.call (.nextRequest now))).sent
      rw [Call.run, announced_of_finished read answer] at after
      exact ⟨answer, after⟩
  · intro once u later
    have atEnd := (ht.atEnd (ht.of_sent once)).leadsTo later
    exact ⟨atEnd.marker, by simp [phase, atEnd.done]⟩

/-- A sync that heard of all accounts while nothing can be written. -/
def neverWritten : Tracker FixedPivot :=
  let t := (Call.nextRequest 0).run Ledger.newSync
  let t := (Call.setFaults none (some .lock)).run t
  (Call.reportAccountRange .greatest false).run t

/-- It tries to end the phase in vain, and again with success. What comes late finds the end. -/
theorem announced_once_neverWritten :
    let refused := (neverWritten.nextRequest 0).2
    let retried := (Call.setFaults none none).run refused
    let ended := (retried.nextRequest 0).2
    let late := (Call.reportAccountRange (.ofNat 5) true).run ended
    (neverWritten.nextRequest 0).1 = .error (.store (.storage .lock)) ∧
      refused.finish.sent.size = 0 ∧ refused.rangesFinished = true ∧
      (retried.nextRequest 0).1 = .ok (none, true) ∧ ended.finish.sent.size = 1 ∧
      late.finish.sent.size ≤ 1 ∧
      ∃ t, resume Ledger.newSync.pivot late.backend {} = .ok t ∧
        t.marker = some Hash.greatest.toBytes ∧ t.phase = .done := by
  intro refused retried ended late
  have reached : neverWritten.Reachable :=
    .call (.reportAccountRange .greatest false) (.call (.setFaults none (some .lock))
      (.call (.nextRequest 0) (.resume Ledger.resume_newSync)))
  have again : retried.Reachable := .call _ (.call (.nextRequest 0) reached)
  have after : ended.Reachable := .call (.nextRequest 0) again
  have failed : (neverWritten.nextRequest 0).1 = .error (.store (.storage .lock)) := by
    decide +kernel
  obtain ⟨silent, -, done⟩ := (announced_once reached).2.2.1 0 _ failed
  obtain ⟨answer, sent⟩ := (announced_once again).2.2.2.1 0 _ rfl
    (by decide +kernel) (by decide +kernel)
  have most := (announced_once (.call (.reportAccountRange (.ofNat 5) true) after)).1
  have readable : (resume Ledger.newSync.pivot late.backend {}).isOk := by decide +kernel
  cases restarted : resume Ledger.newSync.pivot late.backend {} with
  | error e => simp [restarted, Except.isOk, Except.toBool] at readable
  | ok t =>
    have kept := (announced_once after).2.2.2.2 sent t
      (.restart (.call (.reportAccountRange (.ofNat 5) true) .refl) rfl restarted)
    exact ⟨failed, by rw [silent]; rfl, done, answer, sent, most, t, rfl, kept⟩

/--
A call that answers that the phase is over leaves it announced, with the marker at the end, exactly
if it had a pivot or the end was announced before. Without a pivot it moves no progress at all.
-/
theorem completion_announced_iff (h : t.Reachable) {now : UInt64}
    (ended : (t.nextRequest now).1 = .ok (none, true)) :
    ((t.nextRequest now).2.marker = some Hash.greatest.toBytes ∧
        (t.nextRequest now).2.finish.sent.size = 1 ↔
      t.readPivot.1.isSome = true ∨ t.finish.sent.size = 1) ∧
    (t.readPivot.1 = none → t.SameProgress (t.nextRequest now).2) := by
  have after := announced_reachable (h.call (.nextRequest now))
  rw [Call.run] at after
  have kept : t.readPivot.1 = none → t.SameProgress (t.nextRequest now).2 := by
    intro read
    rw [nextRequest_of_no_pivot read]
    exact (t.asked_agrees now).toSameProgress
  refine ⟨?_, kept⟩
  cases read : t.readPivot.1 with
  | some pivot =>
    have announced := announced_of_finished read ended
    have sent := after.sent
    rw [announced] at sent
    simpa using ⟨(after.atEnd announced).marker, sent⟩
  | none =>
    -- The call went past the end of the phase: what is announced was so before.
    have same := kept read
    have before := announced_reachable h
    rw [same.marker, same.finish]
    constructor
    · exact fun told => .inr told.2
    · rintro (some | once)
      · cases some
      · exact ⟨(before.atEnd (before.of_sent once)).marker, once⟩

/-- A sync that was over before, resumed while no header of the chain is known. -/
def resumedBlind : Tracker Pivot where
  pivot := {}
  backend := { snapState := ({} : Rows).insertMany [(markerKey, Hash.greatest.toBytes)] }
  next := .greatest
  moreAccounts := false
  log := [.rangesFinishedBefore]

/-- It answers that the phase is over, and announces nothing. -/
theorem completion_announced_iff_resumedBlind :
    resume {} resumedBlind.backend {} = .ok resumedBlind ∧
      (resumedBlind.nextRequest 0).1 = .ok (none, true) ∧
      (resumedBlind.nextRequest 0).2.marker = some Hash.greatest.toBytes ∧
      (resumedBlind.nextRequest 0).2.finish.sent.size ≠ 1 := by
  have resumed : resume {} resumedBlind.backend {} = .ok resumedBlind := rfl
  have ended : (resumedBlind.nextRequest 0).1 = .ok (none, true) := by decide +kernel
  obtain ⟨told, kept⟩ := completion_announced_iff (.resume resumed) ended
  have marker : (resumedBlind.nextRequest 0).2.marker = some Hash.greatest.toBytes :=
    (kept rfl).marker.trans (by decide +kernel)
  refine ⟨resumed, ended, marker, fun sent => ?_⟩
  rcases told.mp ⟨marker, sent⟩ with some | once
  · cases some
  · cases once

end StateSync.Sync.Tracker
