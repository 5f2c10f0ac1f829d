import StateSync.Proofs.Tracker.Finish

/-!
A session: one tracker from its construction on, with the paths that it heard of and the markers
that it could not write. The next account is the furthest of all; the saved one is behind it only by
what was refused. A report that repeats a refused one succeeds without being saved. An event is one
whole step: the marker of a report is written, or refused, before the next event.
-/

namespace StateSync.Sync

open Store

namespace Call

variable {π : Type}

/-- The path of an account report. -/
def reports : Call π → List Hash
  | reportAccountRange path _ => [path]
  | _ => []

variable [PivotSource π]

/-- The marker that a call could not write, for which it answers with a fault. -/
def unwritten (c : Call π) (t : Tracker π) : List Hash :=
  match c with
  | reportAccountRange path more =>
    match (t.reportAccountRange path more).1 with
    | .ok () => []
    | .error _ => [path]
  | nextRequest now =>
    match (t.nextRequest now).1 with
    | .ok _ => []
    | .error _ => [.greatest]
  | _ => []

/-- A request with a pivot, made when all ranges are finished, ends the phase. -/
def ends (c : Call π) (t : Tracker π) : Bool :=
  match c with
  | nextRequest _ => t.readPivot.1.isSome && t.rangesFinished
  | _ => false

end Call

namespace Tracker

variable {π : Type} {t u : Tracker π}

/-- The path that the marker stands for. Without a marker no account was received. -/
def saved (t : Tracker π) : Hash := (t.marker.map Hash.ofBytes).getD .zero

theorem saved_of_marker {path : Hash} (h : t.marker = some path.toBytes) : t.saved = path := by
  simp [saved, h, Hash.ofBytes_toBytes]

theorem saved_congr (h : u.marker = t.marker) : u.saved = t.saved := by
  rw [saved, saved, h]

/-- There is no marker, or it is the written form of a path. -/
def MarkerValid (t : Tracker π) : Prop := t.marker = none ∨ t.marker = some t.saved.toBytes

theorem MarkerValid.congr (ht : t.MarkerValid) (h : u.marker = t.marker) : u.MarkerValid := by
  rwa [MarkerValid, h, saved_congr h]

theorem markerValid_of_marker {path : Hash} (h : t.marker = some path.toBytes) :
    t.MarkerValid := by
  right
  rw [h, saved_of_marker h]

theorem saved_resume {pivot : π} {backend : Backend} {metrics : Metrics}
    (h : resume pivot backend metrics = .ok t) : t.next = t.saved ∧ t.MarkerValid := by
  obtain ⟨next, moreAccounts, log, read, rfl⟩ := resume_eq h
  rcases readMarker_cases read with ⟨row, rfl, -⟩ | ⟨row, -⟩
  · refine ⟨?_, .inl row⟩
    simp [saved, marker, row]
  · have known : marker { pivot, backend, metrics, next, moreAccounts, log } =
        some next.toBytes := row
    exact ⟨(saved_of_marker known).symm, markerValid_of_marker known⟩

theorem readMarker_toBytes (path : Hash) :
    ∃ result, readMarker (some path.toBytes) = .ok result := by
  simp only [readMarker]
  rw [if_neg (not_not.mpr path.length_toBytes)]
  split <;> exact ⟨_, rfl⟩

/-- From a valid marker that can be read a new tracker goes on at the saved path. -/
theorem exists_resume (ht : t.MarkerValid) {backend : Backend}
    (rows : backend.snapState = t.backend.snapState) (readable : backend.readFault = none)
    (pivot : π) (metrics : Metrics) :
    ∃ u, resume pivot backend metrics = .ok u ∧ u.next = t.saved := by
  have same : backend.snapState[markerKey]? = t.marker := congrArg (·[markerKey]?) rows
  have found : backend.get .snapState markerKey = .ok t.marker := by
    simp [Backend.get, readable, Backend.rows, same]
  have read : ∃ result, readMarker t.marker = .ok result := by
    rcases ht with none | some
    · exact ⟨_, by rw [none]; rfl⟩
    · rw [some]
      exact readMarker_toBytes _
  obtain ⟨result, read⟩ := read
  have resumed : ∃ u, resume pivot backend metrics = .ok u := by
    rw [resume, found]
    simp only [read]
    exact ⟨_, rfl⟩
  obtain ⟨u, resumed⟩ := resumed
  refine ⟨u, resumed, (saved_resume resumed).1.trans (saved_congr ?_)⟩
  obtain ⟨_, _, _, _, rfl⟩ := resume_eq resumed
  exact same

theorem phase_eq_done_iff : t.phase = .done ↔ t.moreAccounts = false := by
  cases more : t.moreAccounts <;> simp [phase, more]

variable [PivotSource π]

/-- How a call moves the account progress: not at all, or on to a path that it tries to save. -/
inductive Advance (t : Tracker π) (c : Call π) (u : Tracker π) : Prop
  | still (next : u.next = t.next) (marker : u.marker = t.marker)
      (late : ∀ path ∈ c.reports, path ≤ t.next) (written : c.unwritten t = [])
      (ended : c.ends t = true → t.next = .greatest)
  | moved {path : Hash} (ahead : t.next ≤ path) (next : u.next = path)
      (cause : c.ends t = false ∧ c.reports = [path] ∨
        c.ends t = true ∧ c.reports = [] ∧ path = .greatest)
      (marker : c.unwritten t = [] ∧ u.marker = some path.toBytes ∨
        c.unwritten t = [path] ∧ u.marker = t.marker)

theorem SameProgress.advance {c : Call π} (h : t.SameProgress u) (silent : c.reports = [])
    (written : c.unwritten t = []) (ended : c.ends t = false) : Advance t c u :=
  .still h.next h.marker (by simp [silent]) written (by simp [ended])

/-- While ranges are not finished a request answers without touching the account progress. -/
theorem nextRequest_of_unfinished (busy : t.rangesFinished = false) (now : UInt64) :
    (∃ answer, (t.nextRequest now).1 = .ok answer) ∧ t.SameProgress (t.nextRequest now).2 := by
  have h := t.nextRequest_requested now
  generalize (t.nextRequest now).1 = answer at h
  generalize (t.nextRequest now).2 = u at h ⊢
  cases h with
  | noPivot same => exact ⟨⟨_, rfl⟩, same.toSameProgress⟩
  | handedOut same dispatched logged =>
    exact ⟨⟨_, rfl⟩,
      (same.toSameProgress.trans dispatched.progress).trans logged.toSameProgress⟩
  | idle _ same => exact ⟨⟨_, rfl⟩, same.toSameProgress⟩
  | finished done | failed done => cases busy.symm.trans done

theorem nextRequest_advance (ht : t.Announced) (now : UInt64) :
    Advance t (.nextRequest now) (t.nextRequest now).2 := by
  cases done : t.rangesFinished with
  | false =>
    obtain ⟨⟨answer, answered⟩, same⟩ := nextRequest_of_unfinished done now
    exact same.advance rfl (by simp [Call.unwritten, answered]) (by simp [Call.ends, done])
  | true =>
    cases read : t.readPivot.1 with
    | none =>
      have same : t.SameProgress (t.nextRequest now).2 := by
        rw [nextRequest_of_no_pivot read]
        exact (t.asked_agrees now).toSameProgress
      exact same.advance rfl (by simp [Call.unwritten, nextRequest_of_no_pivot read])
        (by simp [Call.ends, read])
    | some pivot =>
      have ends : (Call.nextRequest now : Call π).ends t = true := by simp [Call.ends, read, done]
      obtain ⟨answer, u, closing, answered, same⟩ := nextRequest_closing read done now
      have before := (t.asked_agrees now).toSameProgress
      have after := same.toSameProgress
      cases closing with
      | again announced =>
        have whole := before.trans after
        refine .still whole.next whole.marker (by simp [Call.reports]) ?_ fun _ => ?_
        · simp [Call.unwritten, answered, Except.map]
        · exact (ht.atEnd (before.announced.symm.trans announced)).next
      | announced _ put =>
        refine .moved (Hash.le_greatest _) after.next (.inr ⟨ends, rfl, rfl⟩) (.inl ⟨?_, ?_⟩)
        · simp [Call.unwritten, answered, Except.map]
        · exact after.marker.trans (Backend.rows_of_put put)
      | refused =>
        refine .moved (Hash.le_greatest _) after.next (.inr ⟨ends, rfl, rfl⟩) (.inr ⟨?_, ?_⟩)
        · simp [Call.unwritten, answered, Except.map]
        · exact after.marker.trans before.marker

theorem reportAccountRange_advance (t : Tracker π) (path : Hash) (more : Bool) :
    Advance t (.reportAccountRange path more) (t.reportAccountRange path more).2 := by
  have h := t.reportAccountRange_reported path more
  have unwritten : (Call.reportAccountRange path more).unwritten t =
      match (t.reportAccountRange path more).1 with
      | .ok () => []
      | .error _ => [path] := rfl
  generalize (t.reportAccountRange path more).1 = answer at h unwritten
  generalize (t.reportAccountRange path more).2 = u at h ⊢
  cases h with
  | behind late =>
    refine .still (t.heard_next _ _) (by simp [marker]) ?_ unwritten (by simp [Call.ends])
    simpa [Call.reports] using not_lt.mp (mt compare_lt_iff_lt.mpr late)
  | written ahead put =>
    exact .moved (compare_lt_iff_lt.mp ahead).le (t.heard_next _ _) (.inl ⟨rfl, rfl⟩)
      (.inl ⟨unwritten, Backend.rows_of_put put⟩)
  | refused ahead =>
    exact .moved (compare_lt_iff_lt.mp ahead).le (t.heard_next _ _) (.inl ⟨rfl, rfl⟩)
      (.inr ⟨unwritten, by simp [marker]⟩)

theorem run_advance (ht : t.Announced) (c : Call π) : Advance t c (c.run t) := by
  cases c with
  | nextRequest now => exact nextRequest_advance ht now
  | reportAccountRange path more => exact t.reportAccountRange_advance path more
  | setFaults => exact .still rfl rfl (by simp [Call.reports]) rfl (by simp [Call.ends])
  | _ => exact (Call.run_sameProgress rfl t).advance rfl rfl rfl

/-- A request hands out account ranges from the next account on. -/
theorem start_of_accountRange {now : UInt64} {range : AccountRange} {last : Bool}
    (handed : (t.nextRequest now).1 = .ok (some (.accountRange range), last)) :
    range.start = t.next := by
  have h := t.nextRequest_requested now
  rw [handed] at h
  generalize (t.nextRequest now).2 = u at h
  cases h with
  | handedOut same dispatched =>
    cases dispatched with
    | accountRange => exact same.next

theorem done_run (h : t.phase = .done) (c : Call π) : (c.run t).phase = .done := by
  rw [phase_eq_done_iff] at h ⊢
  have ending := t.run_ending c
  generalize c.run t = u at ending ⊢
  cases ending with
  | silent _ _ done => exact done h
  | announced _ _ _ atEnd after => exact after.moreAccounts.trans atEnd.done

end Tracker

/-- A tracker since its construction, with what it heard and what it could not write. -/
structure Session (π : Type) where
  tracker : Tracker π
  /-- The saved path that the tracker resumed from, and the paths of all account reports. -/
  heard : List Hash
  /-- The markers that could not be written. -/
  refused : List Hash := []
  /-- A request ended the phase. -/
  ended : Bool := false

namespace Session

variable {π : Type}

/-- The session that begins with a tracker. -/
def ofTracker (t : Tracker π) : Session π := { tracker := t, heard := [t.saved] }

variable [PivotSource π] {s : Session π} {c : Call π} {t : Tracker π}

/-- The session after a call. -/
def call (s : Session π) (c : Call π) : Session π where
  tracker := c.run s.tracker
  heard := c.reports ++ s.heard
  refused := c.unwritten s.tracker ++ s.refused
  ended := s.ended || c.ends s.tracker

/-- What a session on some backend comes to by calls. -/
inductive Reachable : Session π → Prop
  | resume {pivot : π} {backend : Backend} {metrics : Metrics} {t : Tracker π}
      (resumed : Tracker.resume pivot backend metrics = .ok t) : Reachable (ofTracker t)
  | call {s : Session π} (c : Call π) : Reachable s → Reachable (s.call c)

theorem tracker_reachable (h : s.Reachable) : s.tracker.Reachable := by
  induction h with
  | resume resumed => exact .resume resumed
  | call c _ ih => exact .call c ih

/-- The next account is the furthest one heard of, and the furthest one written or refused. -/
structure Sound (s : Session π) : Prop where
  valid : s.tracker.MarkerValid
  ended : s.ended = true → s.tracker.next = .greatest
  heard : s.ended = false → IsGreatest {path | path ∈ s.heard} s.tracker.next
  lag : IsGreatest (insert s.tracker.saved {path | path ∈ s.refused}) s.tracker.next

omit [PivotSource π] in
theorem sound_ofTracker {pivot : π} {backend : Backend} {metrics : Metrics}
    (h : Tracker.resume pivot backend metrics = .ok t) : (ofTracker t).Sound := by
  obtain ⟨next, valid⟩ := Tracker.saved_resume h
  refine ⟨valid, fun h => ?_, fun _ => ?_, ?_⟩
  · cases h
  · simp [ofTracker, next]
  · simp [ofTracker, next]

/-- What is at or ahead of the furthest path, and new beside it at most, is the furthest one. -/
theorem isGreatest_of_ahead {old new : Set Hash} {next path : Hash} (h : IsGreatest old next)
    (ahead : next ≤ path) (mem : path ∈ new) (sub : new ⊆ insert path old) :
    IsGreatest new path := by
  refine ⟨mem, fun other hother => ?_⟩
  rcases sub hother with rfl | before
  · exact le_rfl
  · exact (h.2 before).trans ahead

section Call

variable (hs : s.Sound) (advance : s.tracker.Advance c (c.run s.tracker))
include hs advance

theorem valid_call : (s.call c).tracker.MarkerValid := by
  cases advance with
  | still _ marker => exact hs.valid.congr marker
  | moved _ _ _ marker =>
    rcases marker with ⟨-, saved⟩ | ⟨-, kept⟩
    · exact Tracker.markerValid_of_marker saved
    · exact hs.valid.congr kept

theorem ended_call (h : (s.call c).ended = true) : (s.call c).tracker.next = .greatest := by
  have before := Bool.or_eq_true_iff.mp h
  cases advance with
  | still next _ _ _ ended => exact next.trans (before.elim hs.ended ended)
  | moved ahead next cause =>
    refine next.trans ?_
    rcases cause with ⟨going, -⟩ | ⟨-, -, last⟩
    · rw [going, or_iff_left Bool.false_ne_true] at before
      rw [hs.ended before] at ahead
      exact le_antisymm (Hash.le_greatest _) ahead
    · exact last

theorem heard_call (h : (s.call c).ended = false) :
    IsGreatest {path | path ∈ (s.call c).heard} (s.call c).tracker.next := by
  obtain ⟨before, going⟩ := Bool.or_eq_false_iff.mp h
  have heard := hs.heard before
  dsimp only [call]
  cases advance with
  | still next _ late =>
    rw [next]
    refine ⟨List.mem_append_right _ heard.1, fun path h => ?_⟩
    exact (List.mem_append.mp h).elim (late path) fun old => heard.2 old
  | moved ahead next cause =>
    rcases cause with ⟨-, report⟩ | ⟨closed, -⟩
    · rw [next, report]
      refine isGreatest_of_ahead heard ahead List.mem_cons_self fun other h => ?_
      exact List.mem_cons.mp h
    · cases going.symm.trans closed

theorem lag_call : IsGreatest (insert (s.call c).tracker.saved
    {path | path ∈ (s.call c).refused}) (s.call c).tracker.next := by
  dsimp only [call]
  cases advance with
  | still next marker _ written =>
    rw [next, Tracker.saved_congr marker, written]
    exact hs.lag
  | moved ahead next _ marker =>
    rw [next]
    rcases marker with ⟨written, saved⟩ | ⟨unwritten, kept⟩
    · rw [written, Tracker.saved_of_marker saved]
      refine isGreatest_of_ahead hs.lag ahead (.inl rfl) fun other h => ?_
      exact h.imp_right .inr
    · rw [unwritten, Tracker.saved_congr kept]
      refine isGreatest_of_ahead hs.lag ahead (.inr List.mem_cons_self) fun other h => ?_
      rcases h with rfl | h
      · exact .inr (.inl rfl)
      · exact (List.mem_cons.mp h).imp_right .inr

theorem sound_call : (s.call c).Sound :=
  ⟨valid_call hs advance, ended_call hs advance, heard_call hs advance, lag_call hs advance⟩

end Call

theorem sound_reachable (h : s.Reachable) : s.Sound := by
  induction h with
  | resume resumed => exact sound_ofTracker resumed
  | call c h ih =>
    have announced := Tracker.announced_reachable (tracker_reachable h)
    exact sound_call ih (Tracker.run_advance announced c)

theorem next_le_call (h : s.Reachable) (c : Call π) : s.tracker.next ≤ (s.call c).tracker.next := by
  have announced := Tracker.announced_reachable (tracker_reachable h)
  cases Tracker.run_advance announced c with
  | still next => exact next.ge
  | moved ahead next => exact ahead.trans next.ge

/-- A marker is only replaced by one ahead of all before. -/
theorem saved_le_call (h : s.Reachable) (c : Call π) :
    s.tracker.saved ≤ (s.call c).tracker.saved := by
  have lag := (sound_reachable h).lag
  have announced := Tracker.announced_reachable (tracker_reachable h)
  cases Tracker.run_advance announced c with
  | still _ marker => exact (Tracker.saved_congr marker).ge
  | moved ahead next _ marker =>
    rcases marker with ⟨-, saved⟩ | ⟨-, kept⟩
    · exact ((lag.2 (.inl rfl)).trans ahead).trans (Tracker.saved_of_marker saved).ge
    · exact (Tracker.saved_congr kept).ge

/-- What follows on a session, restarts included, is a session that saved as much. -/
theorem saved_le_leadsTo (h : s.Reachable) {u : Tracker π} (later : s.tracker.LeadsTo u) :
    ∃ s' : Session π, s'.Reachable ∧ s'.tracker = u ∧ s.tracker.saved ≤ u.saved := by
  induction later with
  | refl => exact ⟨s, h, rfl, le_rfl⟩
  | call c _ ih =>
    obtain ⟨s', reached, rfl, le⟩ := ih
    exact ⟨s'.call c, .call c reached, rfl, le.trans (saved_le_call reached c)⟩
  | @restart u v _ _ _ _ rows resumed ih =>
    obtain ⟨s', -, rfl, le⟩ := ih
    refine ⟨ofTracker v, .resume resumed, rfl, ?_⟩
    have same : v.marker = s'.tracker.marker := by
      obtain ⟨_, _, _, _, rfl⟩ := Tracker.resume_eq resumed
      exact congrArg (·[markerKey]?) rows
    rwa [Tracker.saved_congr same]

theorem next_le_foldl (h : s.Reachable) (calls : List (Call π)) :
    s.tracker.next ≤ (calls.foldl call s).tracker.next := by
  induction calls generalizing s with
  | nil => exact le_rfl
  | cons c calls ih => exact (next_le_call h c).trans (ih (.call c h))

theorem done_foldl (done : s.tracker.phase = .done) (calls : List (Call π)) :
    (calls.foldl call s).tracker.phase = .done := by
  induction calls generalizing s with
  | nil => exact done
  | cons c calls ih => exact ih (Tracker.done_run done c)

/--
The account progress of a session only goes forward. Until a request ends the phase the next
account is the furthest one loaded or reported; the saved one is never ahead of it, never goes back
in all that follows, and is the same if nothing was refused. A restart goes on at the saved one.
-/
theorem progress_resumes (h : s.Reachable) :
    (∀ calls : List (Call π), s.tracker.next ≤ (calls.foldl call s).tracker.next ∧
      (s.tracker.phase = .done → (calls.foldl call s).tracker.phase = .done)) ∧
    (s.ended = false → IsGreatest {path | path ∈ s.heard} s.tracker.next) ∧
    (s.ended = true → s.tracker.next = .greatest) ∧
    (∀ now range last, (s.tracker.nextRequest now).1 = .ok (some (.accountRange range), last) →
      range.start = s.tracker.next) ∧
    (∀ u, s.tracker.LeadsTo u → s.tracker.saved ≤ u.saved) ∧
    s.tracker.saved ≤ s.tracker.next ∧
    (s.refused = [] → s.tracker.saved = s.tracker.next) ∧
    ∀ (pivot : π) backend metrics, backend.snapState = s.tracker.backend.snapState →
      backend.readFault = none →
      ∃ t, Tracker.resume pivot backend metrics = .ok t ∧ t.next = s.tracker.saved := by
  have hs := sound_reachable h
  refine ⟨fun calls => ⟨next_le_foldl h calls, fun done => done_foldl done calls⟩, hs.heard,
    hs.ended, fun now range last handed => Tracker.start_of_accountRange handed, fun u later => ?_,
    hs.lag.2 (.inl rfl), fun none => ?_, fun pivot backend metrics rows readable => ?_⟩
  · obtain ⟨_, _, _, le⟩ := saved_le_leadsTo h later
    exact le
  · rcases hs.lag.1 with same | lost
    · exact same.symm
    · rw [none] at lost
      cases lost
  · exact Tracker.exists_resume hs.valid rows readable pivot metrics

/-- A sync that saved one report and could not write the next. -/
def refusedOnce : Session FixedPivot :=
  let s := (ofTracker Ledger.newSync).call (.reportAccountRange (.ofNat 2) true)
  let s := s.call (.setFaults none (some .lock))
  (s.call (.reportAccountRange (.ofNat 5) true)).call (.setFaults none none)

theorem refusedOnce_reachable : refusedOnce.Reachable :=
  .call _ (.call _ (.call _ (.call _ (.resume Ledger.resume_newSync))))

/-- A late report moves it nowhere, and a restart goes back to what was saved. -/
theorem progress_resumes_refusedOnce :
    let s := refusedOnce.call (.reportAccountRange (.ofNat 3) true)
    s.ended = false ∧ s.heard = [.ofNat 3, .ofNat 5, .ofNat 2, .zero] ∧
      s.tracker.next = .ofNat 5 ∧ IsGreatest {path | path ∈ s.heard} s.tracker.next ∧
      s.tracker.saved ≤ s.tracker.next ∧
      ∃ t, Tracker.resume Ledger.newSync.pivot s.tracker.backend {} = .ok t ∧
        t.next = .ofNat 2 := by
  intro s
  obtain ⟨-, furthest, -, -, -, behind, -, resumes⟩ :=
    progress_resumes (.call (.reportAccountRange (.ofNat 3) true) refusedOnce_reachable)
  obtain ⟨t, resumed, next⟩ := resumes Ledger.newSync.pivot s.tracker.backend {} rfl
    (by decide +kernel)
  have saved : s.tracker.saved = .ofNat 2 := by decide +kernel
  have going : s.ended = false := by decide +kernel
  exact ⟨going, by decide +kernel, by decide +kernel, furthest going, behind, t, resumed,
    next.trans saved⟩

/-- A report that succeeds is saved exactly if it was before or is ahead of all that was refused. -/
theorem report_saved_iff (h : s.Reachable) {path : Hash} {more : Bool}
    (reported : (s.tracker.reportAccountRange path more).1 = .ok ()) :
    path ≤ (s.tracker.reportAccountRange path more).2.saved ↔
      path ≤ s.tracker.saved ∨ ∀ lost ∈ s.refused, lost < path := by
  have lag := (sound_reachable h).lag
  have h := s.tracker.reportAccountRange_reported path more
  rw [reported] at h
  generalize (s.tracker.reportAccountRange path more).2 = u at h ⊢
  cases h with
  | behind late =>
    have kept : (s.tracker.heard s.tracker.next more).saved = s.tracker.saved :=
      Tracker.saved_congr (by simp [Tracker.marker])
    have le : path ≤ s.tracker.next := not_lt.mp (mt compare_lt_iff_lt.mpr late)
    rw [kept, iff_self_or]
    intro beyond
    rcases lag.1 with saved | lost
    · exact le.trans saved.le
    · exact absurd (beyond _ lost) le.not_gt
  | written ahead put =>
    have saved := Tracker.saved_of_marker (t := { s.tracker.heard path more with backend := _ })
      (Backend.rows_of_put put)
    have lt := compare_lt_iff_lt.mp ahead
    refine iff_of_true saved.ge (.inr fun lost mem => ?_)
    exact (lag.2 (.inr mem)).trans_lt lt

/-- The report that could not be written succeeds when it is repeated, and is not saved. -/
theorem report_saved_iff_refusedOnce :
    (refusedOnce.tracker.reportAccountRange (.ofNat 5) true).1 = .ok () ∧
      ¬.ofNat 5 ≤ (refusedOnce.tracker.reportAccountRange (.ofNat 5) true).2.saved := by
  have reported : (refusedOnce.tracker.reportAccountRange (.ofNat 5) true).1 = .ok () := by
    decide +kernel
  refine ⟨reported, fun durable => ?_⟩
  rcases (report_saved_iff refusedOnce_reachable reported).mp durable with saved | beyond
  · exact absurd saved (by decide +kernel)
  · exact absurd (beyond (.ofNat 5) (by decide +kernel)) (lt_irrefl _)

end Session

end StateSync.Sync
