import StateSync.Proofs.Tracker.Ledger
import StateSync.Proofs.Tracker.Session

/-!
Reports commute. Each is one whole step, and those of several workers come one after the other, in
any order; as long as the marker can be written, the order shows in nothing but that of the queues
and in the log. The count of a range that comes back may be any number; a counter of 32 bits agrees
with it below 2 ^ 32 - 1. The range then waits with a count within its retries.
-/

namespace StateSync.Sync

open Store

/-- Where a tracker stands, whatever the order of its queues: all that reports may change. -/
@[ext]
structure Standing (π : Type) where
  next : Hash
  moreAccounts : Bool
  inFlight : InFlight
  rangeFailures : UInt64
  pivot : π
  marker : Option Bytes
  ranges : Multiset StorageRange
  accounts : Multiset AccountLeaf
  codes : Multiset Hash
  refreshes : Multiset RefreshItem

/-- What a report tells a tracker: which request ended, what it got to and what it leaves over. -/
structure Tidings where
  kind : RequestKind
  /-- The first account not received; the zero hash of a report that says nothing of accounts. -/
  path : Hash := .zero
  more : Bool := true
  /-- A storage range came back once too often. -/
  exhausted : Bool := false
  ranges : List StorageRange := []
  accounts : List AccountLeaf := []
  codes : List Hash := []
  refreshes : List RefreshItem := []

/-- A storage range as it waits again after it came back. -/
def StorageRange.retried (range : StorageRange) : StorageRange :=
  { range with
    attempts := if maxRangeRetries < range.attempts + 1 then 0 else range.attempts + 1 }

/-- What a call tells as a report. -/
def Call.tidings? {π : Type} : Call π → Option Tidings
  | reportAccountRange path more => some { kind := .account, path, more }
  | reportStorageRange none => some { kind := .storage }
  | reportStorageRange (some range) =>
    some { kind := .storage, exhausted := maxRangeRetries < range.attempts + 1,
           ranges := [range.retried] }
  | reportStorage accounts => some { kind := .storage, accounts }
  | reportCodes codes => some { kind := .code, codes }
  | reportRefresh refreshes => some { kind := .refresh, refreshes }
  | _ => none

/-- Whatever answers a request tells something. -/
theorem Call.exists_tidings {π : Type} {c : Call π} (h : c.answers? ≠ none) :
    ∃ news, c.tidings? = some news := by
  cases c with
  | reportStorageRange leftover => cases leftover <;> exact ⟨_, rfl⟩
  | reportAccountRange | reportStorage | reportCodes | reportRefresh => exact ⟨_, rfl⟩
  | _ => exact absurd rfl h

theorem InFlight.remove_right_comm (f : InFlight) (a b : RequestKind) :
    (f.remove a).remove b = (f.remove b).remove a := by
  cases a <;> cases b <;> rfl

namespace Standing

/-- The marker after an account report: a path that is ahead of the next account is written. -/
def markerAfter (next : Hash) (marker : Option Bytes) (path : Hash) : Option Bytes :=
  if next < path then some path.toBytes else marker

@[simp] theorem markerAfter_zero (next : Hash) (marker : Option Bytes) :
    markerAfter next marker .zero = marker :=
  if_neg (not_lt.mpr (Hash.zero_le next))

theorem markerAfter_right_comm_of_lt {a b : Hash} (less : a < b) (next : Hash)
    (marker : Option Bytes) :
    markerAfter (max next a) (markerAfter next marker a) b =
      markerAfter (max next b) (markerAfter next marker b) a := by
  have behind : ¬max next b < a := fun ahead => (less.trans (max_lt_iff.mp ahead).2).false
  simp only [markerAfter]
  rw [if_neg behind]
  by_cases ahead : next < b
  · rw [if_pos (max_lt ahead less), if_pos ahead]
  · rw [if_neg fun h => ahead (max_lt_iff.mp h).1, if_neg ahead,
      if_neg fun h => ahead (h.trans less)]

/-- After two reports the marker is that of the further one, if that is ahead. -/
theorem markerAfter_right_comm (next a b : Hash) (marker : Option Bytes) :
    markerAfter (max next a) (markerAfter next marker a) b =
      markerAfter (max next b) (markerAfter next marker b) a := by
  rcases lt_trichotomy a b with less | rfl | less
  · exact markerAfter_right_comm_of_lt less next marker
  · rfl
  · exact (markerAfter_right_comm_of_lt less next marker).symm

variable {π : Type} [PivotSource π]

/-- Where a tracker stands after a report. -/
def hear (s : Standing π) (news : Tidings) : Standing π where
  next := max s.next news.path
  moreAccounts := s.moreAccounts && news.more
  inFlight := s.inFlight.remove news.kind
  rangeFailures := if news.exhausted then s.rangeFailures + 1 else s.rangeFailures
  pivot := if news.exhausted then (PivotSource.advance s.pivot).1 else s.pivot
  marker := markerAfter s.next s.marker news.path
  ranges := s.ranges + news.ranges
  accounts := s.accounts + news.accounts
  codes := s.codes + news.codes
  refreshes := s.refreshes + news.refreshes

theorem hear_right_comm (s : Standing π) (a b : Tidings) :
    (s.hear a).hear b = (s.hear b).hear a := by
  ext1
  · exact max_right_comm _ _ _
  · exact Bool.and_right_comm _ _ _
  · exact s.inFlight.remove_right_comm _ _
  · simp only [hear]
    split <;> split <;> rfl
  · simp only [hear]
    split <;> split <;> rfl
  · exact markerAfter_right_comm _ _ _ _
  all_goals exact add_right_comm _ _ _

end Standing

namespace Tracker

variable {π : Type} {t : Tracker π}

def standing (t : Tracker π) : Standing π where
  next := t.next
  moreAccounts := t.moreAccounts
  inFlight := t.inFlight
  rangeFailures := t.metrics.rangeFailures
  pivot := t.pivot
  marker := t.marker
  ranges := t.ranges
  accounts := t.accounts
  codes := t.codes
  refreshes := t.refreshes

theorem standing_release (t : Tracker π) (kind : RequestKind) :
    (t.release kind).standing =
      { t.standing with inFlight := t.standing.inFlight.remove kind } := by
  unfold release
  split
  · next none =>
    have kept : t.standing.inFlight.remove kind = t.inFlight := InFlight.remove_of_none none
    rw [kept]
    rfl
  · rfl

theorem standing_heard (t : Tracker π) (next : Hash) (more : Bool) :
    (t.heard next more).standing = { t.standing with
      next, moreAccounts := t.moreAccounts && more, inFlight := t.inFlight.remove .account } :=
  standing_release _ _

section Runs

variable [PivotSource π] {c : Call π} {calls calls' : List (Call π)} {news : Tidings}

theorem standing_reportAccountRange {path : Hash} {more : Bool}
    (written : (t.reportAccountRange path more).1 = .ok ()) :
    (t.reportAccountRange path more).2.standing =
      t.standing.hear { kind := .account, path, more } := by
  have h := t.reportAccountRange_reported path more
  rw [written] at h
  generalize (t.reportAccountRange path more).2 = u at h ⊢
  cases h with
  | behind late =>
    have behind : ¬t.next < path := mt compare_lt_iff_lt.mpr late
    have furthest : max t.next path = t.next := max_eq_left (not_lt.mp behind)
    rw [standing_heard]
    ext1 <;> simp [Standing.hear, Standing.markerAfter, standing, behind, furthest]
  | @written backend ahead put =>
    have ahead := compare_lt_iff_lt.mp ahead
    have furthest : max t.next path = path := max_eq_right ahead.le
    have saved : backend.snapState[markerKey]? = some path.toBytes := Backend.rows_of_put put
    calc Tracker.standing { t.heard path more with backend }
        = { (t.heard path more).standing with marker := backend.snapState[markerKey]? } := rfl
      _ = t.standing.hear { kind := .account, path, more } := by
        rw [standing_heard, saved]
        ext1 <;> simp [Standing.hear, Standing.markerAfter, standing, ahead, furthest]

/-- What a storage range that came back changes: the queue, and the pivot if it failed too often. -/
theorem standing_requeue (t : Tracker π) (range : StorageRange) :
    (t.requeue range).standing = { t.standing with
      rangeFailures := if maxRangeRetries < range.attempts + 1
        then t.metrics.rangeFailures + 1 else t.metrics.rangeFailures
      pivot := if maxRangeRetries < range.attempts + 1
        then (PivotSource.advance t.pivot).1 else t.pivot
      ranges := t.standing.ranges + {range.retried} } := by
  by_cases often : maxRangeRetries < range.attempts + 1
  · simp only [requeue, StorageRange.retried, if_pos often]
    rfl
  · simp only [requeue, StorageRange.retried, if_neg often]
    rfl

/-- The standing after a report whose marker, if it has one to write, is written. -/
theorem standing_run (tells : c.tidings? = some news) (written : c.unwritten t = []) :
    (c.run t).standing = t.standing.hear news := by
  have first : Hash.zero ≤ t.next := Hash.zero_le _
  cases c with
  | reportAccountRange path more =>
    obtain rfl := Option.some.inj tells
    refine standing_reportAccountRange ?_
    simp only [Call.unwritten] at written
    split at written
    · assumption
    · cases written
  | reportStorageRange leftover =>
    refine (standing_release _ .storage).trans ?_
    cases leftover with
    | none =>
      obtain rfl := Option.some.inj tells
      ext1 <;> simp [Standing.hear, standing, first]
    | some range =>
      obtain rfl := Option.some.inj tells
      rw [standing_requeue]
      ext1 <;> simp [Standing.hear, standing, first]
  | reportStorage accounts =>
    obtain rfl := Option.some.inj tells
    refine (standing_release _ .storage).trans ?_
    ext1 <;> simp [Standing.hear, standing, enqueueAccounts, marker, first]
  | reportCodes codes =>
    obtain rfl := Option.some.inj tells
    refine (standing_release _ .code).trans ?_
    ext1 <;> simp [Standing.hear, standing, enqueueCodes, marker, first]
  | reportRefresh refreshes =>
    obtain rfl := Option.some.inj tells
    refine (standing_release _ .refresh).trans ?_
    ext1 <;> simp [Standing.hear, standing, enqueueRefreshes, marker, first]
  | _ => cases tells

/-- A report does not fail to write the marker if writes succeed, or if it has nothing to write. -/
theorem unwritten_eq_nil_iff (tells : c.tidings? = some news) : c.unwritten t = [] ↔
    t.backend.writeFault = none ∨ news.path ≤ t.next := by
  have first : Hash.zero ≤ t.next := Hash.zero_le _
  cases c with
  | reportAccountRange path more =>
    obtain rfl := Option.some.inj tells
    have h := t.reportAccountRange_reported path more
    simp only [Call.unwritten]
    generalize (t.reportAccountRange path more).1 = answer at h
    generalize (t.reportAccountRange path more).2 = u at h
    rcases t.backend.put_cases .snapState markerKey path.toBytes with
      ⟨writable, _, put⟩ | ⟨fault, out, refused⟩
    · cases h with
      | behind | written => simp [writable]
      | refused _ refused => cases put.symm.trans refused
    · cases h with
      | behind late =>
        have behind := not_lt.mp (mt compare_lt_iff_lt.mpr late)
        simp [behind]
      | written _ put => cases refused.symm.trans put
      | refused ahead =>
        have ahead := compare_lt_iff_lt.mp ahead
        simp [out, ahead]
  | reportStorageRange leftover =>
    cases leftover <;> obtain rfl := Option.some.inj tells <;> simp [Call.unwritten, first]
  | reportStorage | reportCodes | reportRefresh =>
    obtain rfl := Option.some.inj tells
    simp [Call.unwritten, first]
  | _ => cases tells

theorem writeFault_run (tells : c.tidings? = some news) (t : Tracker π) :
    (c.run t).backend.writeFault = t.backend.writeFault := by
  cases c with
  | reportAccountRange path more =>
    have h := t.reportAccountRange_reported path more
    simp only [Call.run]
    generalize (t.reportAccountRange path more).1 = answer at h
    generalize (t.reportAccountRange path more).2 = u at h ⊢
    cases h with
    | behind | refused => rw [heard_backend]
    | written _ put => exact Backend.writeFault_put put
  | reportStorageRange | reportStorage | reportCodes | reportRefresh =>
    rw [(Call.run_sameProgress rfl t).backend]
  | _ => cases tells

/-- No call of a run fails to write the marker. -/
def AllWritten : Tracker π → List (Call π) → Prop
  | _, [] => True
  | t, c :: calls => c.unwritten t = [] ∧ AllWritten (c.run t) calls

/-- In a run of reports either no write fails, or there is nothing to write. -/
theorem allWritten_iff (reports : ∀ c ∈ calls, c.answers? ≠ none) :
    AllWritten t calls ↔ t.backend.writeFault = none ∨
      ∀ news ∈ calls.filterMap Call.tidings?, news.path ≤ t.next := by
  induction calls generalizing t with
  | nil => simp [AllWritten]
  | cons c calls ih =>
    obtain ⟨report, rest⟩ := List.forall_mem_cons.mp reports
    obtain ⟨news, tells⟩ := Call.exists_tidings report
    rw [AllWritten, unwritten_eq_nil_iff tells, ih rest, writeFault_run tells,
      List.filterMap_cons_some tells, List.forall_mem_cons, ← or_and_left]
    refine or_congr_right (and_congr_right fun behind => ?_)
    have written := (unwritten_eq_nil_iff tells).mpr (.inr behind)
    have next : (c.run t).next = t.next :=
      (congrArg Standing.next (standing_run tells written)).trans (max_eq_left behind)
    rw [next]

theorem standing_foldl (reports : ∀ c ∈ calls, c.answers? ≠ none)
    (written : AllWritten t calls) :
    (calls.foldl (fun t c => c.run t) t).standing =
      (calls.filterMap Call.tidings?).foldl Standing.hear t.standing := by
  induction calls generalizing t with
  | nil => rfl
  | cons c calls ih =>
    obtain ⟨report, rest⟩ := List.forall_mem_cons.mp reports
    obtain ⟨news, tells⟩ := Call.exists_tidings report
    rw [List.foldl_cons, ih rest written.2, standing_run tells written.1,
      List.filterMap_cons_some tells, List.foldl_cons]

/--
Reports in any other order, of which none fails to write the marker, leave the tracker where it
stands: at the same next account, phase, requests in flight, failures, pivot and marker, with the
same items in each queue.
-/
theorem reports_commute (t : Tracker π) (reports : ∀ c ∈ calls, c.answers? ≠ none)
    (written : AllWritten t calls) (reordered : calls.Perm calls') :
    AllWritten t calls' ∧ (calls'.foldl (fun t c => c.run t) t).standing =
      (calls.foldl (fun t c => c.run t) t).standing := by
  have reports' : ∀ c ∈ calls', c.answers? ≠ none :=
    fun c mem => reports c (reordered.mem_iff.mpr mem)
  have told := reordered.filterMap Call.tidings?
  have written' : AllWritten t calls' := by
    rw [allWritten_iff reports] at written
    rw [allWritten_iff reports']
    exact written.imp_right fun behind news mem => behind news (told.mem_iff.mpr mem)
  refine ⟨written', ?_⟩
  rw [standing_foldl reports' written', standing_foldl reports written]
  exact (told.foldl_eq' (fun a _ b _ s => s.hear_right_comm a b) t.standing).symm

end Runs

/-- A sync with one request of each of three kinds in flight, on a chain that has moved on. -/
def threeOut : Tracker Pivot where
  pivot := { best := some { number := 9 }, header := some { number := 7 } }
  backend := {}
  next := .ofNat 2
  moreAccounts := true
  inFlight := { account := 1, storage := 1, code := 1 }

/-- Late, repeated and final account reports, a range that failed for the last time, and codes. -/
def mixedReports : List (Call Pivot) :=
  [.reportAccountRange (.ofNat 5) true, .reportCodes [.ofNat 1],
    .reportStorageRange (some ⟨.zero, 7, [], .ofNat 3, .greatest, 5⟩),
    .reportAccountRange (.ofNat 4) false, .reportCodes [.ofNat 2],
    .reportAccountRange (.ofNat 5) true]

/-- In either order the furthest account stays and the chain is followed; the codes are swapped. -/
theorem reports_commute_mixedReports :
    let run := fun calls : List (Call Pivot) => calls.foldl (fun t c => c.run t) threeOut
    (run mixedReports.reverse).standing = (run mixedReports).standing ∧
      (run mixedReports).next = .ofNat 5 ∧
      (run mixedReports).marker = some (Hash.ofNat 5).toBytes ∧
      (run mixedReports).pivot.header = some { number := 9 } ∧
      (run mixedReports).codes = [.ofNat 1, .ofNat 2] ∧
      (run mixedReports.reverse).codes = [.ofNat 2, .ofNat 1] := by
  intro run
  have reports : ∀ c ∈ mixedReports, c.answers? ≠ none := by decide +kernel
  have written : AllWritten threeOut mixedReports := (allWritten_iff reports).mpr (.inl rfl)
  obtain ⟨_, same⟩ := reports_commute threeOut reports written (List.reverse_perm _).symm
  refine ⟨same, ?_⟩
  decide +kernel

end Tracker

end StateSync.Sync
