import StateSync.Sync.Tracker

/-! Reports to the tracker: a request has ended, and what it left over waits again. -/

namespace StateSync.Sync

/-- How often a storage range may come back unfinished before the pivot has to move. -/
def maxRangeRetries : Nat := 5

namespace Tracker

variable {π : Type}

/-- A request of a kind has ended; a report on one that was never in flight is an error. -/
def release (t : Tracker π) (kind : RequestKind) : Tracker π :=
  if t.inFlight.count kind = 0 then t.logged [.unmatchedReport kind]
  else { t with inFlight := t.inFlight.remove kind }

/-- An account range ended at a path; the marker moves forward only, and is written if it moves. -/
def reportAccountRange (t : Tracker π) (path : Hash) (more : Bool) :
    Except SnapError Unit × Tracker π :=
  let advanced := compare t.next path == .lt
  let t := { t with
    next := if advanced then path else t.next
    moreAccounts := t.moreAccounts && more }.release .account
  if advanced then t.saveMarker path else (.ok (), t)

/-- Takes back an unfinished storage range. Out of retries, the pivot has to move. -/
def requeue [PivotSource π] (t : Tracker π) (range : StorageRange) : Tracker π :=
  let attempts := range.attempts + 1
  if maxRangeRetries < attempts then
    let t := t.logged [.rangeKeepsFailing range.start range.accounts.length attempts]
    let t := { t with metrics := t.metrics.recordRangeFailure }.advancePivot
    { t with ranges := t.ranges ++ [{ range with attempts := 0 }] }
  else { t with ranges := t.ranges ++ [{ range with attempts }] }

/-- A storage range ended, finished or with a part left over. -/
def reportStorageRange [PivotSource π] (t : Tracker π) (leftover : Option StorageRange) :
    Tracker π :=
  (match leftover with
    | some range => t.requeue range
    | none => t).release .storage

/-- A batch of storage ended; the accounts that were not served wait again. -/
def reportStorage (t : Tracker π) (leftover : List AccountLeaf) : Tracker π :=
  (t.enqueueAccounts leftover).release .storage

/-- A batch of codes ended; the hashes that were not served wait again. -/
def reportCodes (t : Tracker π) (leftover : List Hash) : Tracker π :=
  (t.enqueueCodes leftover).release .code

/-- A refresh ended; the accounts that were not served wait again. -/
def reportRefresh (t : Tracker π) (leftover : List RefreshItem) : Tracker π :=
  (t.enqueueRefreshes leftover).release .refresh

end Tracker

end StateSync.Sync
