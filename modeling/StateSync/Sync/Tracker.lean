import StateSync.Channel
import StateSync.Store.Backend
import StateSync.Sync.Error
import StateSync.Sync.Pivot

/-!
The progress tracker of the first sync phase. It holds the queues of outstanding work, the
requests in flight and the progress marker; `nextRequest` hands out work and the reports take in
what came of it.
-/

namespace StateSync.Sync

open Store

/-- Events about the end of the phase kept for a slow receiver. -/
def finishCapacity : Nat := 4

/-- The row that holds the progress marker. -/
def markerKey : Bytes := "AccountProgressKey".toList.map fun c => UInt8.ofNat c.toNat

/-- Announces the end of the phase. -/
structure RangesFinished where
  finished : Bool
  bytesSynced : UInt64
deriving DecidableEq

structure Tracker (π : Type) where
  pivot : π
  backend : Backend
  metrics : Metrics := {}
  /-- The first account not yet received. -/
  next : Hash
  /-- Accounts remain at or after `next`. -/
  moreAccounts : Bool
  inFlight : InFlight := {}
  /-- Storage ranges that came back unfinished. -/
  ranges : List StorageRange := []
  /-- Accounts whose storage was not requested yet. -/
  accounts : List AccountLeaf := []
  codes : List Hash := []
  refreshes : List RefreshItem := []
  /-- The time the sync started. -/
  started : Option UInt64 := none
  announced : Bool := false
  finish : Channel RangesFinished := { capacity := finishCapacity }
  /-- Everything logged so far. -/
  log : List LogEvent := []

namespace Tracker

variable {π : Type}

def logged (t : Tracker π) (events : List LogEvent) : Tracker π :=
  { t with log := t.log ++ events }

/-- What a progress marker says: the next account, and whether accounts remain. -/
def readMarker : Option Bytes → Except SnapError (Hash × Bool × List LogEvent)
  | none => .ok (.zero, true, [])
  | some marker =>
    if marker.length ≠ 32 then .error (.corruptMarker (UInt64.ofNat marker.length))
    else if Hash.ofBytes marker = .greatest then .ok (.greatest, false, [.rangesFinishedBefore])
    else .ok (.ofBytes marker, true, [.progressLoaded (.ofBytes marker)])

/-- A tracker that goes on from the progress marker in a backend. -/
def resume (pivot : π) (backend : Backend) (metrics : Metrics) :
    Except SnapError (Tracker π) :=
  match backend.get .snapState markerKey with
  | .error fault => .error (.store (.storage fault))
  | .ok marker => (readMarker marker).map fun (next, moreAccounts, log) =>
      { pivot, backend, metrics, next, moreAccounts, log }

def phase (t : Tracker π) : Phase := if t.moreAccounts then .inProgress else .done

def queueLengths (t : Tracker π) : QueueLengths where
  storageRanges := t.ranges.length
  storageAccounts := t.accounts.length
  codes := t.codes.length
  refreshes := t.refreshes.length

/-- No accounts remain, every queue is empty and nothing is in flight. -/
def rangesFinished (t : Tracker π) : Bool :=
  !t.moreAccounts && t.ranges.isEmpty && t.accounts.isEmpty && t.codes.isEmpty &&
    t.refreshes.isEmpty && t.inFlight == {}

/-- Writes the progress marker. -/
def saveMarker (t : Tracker π) (marker : Hash) : Except SnapError Unit × Tracker π :=
  match t.backend.put .snapState markerKey marker.toBytes with
  | .ok backend => (.ok (), { t with backend })
  | .error fault => (.error (.store (.storage fault)), t)

def enqueueAccounts (t : Tracker π) (accounts : List AccountLeaf) : Tracker π :=
  { t with accounts := t.accounts ++ accounts }

def enqueueRange (t : Tracker π) (range : StorageRange) : Tracker π :=
  { t with ranges := t.ranges ++ [range] }

def enqueueCodes (t : Tracker π) (hashes : List Hash) : Tracker π :=
  { t with codes := t.codes ++ hashes }

def enqueueRefreshes (t : Tracker π) (items : List RefreshItem) : Tracker π :=
  { t with refreshes := t.refreshes ++ items }

section Pivot

variable [PivotSource π]

/-- Asks for the pivot, which may move. -/
def readPivot (t : Tracker π) : Option Header × Tracker π :=
  let (header, pivot, events) := PivotSource.current t.pivot
  (header, { t with pivot }.logged events)

/-- There is a pivot to sync against. -/
def canSync (t : Tracker π) : Bool × Tracker π :=
  match t.readPivot with
  | (some pivot, t) =>
    if 0 < pivot.number then (true, t.logged [.syncStarting pivot.number pivot.stateRoot])
    else (false, t.logged [.syncNotStarted])
  | (none, t) => (false, t.logged [.syncNotStarted])

/-- Moves the pivot to the best known header, if that is newer. -/
def advancePivot (t : Tracker π) : Tracker π :=
  let (pivot, events) := PivotSource.advance t.pivot
  { t with pivot }.logged events

end Pivot

def start (t : Tracker π) (now : UInt64) : Tracker π := { t with started := some now }

def setSeconds (t : Tracker π) (seconds : UInt64) : Tracker π :=
  { t with metrics := t.metrics.setSeconds seconds }

def addStateBytes (t : Tracker π) (synced stitched committed : UInt64) : Tracker π :=
  { t with metrics := t.metrics.addStateBytes synced stitched committed }

def addSavedBytes (t : Tracker π) (saved : UInt64) : Tracker π :=
  { t with metrics := t.metrics.addSavedBytes saved }

def subscribe (t : Tracker π) : Receiver := t.finish.subscribe

/-- A summary of the tracker: progress, requests in flight, queues. -/
def text (t : Tracker π) : String :=
  "ProgressTracker \x7b next_account_path: " ++ t.next.text ++ ", account_phase: " ++
    t.phase.text ++ ", in_flight: " ++ t.inFlight.text ++ ", queues: " ++ t.queueLengths.text ++
    " \x7d"

end Tracker

end StateSync.Sync
