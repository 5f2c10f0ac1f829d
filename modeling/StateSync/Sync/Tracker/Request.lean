import StateSync.Sync.Tracker.Schedule

/-!
Requests for work. If the schedule has nothing left and nothing is in flight, the phase is over:
the progress marker is set to the greatest hash and the end is announced once.
-/

namespace StateSync.Sync

/-- Calls between two progress lines in the log. -/
def progressInterval : UInt64 := 100

/-- Calls between two queue reports in the log. -/
def queuesInterval : UInt64 := 1000

namespace Tracker

variable {π : Type}

/-- Announces the end of the phase, with the bytes synced until now. -/
def announce (t : Tracker π) : Tracker π :=
  { t.logged [.rangesFinished] with
    announced := true
    finish := t.finish.send { finished := true, bytesSynced := t.metrics.bytes.synced } }

/-- Ends the phase, once: the end is announced when the marker that tells of it is written. -/
def finishRanges (t : Tracker π) : Except SnapError Unit × Tracker π :=
  if t.announced then (.ok (), t)
  else
    match { t with moreAccounts := false, next := .greatest }.saveMarker .greatest with
    | (.ok (), t) => (.ok (), t.announce)
    | (.error e, t) => (.error e, t)

variable [PivotSource π]

/-- The log lines that are due after a call that handed out a batch or none. -/
def dueLines (t : Tracker π) (request : Option Batch) : List LogEvent :=
  (if t.metrics.requests % progressInterval == 0 then [.progress t.next t.metrics] else []) ++
  (if t.metrics.requests % queuesInterval == 0 then
    [.queues request (PivotSource.lag t.pivot) t.phase t.next t.inFlight t.queueLengths]
  else [])

def logDue (t : Tracker π) (request : Option Batch) : Tracker π := t.logged (t.dueLines request)

/-- Counts a call and notes how long the sync has been running. -/
def countRequest (t : Tracker π) (now : UInt64) : Tracker π :=
  let metrics := t.metrics.recordRequest
  { t with
    metrics := match t.started with
      | some start => metrics.setSeconds (Word.saturatingSub now start)
      | none => metrics }

/-- Hands out the next batch against a pivot; with nothing left and nothing in flight, ends. -/
def requestAt (t : Tracker π) (pivot : Header) :
    Except SnapError (Option Batch × Bool) × Tracker π :=
  match t.schedule? pivot with
  | some (batch, t) => (.ok (some batch, false), t.logDue (some batch))
  | none =>
    if t.rangesFinished then
      match t.finishRanges with
      | (.ok (), t) => (.ok (none, true), t.logDue none)
      | (.error e, t) => (.error e, t)
    else (.ok (none, false), t.logDue none)

/--
The next batch of work, and whether the phase is over. No batch and `false` means that there is
nothing to hand out now but work is outstanding. Without a pivot nothing is handed out or ended.
-/
def nextRequest (t : Tracker π) (now : UInt64) :
    Except SnapError (Option Batch × Bool) × Tracker π :=
  match (t.countRequest now).readPivot with
  | (some pivot, t) => t.requestAt pivot
  | (none, t) => (.ok (none, t.rangesFinished), t)

end Tracker

end StateSync.Sync
