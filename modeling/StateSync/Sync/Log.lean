import StateSync.Sync.Batch
import StateSync.Sync.Metrics

/-! What a sync reports to its operator. -/

namespace StateSync.Sync

inductive Level
  | info
  | warn
  | error
deriving DecidableEq

def Level.name : Level → String
  | info => "INFO"
  | warn => "WARN"
  | error => "ERROR"

inductive LogEvent
  | pivotChanged (previous : Option UInt64) (block : UInt64) (root : Hash)
  | syncStarting (block : UInt64) (root : Hash)
  | syncNotStarted
  | progressLoaded (next : Hash)
  | rangesFinishedBefore
  | rangesFinished
  | rangeKeepsFailing (start : Hash) (accounts attempts : Nat)
  | unmatchedReport (kind : RequestKind)
  | progress (next : Hash) (metrics : Metrics)
  | queues (request : Option Batch) (lag : UInt64) (phase : Phase) (next : Hash)
      (inFlight : InFlight) (lengths : QueueLengths)
deriving DecidableEq

namespace LogEvent

def level : LogEvent → Level
  | rangeKeepsFailing .. => .warn
  | unmatchedReport _ => .error
  | _ => .info

def blockText : Option UInt64 → String
  | none => "None"
  | some block => s!"Some({block})"

/-- The first byte of a path: how many 256ths of all accounts lie before it. -/
def accountShare (next : Hash) : Nat := next.toNat >>> 248

/-- Ten places, one filled for every full tenth of the accounts. -/
def bar (share : Nat) : String :=
  let filled := 10 * share / 256
  String.ofList (List.replicate filled '*' ++ List.replicate (10 - filled) ' ')

def progressText (next : Hash) (m : Metrics) : String :=
  let share := accountShare next
  s!"Snap state ranges progress: {m.seconds}s | " ++ Decimal.hundredths (100 * share) 256 ++
    "% [" ++ bar share ++ "] | Synced: " ++ mebibyteText m.bytes.synced ++
    " MB | Stitched: " ++ mebibyteText m.bytes.stitched ++
    " MB | Committed: " ++ mebibyteText m.bytes.committed ++
    " MB | SavedToDb: " ++ mebibyteText m.bytes.saved ++ " MB"

def requestText : Option Batch → String
  | none => "NO REQUEST:0"
  | some batch => s!"{batch.kind}:{batch.size}"

def queuesText (request : Option Batch) (lag : UInt64) (phase : Phase) (next : Hash)
    (f : InFlight) (q : QueueLengths) : String :=
  "Snap (" ++ requestText request ++ s!", diff:{lag}) " ++ phase.text ++ ":" ++ next.text ++
    s!" - Requests Account:{f.account} | Storage:{f.storage} | Code:{f.code} | " ++
    s!"Refresh:{f.refresh} - Queues Slots:{q.storageRanges} | Storages:{q.storageAccounts} | " ++
    s!"Codes:{q.codes} | Refresh:{q.refreshes}"

def message : LogEvent → String
  | pivotChanged previous block root =>
    "Snap sync pivot changed from " ++ blockText previous ++ s!" to {block} (" ++ root.text ++ ")"
  | syncStarting block root =>
    s!"Starting snap data sync from block {block} with root " ++ root.text
  | syncNotStarted => "No best suggested header available, snap sync not started"
  | progressLoaded next => "Snap state ranges progress loaded from db: " ++ next.text
  | rangesFinishedBefore => "Snap state ranges (phase 1 of 2) already finished"
  | rangesFinished => "Snap state ranges (phase 1 of 2) finished"
  | rangeKeepsFailing start accounts attempts =>
    "Storage range starting at " ++ start.text ++
      s!" for {accounts} accounts failed {attempts} times, forcing a pivot update"
  | unmatchedReport kind =>
    "Report for a " ++ kind.name ++ " request that was never dispatched"
  | progress next metrics => progressText next metrics
  | queues request lag phase next inFlight lengths =>
    queuesText request lag phase next inFlight lengths

end LogEvent

end StateSync.Sync
