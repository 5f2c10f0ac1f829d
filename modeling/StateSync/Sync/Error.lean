import StateSync.Error

/-! What a sync fails with, by kind and message. -/

namespace StateSync.Sync

/-- What scheduling the first phase of a sync fails with. -/
inductive SnapError
  | store (error : StoreError)
  | trie (error : TrieError)
  | corruptMarker (length : UInt64)
  | unexpectedReport (text : String)
  | internal (text : String)
deriving DecidableEq

def SnapError.kind : SnapError → String
  | store error => "Store." ++ error.kind
  | trie error => "Trie." ++ error.kind
  | corruptMarker _ => "CorruptProgress"
  | unexpectedReport _ => "UnexpectedReport"
  | internal _ => "InternalError"

def SnapError.message : SnapError → String
  | store error => error.message
  | trie error => error.message
  | corruptMarker length => s!"Corrupt progress marker: expected 32 bytes, found {length}"
  | unexpectedReport text => "Unexpected report: " ++ text
  | internal text => "Internal error: " ++ text

inductive SyncError
  | store (error : StoreError)
  | trie (error : TrieError)
  | snap (error : SnapError)
  | noPivot
  | stalePivot (block : UInt64)
  | invalidRange
  | missingData
deriving DecidableEq

namespace SyncError

def kind : SyncError → String
  | store error => "Store." ++ error.kind
  | trie error => "Trie." ++ error.kind
  | snap error => "Snap." ++ error.kind
  | noPivot => "NoPivot"
  | stalePivot _ => "StalePivot"
  | invalidRange => "InvalidRangeReceived"
  | missingData => "CorruptDB"

def message : SyncError → String
  | store error => error.message
  | trie error => error.message
  | snap error => error.message
  | noPivot => "No pivot header available, sync not started"
  | stalePivot block => s!"Pivot header {block} is stale"
  | invalidRange => "Range received is invalid"
  | missingData => "Missing data from DB"

/-- The sync may go on after this error. -/
def isRecoverable : SyncError → Bool
  | missingData | snap _ => false
  | _ => true

end SyncError

end StateSync.Sync
