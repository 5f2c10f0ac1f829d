/-! When committed blocks are flushed to the backend, and when flushed nodes leave memory. -/

namespace StateSync.Store

/-- Which committed blocks are flushed. -/
inductive Persistence
  | archive
  | interval (blocks : UInt64)
  | never
deriving DecidableEq

namespace Persistence

/-- An archive flushes every block, an interval its multiples, and zero every block too. -/
def flushes : Persistence → UInt64 → Bool
  | archive, _ => true
  | interval blocks, block => blocks == 0 || block % blocks == 0
  | never, _ => false

def text : Persistence → String
  | archive => "Archive"
  | interval blocks => s!"Interval({blocks})"
  | never => "Never"

end Persistence

/-- How much memory the flushed nodes may keep. -/
inductive Pruning
  | memoryLimit (limit : Nat)
  | disabled
deriving DecidableEq

namespace Pruning

def limit? : Pruning → Option Nat
  | memoryLimit limit => some limit
  | disabled => none

/-- The limit itself may be used up. -/
def exceeded : Pruning → Nat → Bool
  | memoryLimit limit, memory => limit < memory
  | disabled, _ => false

def text : Pruning → String
  | memoryLimit limit => s!"MemoryLimit({limit})"
  | disabled => "Disabled"

end Pruning

end StateSync.Store
