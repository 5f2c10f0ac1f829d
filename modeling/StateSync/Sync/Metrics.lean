import StateSync.Rounding

/-! Counters of a sync. They are 64-bit words and start again at zero when they overflow. -/

namespace StateSync.Sync

/-- Bytes of state by how far they got. -/
structure ByteCounts where
  synced : UInt64 := 0
  stitched : UInt64 := 0
  committed : UInt64 := 0
  saved : UInt64 := 0
deriving DecidableEq

structure Metrics where
  bytes : ByteCounts := {}
  requests : UInt64 := 0
  seconds : UInt64 := 0
  /-- How often a storage range used up its retries. -/
  rangeFailures : UInt64 := 0
deriving DecidableEq

/-- A byte count in mebibytes is a double, `mebibyte / 2 ^ mebibyteBits`. -/
def mebibyteBits : Nat := 20

/-- The numerator of a byte count in mebibytes. -/
def mebibyteNumerator (count : UInt64) : Nat := Binary64.nearest count.toNat

/-- A byte count in mebibytes, with two decimal places. -/
def mebibyteText (count : UInt64) : String :=
  Decimal.hundredths (mebibyteNumerator count) (1 <<< mebibyteBits)

/-- The double of a byte count in mebibytes. -/
def mebibyteDouble (count : UInt64) : UInt64 :=
  Binary64.bits (mebibyteNumerator count) mebibyteBits

namespace ByteCounts

/-- The counts in order of progress. -/
def toList (b : ByteCounts) : List UInt64 := [b.synced, b.stitched, b.committed, b.saved]

/-- The doubles of the counts in mebibytes, in order of progress. -/
def mebibytes (b : ByteCounts) : List UInt64 := b.toList.map mebibyteDouble

end ByteCounts

namespace Metrics

def recordRequest (m : Metrics) : Metrics := { m with requests := m.requests + 1 }

def addStateBytes (m : Metrics) (synced stitched committed : UInt64) : Metrics :=
  { m with bytes := { m.bytes with
      synced := m.bytes.synced + synced
      stitched := m.bytes.stitched + stitched
      committed := m.bytes.committed + committed } }

def addSavedBytes (m : Metrics) (saved : UInt64) : Metrics :=
  { m with bytes := { m.bytes with saved := m.bytes.saved + saved } }

def recordRangeFailure (m : Metrics) : Metrics := { m with rangeFailures := m.rangeFailures + 1 }

def setSeconds (m : Metrics) (seconds : UInt64) : Metrics := { m with seconds }

end Metrics

end StateSync.Sync
