import StateSync.ChainData
import StateSync.Sync.Log
import StateSync.Word

/-!
The pivot: the header whose state a sync requests. It follows the head of the chain when it has
fallen behind by a fixed number of blocks, and never goes back.
-/

namespace StateSync.Sync

/-- How many blocks a pivot may fall behind. -/
def pivotDistance : UInt64 := 128

def secondsPerBlock : UInt64 := 12

/-- The last time at which a header of this timestamp may still serve as a pivot. -/
def stalenessLimit (timestamp : UInt64) : UInt64 :=
  Word.saturatingAdd timestamp (pivotDistance * secondsPerBlock)

def isStale (header : Header) (now : UInt64) : Bool := stalenessLimit header.timestamp < now

/-- Something that a tracker takes its pivot from. -/
class PivotSource (π : Type) where
  /-- The pivot at this moment. -/
  current : π → Option Header × π × List LogEvent
  /-- Moves the pivot to the best known header, if that is newer. -/
  advance : π → π × List LogEvent
  /-- How many blocks the pivot is behind the best known header. -/
  lag : π → UInt64

/-- A pivot that follows the best header known of a chain. -/
structure Pivot where
  best : Option Header := none
  header : Option Header := none
deriving DecidableEq

namespace Pivot

/-- The best header, unless it is the genesis header. -/
def candidate? (p : Pivot) : Option Header := p.best.filter fun best => 0 < best.number

/-- Takes a header as the pivot, if there is none yet or it is newer. -/
def adopt (p : Pivot) (best : Header) : Pivot × List LogEvent :=
  let adopted : Pivot × List LogEvent :=
    ({ p with header := some best },
      [.pivotChanged (p.header.map Header.number) best.number best.stateRoot])
  match p.header with
  | some current => if best.number ≤ current.number then (p, []) else adopted
  | none => adopted

/-- A header is due as the pivot: there is none yet, or it has fallen too far behind. -/
def isDue (p : Pivot) (best : Header) : Bool :=
  match p.header with
  | some current => pivotDistance ≤ Word.saturatingSub best.number current.number
  | none => true

def follow (p : Pivot) : Pivot × List LogEvent :=
  match p.candidate? with
  | some best => if p.isDue best then p.adopt best else (p, [])
  | none => (p, [])

def force (p : Pivot) : Pivot × List LogEvent :=
  match p.candidate? with
  | some best => p.adopt best
  | none => (p, [])

def lag (p : Pivot) : UInt64 :=
  match p.best with
  | some best => Word.saturatingSub best.number ((p.header.map Header.number).getD 0)
  | none => 0

instance : PivotSource Pivot where
  current p := (p.follow.1.header, p.follow.1, p.follow.2)
  advance := force
  lag := lag

end Pivot

/-- A pivot set from outside, which counts how often it was asked to advance. -/
structure FixedPivot where
  header : Option Header := none
  advances : UInt64 := 0
deriving DecidableEq

instance : PivotSource FixedPivot where
  current p := (p.header, p, [])
  advance p := ({ p with advances := p.advances + 1 }, [])
  lag _ := 0

/-- Either of two sources. -/
instance {α β : Type} [PivotSource α] [PivotSource β] : PivotSource (α ⊕ β) where
  current
    | .inl p => let (header, p, events) := PivotSource.current p; (header, .inl p, events)
    | .inr p => let (header, p, events) := PivotSource.current p; (header, .inr p, events)
  advance
    | .inl p => let (p, events) := PivotSource.advance p; (.inl p, events)
    | .inr p => let (p, events) := PivotSource.advance p; (.inr p, events)
  lag
    | .inl p => PivotSource.lag p
    | .inr p => PivotSource.lag p

end StateSync.Sync
