import StateSync.Store.ByteStore

/-!
The durable backend: rows in named tables, ordered by key. Reading and writing may be out of
service, each with its own fault; a refused write changes nothing.
-/

namespace StateSync.Store

inductive Table
  | trieNodes
  | snapState
deriving DecidableEq

namespace Table

def all : List Table := [trieNodes, snapState]

def name : Table → String
  | trieNodes => "trie_nodes"
  | snapState => "snap_state"

def ofName? (name : String) : Option Table := all.find? (·.name == name)

end Table

structure Backend where
  trieNodes : Rows := ∅
  snapState : Rows := ∅
  readFault : Option StorageFault := none
  writeFault : Option StorageFault := none

namespace Backend

def rows (b : Backend) : Table → Rows
  | .trieNodes => b.trieNodes
  | .snapState => b.snapState

def setRows (b : Backend) : Table → Rows → Backend
  | .trieNodes, rows => { b with trieNodes := rows }
  | .snapState, rows => { b with snapState := rows }

/-- Sets which calls are out of service. -/
def withFaults (b : Backend) (readFault writeFault : Option StorageFault) : Backend :=
  { b with readFault, writeFault }

def get (b : Backend) (t : Table) (key : Bytes) : Except StorageFault (Option Bytes) :=
  match b.readFault with
  | some fault => .error fault
  | none => .ok (b.rows t)[key]?

/-- Stores all pairs in order, the last of equal keys winning, or none of them. -/
def putAll (b : Backend) (t : Table) (batch : List (Bytes × Bytes)) :
    Except StorageFault Backend :=
  match b.writeFault with
  | some fault => .error fault
  | none => .ok (b.setRows t ((b.rows t).insertMany batch))

def put (b : Backend) (t : Table) (key value : Bytes) : Except StorageFault Backend :=
  b.putAll t [(key, value)]

def delete (b : Backend) (t : Table) (key : Bytes) : Backend :=
  b.setRows t ((b.rows t).erase key)

def clear (b : Backend) (t : Table) : Backend := b.setRows t ∅

/-- Pairs at or after a prefix and up to the first key that does not start with it. -/
def scanRows (rows : Rows) (start : Bytes) : List (Bytes × Bytes) :=
  (rows.toList.dropWhile fun row => compare row.1 start == .lt).takeWhile fun row =>
    start.isPrefixOf row.1

/-- The pairs whose key starts with a prefix, in key order. -/
def scan (b : Backend) (t : Table) (start : Bytes) : List (Bytes × Bytes) :=
  scanRows (b.rows t) start

/-- Runs a call on the table of a name. -/
def onTable {α : Type} (name : String) (call : Table → Except StorageFault α) :
    Except StorageFault α :=
  match Table.ofName? name with
  | some t => call t
  | none => .error (.unknownTable name)

/-- Runs a call on the table of a name, unless a fault refuses it first. -/
def onTableUnless {α : Type} (fault : Option StorageFault) (name : String)
    (call : Table → Except StorageFault α) : Except StorageFault α :=
  match fault with
  | some fault => .error fault
  | none => onTable name call

def getNamed (b : Backend) (name : String) (key : Bytes) : Except StorageFault (Option Bytes) :=
  onTableUnless b.readFault name fun t => b.get t key

def putAllNamed (b : Backend) (name : String) (batch : List (Bytes × Bytes)) :
    Except StorageFault Backend :=
  onTableUnless b.writeFault name fun t => b.putAll t batch

def deleteNamed (b : Backend) (name : String) (key : Bytes) : Except StorageFault Backend :=
  onTable name fun t => .ok (b.delete t key)

def clearNamed (b : Backend) (name : String) : Except StorageFault Backend :=
  onTable name fun t => .ok (b.clear t)

def scanNamed (b : Backend) (name : String) (start : Bytes) :
    Except StorageFault (List (Bytes × Bytes)) :=
  onTable name fun t => .ok (b.scan t start)

end Backend

/-- One table of a backend as a byte store. -/
structure TableStore where
  backend : Backend
  table : String

instance : ByteStore TableStore where
  get s key := (s.backend.getNamed s.table key).mapError fun fault => .database (.storage fault)
  putAll s batch :=
    match s.backend.putAllNamed s.table batch with
    | .ok backend => (.ok (), { s with backend })
    | .error fault => (.error (.database (.storage fault)), s)

namespace Table

@[simp] theorem ofName?_name (t : Table) : ofName? t.name = some t := by
  cases t <;> decide

end Table

namespace Backend

@[simp] theorem rows_setRows_self (b : Backend) (t : Table) (rows : Rows) :
    (b.setRows t rows).rows t = rows := by
  cases t <;> rfl

theorem rows_setRows_of_ne (b : Backend) {t u : Table} (h : t ≠ u) (rows : Rows) :
    (b.setRows t rows).rows u = b.rows u := by
  cases t <;> cases u <;> first | rfl | exact absurd rfl h

end Backend

end StateSync.Store
