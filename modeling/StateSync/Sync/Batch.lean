import StateSync.ChainData

/-! Batches of work for the network. Each carries the root and block it is requested against. -/

namespace StateSync.Sync

/-- An account with its path in the state trie. -/
structure AccountLeaf where
  path : Hash
  account : Account
deriving DecidableEq

/-- An account to be read anew, and where its storage goes on. -/
structure RefreshItem where
  leaf : AccountLeaf
  storageStart : Hash
deriving DecidableEq

def AccountLeaf.toBytes (leaf : AccountLeaf) : Bytes := leaf.path.toBytes ++ leaf.account.toBytes

def RefreshItem.toBytes (item : RefreshItem) : Bytes :=
  item.leaf.toBytes ++ item.storageStart.toBytes

structure AccountRange where
  root : Hash
  block : UInt64
  start : Hash
  limit : Hash
deriving DecidableEq

structure StorageRange where
  root : Hash
  block : UInt64
  accounts : List AccountLeaf
  start : Hash
  limit : Hash
  /--
  How often this range came back unfinished since its count was last reset. Below 2 ^ 32 - 1 a
  counter of 32 bits counts on in the same way.
  -/
  attempts : Nat
deriving DecidableEq

structure CodesRequest where
  root : Hash
  block : UInt64
  hashes : List Hash
deriving DecidableEq

structure RefreshRequest where
  root : Hash
  block : UInt64
  items : List RefreshItem
deriving DecidableEq

inductive Batch
  | accountRange (range : AccountRange)
  | storageRange (range : StorageRange)
  | codes (request : CodesRequest)
  | refresh (request : RefreshRequest)
deriving DecidableEq

namespace Batch

def root : Batch → Hash
  | accountRange r => r.root
  | storageRange r => r.root
  | codes r => r.root
  | refresh r => r.root

def block : Batch → UInt64
  | accountRange r => r.block
  | storageRange r => r.block
  | codes r => r.block
  | refresh r => r.block

/-- The number of items asked for; an account range counts as one. -/
def size : Batch → Nat
  | accountRange _ => 1
  | storageRange r => r.accounts.length
  | codes r => r.hashes.length
  | refresh r => r.items.length

def isEmpty (b : Batch) : Bool := b.size == 0

def kind : Batch → String
  | accountRange _ => "AccountRange"
  | storageRange _ => "StorageRange"
  | codes _ => "Codes"
  | refresh _ => "AccountsToRefresh"

end Batch

/-- The kinds of requests that are counted while they are in flight. -/
inductive RequestKind
  | account
  | storage
  | code
  | refresh
deriving DecidableEq

def RequestKind.name : RequestKind → String
  | account => "account"
  | storage => "storage"
  | code => "code"
  | refresh => "refresh"

/-- The requests in flight. -/
structure InFlight where
  account : Nat := 0
  storage : Nat := 0
  code : Nat := 0
  refresh : Nat := 0
deriving DecidableEq

namespace InFlight

def count (f : InFlight) : RequestKind → Nat
  | .account => f.account
  | .storage => f.storage
  | .code => f.code
  | .refresh => f.refresh

def setCount (f : InFlight) (n : Nat) : RequestKind → InFlight
  | .account => { f with account := n }
  | .storage => { f with storage := n }
  | .code => { f with code := n }
  | .refresh => { f with refresh := n }

/-- One more request of a kind. -/
def add (f : InFlight) (kind : RequestKind) : InFlight := f.setCount (f.count kind + 1) kind

/-- One request of a kind fewer; none in flight stays none. -/
def remove (f : InFlight) (kind : RequestKind) : InFlight := f.setCount (f.count kind - 1) kind

def text (f : InFlight) : String :=
  "InFlightRequests \x7b " ++
    s!"account: {f.account}, storage: {f.storage}, code: {f.code}, refresh: {f.refresh}" ++ " \x7d"

@[simp] theorem count_setCount_self (f : InFlight) (n : Nat) (kind : RequestKind) :
    (f.setCount n kind).count kind = n := by
  cases kind <;> rfl

theorem count_setCount_of_ne (f : InFlight) (n : Nat) {kind other : RequestKind}
    (h : kind ≠ other) : (f.setCount n kind).count other = f.count other := by
  cases kind <;> cases other <;> first | rfl | exact absurd rfl h

end InFlight

/-- The lengths of the queues of work. -/
structure QueueLengths where
  storageRanges : Nat
  storageAccounts : Nat
  codes : Nat
  refreshes : Nat
deriving DecidableEq

def QueueLengths.text (q : QueueLengths) : String :=
  "QueueLengths \x7b " ++ s!"storage_ranges: {q.storageRanges}, " ++
    s!"storages_to_retrieve: {q.storageAccounts}, codes: {q.codes}, " ++
    s!"accounts_to_refresh: {q.refreshes}" ++ " \x7d"

/-- Whether accounts remain to be requested. -/
inductive Phase
  | inProgress
  | done
deriving DecidableEq

def Phase.text : Phase → String
  | inProgress => "InProgress"
  | done => "Done"

end StateSync.Sync
