import StateSync.Hash

/-!
What tries, node stores and the branch cache refuse or fail with. Every error has a kind, the
dotted name under which it is reported, and a message.
-/

namespace StateSync

/-- Why the branch cache refuses a call. -/
inductive BranchError
  | alreadyInitialized
  | notInitialized
  | unknownParent (root : Hash)
  | notNewer (block parent : UInt64)
  | modifiedDuringTraversal (expected found : Nat)
  /-- A link led to a slot that holds no branch; no run of the cache comes here. -/
  | danglingLink (slot : Nat)
deriving DecidableEq

namespace BranchError

def kind : BranchError → String
  | alreadyInitialized => "AlreadyInitialized"
  | notInitialized => "NotInitialized"
  | unknownParent _ => "UnknownParent"
  | notNewer _ _ => "NonIncreasingBlock"
  | modifiedDuringTraversal _ _ => "ConcurrentModification"
  | danglingLink _ => "DanglingLink"

def message : BranchError → String
  | alreadyInitialized => "Branch cache is already initialized"
  | notInitialized => "Branch cache is not initialized"
  | unknownParent root => "Unknown parent state root " ++ root.text
  | notNewer block parent => s!"Block {block} is not newer than its parent block {parent}"
  | modifiedDuringTraversal expected found =>
    s!"Branch cache was modified during traversal (expected version {expected}, found {found})"
  | danglingLink slot => s!"Branch link to the free slot {slot}"

/-- The caller misused the cache, as opposed to losing a race with another caller. -/
def isMisuse : BranchError → Bool
  | modifiedDuringTraversal _ _ => false
  | _ => true

end BranchError

/-- A rule of the node store that a call would break. -/
inductive Violation
  | commitBelowBoundary (block boundary : UInt64)
  | described (text : String)
deriving DecidableEq

def Violation.message : Violation → String
  | commitBelowBoundary block boundary =>
    s!"commit for block {block} at or below persisted block {boundary}"
  | described text => text

/-- What storage fails with, errors of tries apart. -/
inductive StorageFault
  | described (text : String)
  | branch (cause : BranchError)
  | unknownTable (name : String)
  | lock
  | violation (rule : Violation)
deriving DecidableEq

def StorageFault.kind : StorageFault → String
  | described _ => "Custom"
  | branch cause => "BranchCache." ++ cause.kind
  | unknownTable _ => "UnknownTable"
  | lock => "LockError"
  | violation _ => "InvariantViolation"

def StorageFault.message : StorageFault → String
  | described text => text
  | branch cause => cause.message
  | unknownTable name => "Unknown table " ++ name
  | lock => "Failed to lock database"
  | violation rule => "Invariant violated: " ++ rule.message

/-- Why a byte string is not the code of a node. -/
inductive DecodeFault
  | emptyInput
  | unknownTag
  | truncated
  | valueFlag
  | trailingBytes
  | missingPrefix
  | missingPartial
  | described (text : String)
deriving DecidableEq

def DecodeFault.message : DecodeFault → String
  | emptyInput => "input is empty"
  | unknownTag => "invalid node type"
  | truncated => "unexpected end of input"
  | valueFlag => "invalid branch value flag"
  | trailingBytes => "trailing bytes after branch"
  | missingPrefix => "missing extension prefix"
  | missingPartial => "missing leaf partial path"
  | described text => text

/-- Why a payload does not belong under a key. -/
inductive VerifyFault
  | hashMismatch (expected computed : Hash)
  | emptyPayload (key : String)
  | described (text : String)
deriving DecidableEq

def VerifyFault.message : VerifyFault → String
  | hashMismatch expected computed =>
    "node hash mismatch: expected " ++ expected.text ++ ", computed " ++ computed.text
  | emptyPayload key => "empty payload at " ++ key
  | described text => text

/-- What a byte store under a trie fails with. -/
inductive ByteStoreFault
  | storage (fault : StorageFault)
  | readOnly
  | described (text : String)
deriving DecidableEq

def ByteStoreFault.message : ByteStoreFault → String
  | storage fault => fault.message
  | readOnly => "layered state readers are read-only"
  | described text => text

inductive TrieError
  | decode (fault : DecodeFault)
  | verify (fault : VerifyFault)
  | missingNode (key : String)
  | lock
  | database (fault : ByteStoreFault)
  | invalidInput
deriving DecidableEq

def TrieError.kind : TrieError → String
  | decode _ => "Decode"
  | verify _ => "Verify"
  | missingNode _ => "MissingNode"
  | lock => "LockError"
  | database (.storage fault) => "DbError.Store." ++ fault.kind
  | database _ => "DbError"
  | invalidInput => "InvalidInput"

def TrieError.message : TrieError → String
  | decode fault => "Node decode error: " ++ fault.message
  | verify fault => "Verification Error: " ++ fault.message
  | missingNode key => "Missing trie node " ++ key
  | lock => "Lock Error: Panicked when trying to acquire a lock"
  | database fault => "Database error: " ++ fault.message
  | invalidInput => "Invalid trie input"

/-- What a node store fails with. -/
inductive StoreError
  | storage (fault : StorageFault)
  | trie (error : TrieError)
deriving DecidableEq

namespace StoreError

def kind : StoreError → String
  | storage fault => fault.kind
  | trie error => "Trie." ++ error.kind

def message : StoreError → String
  | storage fault => fault.message
  | trie error => error.message

/-- The error as seen by a reader of the trie: storage faults are failures of its database. -/
def toTrieError : StoreError → TrieError
  | storage fault => .database (.storage fault)
  | trie error => error

end StoreError

end StateSync
