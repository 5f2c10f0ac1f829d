import StateSync.Keccak

/-!
What state storage and state sync need of the chain's data: a part of the block header, and
accounts as the leaves of the state trie hold them.
-/

namespace StateSync

structure Header where
  parentHash : Hash := .zero
  number : UInt64 := 0
  timestamp : UInt64 := 0
  stateRoot : Hash := .zero
deriving DecidableEq, Inhabited

namespace Header

/-- The fields joined in order, numbers as eight big-endian bytes. -/
def toBytes (h : Header) : Bytes :=
  h.parentHash.toBytes ++ Bytes.ofNat 8 h.number.toNat ++ Bytes.ofNat 8 h.timestamp.toNat ++
    h.stateRoot.toBytes

/-- The identifier of a header: the digest of its fields. -/
def hash (h : Header) : Hash := keccak h.toBytes

end Header

/-- The byte that encodes the root of a trie without nodes. -/
def emptyTrieByte : UInt8 := 0x80

/-- The root of a trie without nodes. -/
def emptyTrieRoot : Hash := keccak [emptyTrieByte]

/-- The code hash of an account without code. -/
def emptyCodeHash : Hash := keccak []

/-- An account; by default one that owns nothing. -/
structure Account where
  nonce : UInt64 := 0
  balance : BitVec 256 := 0
  storageRoot : Hash := emptyTrieRoot
  codeHash : Hash := emptyCodeHash
deriving DecidableEq

namespace Account

instance : Inhabited Account := ⟨{}⟩

/-- The account owns a storage trie with nodes in it. -/
def hasStorage (a : Account) : Bool := a.storageRoot != emptyTrieRoot

/-- The account has code. -/
def hasCode (a : Account) : Bool := a.codeHash != emptyCodeHash

/-- The fields joined in order: eight bytes for the nonce, 32 for each of the others. -/
def toBytes (a : Account) : Bytes :=
  Bytes.ofNat 8 a.nonce.toNat ++ Bytes.ofNat 32 a.balance.toNat ++ a.storageRoot.toBytes ++
    a.codeHash.toBytes

end Account

end StateSync
