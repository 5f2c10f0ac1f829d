import StateSync.Trie.NodeCode

/-!
Keys of stored nodes. A store holds its nodes either under the hash of their code or under their
position: the owner of the trie and the path from its root.
-/

namespace StateSync.Trie

/-- How a store addresses its nodes. -/
inductive Addressing
  | hash
  | path
deriving DecidableEq

def Addressing.text : Addressing → String
  | hash => "Hash"
  | path => "Path"

/-- The position of a node: a path in the state trie, or in the storage trie of an account. -/
structure Position where
  account : Option Hash
  path : Nibbles
deriving DecidableEq

namespace Position

/-- Positions in the state trie come first, the others by account; then by path. -/
instance : Ord Position := ⟨compareLex (compareOn Position.account) (compareOn Position.path)⟩

instance : Std.TransOrd Position :=
  inferInstanceAs (Std.TransCmp (compareLex (compareOn Position.account)
    (compareOn Position.path)))

instance : Std.LawfulEqOrd Position where
  eq_of_compare {a b} h := by
    have h' : (compareOn Position.account a b).then (compareOn Position.path a b) = .eq := h
    rw [Ordering.then_eq_eq] at h'
    have ha : a.account = b.account := Std.LawfulEqOrd.eq_of_compare h'.1
    have hp : a.path = b.path := Std.LawfulEqOrd.eq_of_compare h'.2
    cases a; cases b; simp_all

def stateTag : UInt8 := 0x00
def storageTag : UInt8 := 0x01

/-- The owner of a position: a tag, and the account of a storage trie. -/
def ownerBytes : Option Hash → Bytes
  | none => [stateTag]
  | some account => storageTag :: account.toBytes

/-- Owner, joined steps, and the number of steps modulo 256. The terminator is left out. -/
def toBytes (p : Position) : Bytes :=
  ownerBytes p.account ++ p.path.toBytes ++ [UInt8.ofNat p.path.steps.length]

/-- The written form of a position in messages. -/
def text (p : Position) : String :=
  let account := match p.account with
    | none => "None"
    | some account => "Some(" ++ account.text ++ ")"
  let steps := ", ".intercalate (p.path.toList.map fun step => toString step.toNat)
  "NodePath \x7b account: " ++ account ++ ", path: Nibbles \x7b data: [" ++ steps ++ "] \x7d \x7d"

end Position

/-- A type of keys under which a byte store holds nodes. -/
class NodeKey (κ : Type) extends Ord κ where
  addressing : Addressing
  /-- The key in the byte store. -/
  toBytes : κ → Bytes
  /-- Whether a payload from an untrusted source may be stored under a key. -/
  verify : κ → Bytes → Except VerifyFault Unit
  /-- The written form of a key in messages. -/
  text : κ → String

/-- Under a content hash belongs only the payload with that digest. -/
instance : NodeKey Hash where
  addressing := .hash
  toBytes := Hash.toBytes
  verify key payload :=
    if keccak payload = key then .ok () else .error (.hashMismatch key (keccak payload))
  text := Hash.text

/-- A position says nothing about the payload, so only an empty one is refused. -/
instance : NodeKey Position where
  addressing := .path
  toBytes := Position.toBytes
  verify key payload := if payload.isEmpty then .error (.emptyPayload key.text) else .ok ()
  text := Position.text

end StateSync.Trie
