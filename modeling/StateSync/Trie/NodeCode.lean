import StateSync.Error
import StateSync.Keccak
import StateSync.Trie.HexPrefix

/-!
Nodes of a Patricia Merkle trie, and their byte code. The all-zero hash stands for "no child". In
the code of a node a tag byte comes first; all numbers are big-endian.

- branch: `00`, a bitmap of two bytes, a value flag, the hash of every child whose bit is set,
  and if the flag is set the value behind its length of four bytes;
- extension: `01`, the hash of the child, the path in hex-prefix code;
- leaf: `02`, the value behind its length of four bytes, the path in hex-prefix code.
-/

namespace StateSync.Trie

/-- The children of a branch, one for each nibble. -/
abbrev Children := Vector Hash 16

inductive Node
  | branch (children : Children) (value : Option Bytes)
  | extension (path : Nibbles) (child : Hash)
  | leaf (path : Nibbles) (value : Bytes)
deriving DecidableEq

namespace Node

/-- A branch without children. -/
def noChildren : Children := Vector.replicate 16 .zero

/-- The hashes of a node's children in order, absent ones left out. -/
def childHashes : Node → List Hash
  | branch children _ => children.toList.filter (· != .zero)
  | extension _ child => [child]
  | leaf _ _ => []

def isLeaf : Node → Bool
  | leaf _ _ => true
  | _ => false

def branchTag : UInt8 := 0x00
def extensionTag : UInt8 := 0x01
def leafTag : UInt8 := 0x02

/-- The number whose bits are given, least significant first. -/
def ofBits : List Bool → Nat
  | [] => 0
  | bit :: bits => bit.toNat + 2 * ofBits bits

/-- A value behind its length. -/
def encodeValue (value : Bytes) : Bytes := Bytes.ofNat 4 value.length ++ value

/-- The bitmap of a branch: bit `i` is set if child `i` is present. -/
def bitmap (children : Children) : Nat := ofBits (children.toList.map (· != .zero))

/-- The code of a node. -/
def encode : Node → Bytes
  | .branch children value =>
    branchTag :: Bytes.ofNat 2 (bitmap children) ++
      [if value.isSome then 1 else 0] ++
      (children.toList.filter (· != .zero)).flatMap Hash.toBytes ++
      (value.map encodeValue).getD []
  | .extension path child => extensionTag :: child.toBytes ++ path.compact
  | .leaf path value => leafTag :: encodeValue value ++ path.compact

/-- The hash of a node's code, under which its parent knows it. -/
def hash (n : Node) : Hash := keccak n.encode

/-- The first `count` bytes and the rest. -/
def take (count : Nat) (input : Bytes) : Except DecodeFault (Bytes × Bytes) :=
  if input.length < count then .error .truncated else .ok (input.take count, input.drop count)

/-- The hashes of the children below `count` whose bit is set, zero for the others. -/
def takeChildren (bitmap : Nat) : (count : Nat) → Bytes →
    Except DecodeFault (Vector Hash count × Bytes)
  | 0, input => .ok (#v[], input)
  | count + 1, input => do
    let (children, rest) ← takeChildren bitmap count input
    if bitmap.testBit count then
      let (child, rest) ← take 32 rest
      return (children.push (.ofBytes child), rest)
    else
      return (children.push .zero, rest)

/-- A value behind its length, and the rest. -/
def takeValue (input : Bytes) : Except DecodeFault (Bytes × Bytes) := do
  let (length, rest) ← take 4 input
  take (Bytes.toNat length) rest

/-- A value if the flag announces one, and the rest. -/
def takeOptionalValue (flag : Bool) (input : Bytes) :
    Except DecodeFault (Option Bytes × Bytes) :=
  if flag then (takeValue input).map fun (value, rest) => (some value, rest) else .ok (none, input)

def takeFlag : Bytes → Except DecodeFault Bool
  | [0] => .ok false
  | [1] => .ok true
  | _ => .error .valueFlag

def decodeBranch (input : Bytes) : Except DecodeFault Node := do
  let (head, rest) ← take 3 input
  let hasValue ← takeFlag (head.drop 2)
  let (children, rest) ← takeChildren (Bytes.toNat (head.take 2)) 16 rest
  let (value, rest) ← takeOptionalValue hasValue rest
  if rest.isEmpty then .ok (.branch children value) else .error .trailingBytes

def decodeExtension (input : Bytes) : Except DecodeFault Node := do
  let (child, rest) ← take 32 input
  if rest.isEmpty then .error .missingPrefix
  else .ok (.extension (.ofCompact rest) (.ofBytes child))

def decodeLeaf (input : Bytes) : Except DecodeFault Node := do
  let (value, rest) ← takeValue input
  if rest.isEmpty then .error .missingPartial else .ok (.leaf (.ofCompact rest) value)

/-- The node that a byte string is the code of. -/
def decode : Bytes → Except DecodeFault Node
  | [] => .error .emptyInput
  | tag :: rest =>
    if tag = branchTag then decodeBranch rest
    else if tag = extensionTag then decodeExtension rest
    else if tag = leafTag then decodeLeaf rest
    else .error .unknownTag

end Node

end StateSync.Trie
