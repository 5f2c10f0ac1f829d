import StateSync.Proofs.NodeCode.Parts

/-!
Decoding without a safety net. A strict decoder breaks down where it would split a byte string
beyond its end, read a byte that is not there or make a hash of a wrong number of bytes. No input
makes it do so: it comes to its end, and to what a decoder comes to.
-/

namespace StateSync.Trie

/-- A computation that may break down, and otherwise succeeds or fails. -/
abbrev Strict (α : Type) := ExceptT DecodeFault Option α

namespace Strict

variable {α β : Type}

/-- A computation that does not break down. -/
def of (outcome : Except DecodeFault α) : Strict α := ExceptT.mk (some outcome)

theorem of_bind {outcome : Except DecodeFault α} {f : α → Strict β}
    {g : α → Except DecodeFault β} (h : ∀ a, outcome = .ok a → f a = of (g a)) :
    of outcome >>= f = of (outcome >>= g) := by
  cases outcome with
  | error fault => rfl
  | ok a => exact h a rfl

end Strict

/-- The byte at a place, which must be there. -/
def byteAt? (bytes : Bytes) (place : Nat) : Strict UInt8 := ExceptT.mk (bytes[place]?.map .ok)

/-- The number that the bytes at some places spell. -/
def number? (bytes : Bytes) (places : List Nat) : Strict Nat := do
  return Bytes.toNat (← places.mapM (byteAt? bytes))

/-- The two parts of a byte string, which must be long enough for the first. -/
def splitAt? (count : Nat) (bytes : Bytes) : Strict (Bytes × Bytes) :=
  ExceptT.mk (if count ≤ bytes.length then some (.ok (bytes.take count, bytes.drop count))
    else none)

/-- The hash that a byte string is, which must have its length. -/
def hash? (bytes : Bytes) : Strict Hash :=
  ExceptT.mk (if bytes.length = 32 then some (.ok (.ofBytes bytes)) else none)

theorem splitAt?_eq {count : Nat} {bytes : Bytes} (enough : count ≤ bytes.length) :
    splitAt? count bytes = .of (.ok (bytes.take count, bytes.drop count)) :=
  congrArg ExceptT.mk (if_pos enough)

theorem hash?_eq {bytes : Bytes} (width : bytes.length = 32) :
    hash? bytes = .of (.ok (.ofBytes bytes)) :=
  congrArg ExceptT.mk (if_pos width)

namespace Nibbles

/-- All half-bytes, and a terminator if the first of them marks a leaf. -/
def halves (compact : Bytes) (first : UInt8) : List UInt8 :=
  let all := split compact ++ [terminator]
  if first < 2 then all.dropLast else all

/-- The steps are what remains without the first half, or the first two. -/
def chopped? (halves : List UInt8) : Strict (List UInt8) := do
  let (_, steps) ← splitAt? (2 - (← byteAt? halves 0).toNat % 2) halves
  return steps

/-- The path of any byte string. -/
def ofCompact? (compact : Bytes) : Strict Nibbles :=
  if compact.isEmpty then return ⟨[]⟩
  else return ⟨← chopped? (halves compact (← byteAt? (split compact) 0))⟩

theorem marks_of_half (first : UInt8) : (marksLeaf first = true ↔ ¬first / 16 < 2) ∧
    (marksOdd first = true ↔ (first / 16).toNat % 2 = 1) := by
  obtain ⟨first⟩ := first
  revert first
  decide +kernel

theorem halves_cons (first : UInt8) (rest : Bytes) : halves (first :: rest) (first / 16) =
    first / 16 :: first % 16 :: (split rest ++ if marksLeaf first then [terminator] else []) := by
  obtain ⟨marks, -⟩ := marks_of_half first
  rw [halves, split_cons]
  by_cases leaf : marksLeaf first = true
  · rw [if_neg (marks.mp leaf), if_pos leaf]
    rfl
  · rw [if_pos (not_not.mp (mt marks.mpr leaf)), if_neg leaf, List.append_nil]
    exact List.dropLast_concat

theorem chopped?_eq (first second : UInt8) (rest : List UInt8) :
    chopped? (first :: second :: rest) =
      .of (.ok ((if first.toNat % 2 = 1 then [second] else []) ++ rest)) := by
  have parts : ∀ count ≤ 2, splitAt? count (first :: second :: rest) = .of (.ok
      ((first :: second :: rest).take count, (first :: second :: rest).drop count)) := by
    intro count le
    exact splitAt?_eq (le.trans (Nat.le_add_left 2 rest.length))
  change splitAt? (2 - first.toNat % 2) (first :: second :: rest) >>= _ = _
  rw [parts _ (Nat.sub_le 2 _)]
  rcases Nat.mod_two_eq_zero_or_one first.toNat with even | odd
  · rw [even]
    rfl
  · rw [odd]
    rfl

theorem ofCompact?_eq (compact : Bytes) : ofCompact? compact = .of (.ok (ofCompact compact)) := by
  cases compact with
  | nil => rfl
  | cons first rest =>
    obtain ⟨-, marks⟩ := marks_of_half first
    have path : ofCompact? (first :: rest) =
        Nibbles.mk <$> chopped? (halves (first :: rest) (first / 16)) := rfl
    rw [path, halves_cons, chopped?_eq, ← List.append_assoc]
    simp only [ofCompact, marks]
    rfl

end Nibbles

namespace Node

def take? (count : Nat) (input : Bytes) : Strict (Bytes × Bytes) :=
  if input.length < count then throw .truncated else splitAt? count input

theorem take?_eq (count : Nat) (input : Bytes) : take? count input = .of (take count input) := by
  unfold take? take
  split
  · rfl
  · next enough => exact splitAt?_eq (Nat.le_of_not_lt enough)

def takeChildren? (bitmap : Nat) : (count : Nat) → Bytes → Strict (Vector Hash count × Bytes)
  | 0, input => return (.replicate 0 .zero, input)
  | count + 1, input => do
    let (children, rest) ← takeChildren? bitmap count input
    if bitmap.testBit count then
      let (child, rest) ← take? 32 rest
      return (children.push (← hash? child), rest)
    else
      return (children.push .zero, rest)

theorem takeChildren?_eq (bitmap count : Nat) (input : Bytes) :
    takeChildren? bitmap count input = .of (takeChildren bitmap count input) := by
  induction count with
  | zero => rfl
  | succ count ih =>
    rw [takeChildren?, takeChildren, ih]
    refine Strict.of_bind ?_
    rintro ⟨children, rest⟩ -
    dsimp only
    split
    · rw [take?_eq]
      refine Strict.of_bind ?_
      rintro ⟨child, rest⟩ taken
      dsimp only
      rw [hash?_eq (take_eq_ok_iff.mp taken).1]
      rfl
    · rfl

def takeValue? (input : Bytes) : Strict (Bytes × Bytes) := do
  let (length, rest) ← take? 4 input
  take? (← number? length [0, 1, 2, 3]) rest

theorem takeValue?_eq (input : Bytes) : takeValue? input = .of (takeValue input) := by
  rw [takeValue?, takeValue, take?_eq]
  refine Strict.of_bind ?_
  rintro ⟨length, rest⟩ taken
  obtain ⟨four, -⟩ := take_eq_ok_iff.mp taken
  obtain ⟨a, b, c, d, rfl⟩ := List.length_eq_four.mp four
  exact take?_eq _ rest

def takeOptionalValue? (flag : Bool) (input : Bytes) : Strict (Option Bytes × Bytes) :=
  if flag then do
    let (value, rest) ← takeValue? input
    return (some value, rest)
  else return (none, input)

theorem takeOptionalValue?_eq (flag : Bool) (input : Bytes) :
    takeOptionalValue? flag input = .of (takeOptionalValue flag input) := by
  cases flag with
  | false => rfl
  | true =>
    have value : takeOptionalValue? true input =
        (fun pair : Bytes × Bytes => (some pair.1, pair.2)) <$> takeValue? input := rfl
    rw [value, takeValue?_eq]
    cases h : takeValue input with
    | _ => simp only [takeOptionalValue, h, if_true]; rfl

def decodeBranch? (input : Bytes) : Strict Node := do
  let (header, rest) ← take? 3 input
  let bitmap ← number? header [0, 1]
  let hasValue ← Strict.of (takeFlag [← byteAt? header 2])
  let (children, rest) ← takeChildren? bitmap 16 rest
  let (value, rest) ← takeOptionalValue? hasValue rest
  if rest.isEmpty then return .branch children value else throw .trailingBytes

theorem decodeBranch?_eq (input : Bytes) : decodeBranch? input = .of (decodeBranch input) := by
  rw [decodeBranch?, decodeBranch, take?_eq]
  refine Strict.of_bind ?_
  rintro ⟨header, rest⟩ taken
  obtain ⟨three, -⟩ := take_eq_ok_iff.mp taken
  obtain ⟨a, b, c, rfl⟩ := List.length_eq_three.mp three
  change Strict.of (takeFlag [c]) >>= _ = Strict.of (takeFlag [c] >>= _)
  refine Strict.of_bind fun hasValue _ => ?_
  change takeChildren? (Bytes.toNat [a, b]) 16 rest >>= _ =
    Strict.of (takeChildren (Bytes.toNat [a, b]) 16 rest >>= _)
  rw [takeChildren?_eq]
  refine Strict.of_bind ?_
  rintro ⟨children, rest⟩ -
  dsimp only
  rw [takeOptionalValue?_eq]
  refine Strict.of_bind ?_
  rintro ⟨value, rest⟩ -
  dsimp only
  split <;> rfl

def decodeExtension? (input : Bytes) : Strict Node := do
  let (head, rest) ← take? 32 input
  let child ← hash? head
  if rest.isEmpty then throw .missingPrefix
  else return .extension (← Nibbles.ofCompact? rest) child

theorem decodeExtension?_eq (input : Bytes) :
    decodeExtension? input = .of (decodeExtension input) := by
  rw [decodeExtension?, decodeExtension, take?_eq]
  refine Strict.of_bind ?_
  rintro ⟨head, rest⟩ taken
  dsimp only
  rw [hash?_eq (take_eq_ok_iff.mp taken).1, Nibbles.ofCompact?_eq]
  change (if rest.isEmpty then _ else _ : Strict Node) = _
  split <;> rfl

def decodeLeaf? (input : Bytes) : Strict Node := do
  let (value, rest) ← takeValue? input
  if rest.isEmpty then throw .missingPartial
  else return .leaf (← Nibbles.ofCompact? rest) value

theorem decodeLeaf?_eq (input : Bytes) : decodeLeaf? input = .of (decodeLeaf input) := by
  rw [decodeLeaf?, decodeLeaf, takeValue?_eq]
  refine Strict.of_bind ?_
  rintro ⟨value, rest⟩ -
  dsimp only
  rw [Nibbles.ofCompact?_eq]
  split <;> rfl

/-- The node that a byte string is the code of, read strictly. -/
def decode? : Bytes → Strict Node
  | [] => throw .emptyInput
  | tag :: rest =>
    if tag = branchTag then decodeBranch? rest
    else if tag = extensionTag then decodeExtension? rest
    else if tag = leafTag then decodeLeaf? rest
    else throw .unknownTag

theorem decode?_eq (code : Bytes) : decode? code = .of (decode code) := by
  cases code with
  | nil => rfl
  | cons tag rest =>
    rw [decode?, decode]
    split_ifs with branch extension leaf
    · exact decodeBranch?_eq rest
    · exact decodeExtension?_eq rest
    · exact decodeLeaf?_eq rest
    · rfl

/--
A byte string is decoded exactly if it is put together of parts, which is in one way only, and to
the node that the parts make. Any other is refused with a fault, and none is read beyond its end.
-/
theorem decode_accepts_grammar (code : Bytes) :
    (∀ n, decode code = .ok n ↔ ∃ parts : Parts, parts.Spell code ∧ parts.node = n) ∧
      (∀ parts parts' : Parts, parts.Spell code → parts'.Spell code → parts = parts') ∧
      ((∃ fault, decode code = .error fault) ↔ ¬∃ parts : Parts, parts.Spell code) ∧
      (decode? code).run = some (decode code) := by
  refine ⟨fun n => Parts.decode_eq_ok_iff_spell, fun _ _ => Parts.Spell.unique, ⟨?_, ?_⟩, ?_⟩
  · rintro ⟨fault, refused⟩ ⟨parts, spelled⟩
    have decoded := Parts.decode_eq_ok_iff_spell.mpr ⟨parts, spelled, rfl⟩
    cases refused.symm.trans decoded
  · intro none
    cases answer : decode code with
    | error fault => exact ⟨fault, rfl⟩
    | ok n =>
      obtain ⟨parts, spelled, -⟩ := Parts.decode_eq_ok_iff_spell.mp answer
      exact absurd ⟨parts, spelled⟩ none
  · exact congrArg ExceptT.run (decode?_eq code)

/-- The parts of a branch with its first and its last child and a value. -/
def sparse : Parts :=
  .branch [0x80, 0x01] [List.replicate 32 0x11, List.replicate 32 0x22]
    (some ⟨[0, 0, 0, 1], [0x76]⟩)

/-- The node that they make. -/
def sparseNode : Node :=
  let first : Hash := .ofBytes (List.replicate 32 0x11)
  let last : Hash := .ofBytes (List.replicate 32 0x22)
  .branch (Vector.ofFn fun i => if i.val = 0 then first else if i.val = 15 then last else .zero)
    (some [0x76])

/-- They are read back, and without the last byte the value is too short. -/
theorem decode_accepts_grammar_sparse :
    (∀ parts : Parts, parts.Spell sparse.bytes ↔ parts = sparse) ∧
      decode sparse.bytes = .ok sparseNode ∧
      (∃ fault, decode sparse.bytes.dropLast = .error fault) ∧
      (decode? sparse.bytes.dropLast).run = some (.error .truncated) := by
  have valid : sparse.Valid := by
    refine .branch rfl (by decide +kernel) (by decide +kernel) fun v mem => ?_
    obtain rfl := Option.some.inj mem
    exact ⟨rfl, rfl⟩
  have node : sparse.node = sparseNode := by decide +kernel
  have cut : decode sparse.bytes.dropLast = .error .truncated := by decide +kernel
  obtain ⟨decoded, unique, -, -⟩ := decode_accepts_grammar sparse.bytes
  have spelled : sparse.Spell sparse.bytes := ⟨valid, rfl⟩
  refine ⟨fun parts => ⟨fun other => unique parts sparse other spelled, ?_⟩,
    (decoded _).mpr ⟨sparse, spelled, node⟩, ⟨_, cut⟩, ?_⟩
  · rintro rfl
    exact spelled
  · rw [(decode_accepts_grammar _).2.2.2, cut]

end Node

end StateSync.Trie
