import StateSync.Proofs.NodeCode.Grammar

/-!
Writing and reading nodes. Main statements: a node with well-formed paths and values of writable
length is read back from its code, and of all byte strings that are read as a node exactly the
canonical one is its code.
-/

namespace StateSync.Trie.Node

/-- The paths are well-formed, and the lengths of the values can be written. -/
def WellFormed : Node → Prop
  | .branch _ value => ∀ v ∈ value, Fits v
  | .extension path _ => path.WellFormed
  | .leaf path value => path.WellFormed ∧ Fits value

/-- The bytes where a branch code has the hash of a listed child, by its place in the list. -/
def hashAt (branch : Bytes) (place : Nat) : Bytes := (branch.drop (3 + 32 * place)).take 32

/--
A code as it is written: a branch lists no child that is zero, and the path of an extension or a
leaf starts with a known flag and no unused bits.
-/
def Canonical : Bytes → Prop
  | [] => False
  | tag :: rest =>
    if tag = branchTag then
      ∀ place < (setBits (Bytes.toNat (rest.take 2)) 16).length,
        hashAt rest place ≠ List.replicate 32 0
    else if tag = extensionTag then Nibbles.Canonical (rest.drop 32)
    else Nibbles.Canonical (rest.drop (4 + Bytes.toNat (rest.take 4)))

instance : DecidablePred Canonical
  | [] => inferInstanceAs (Decidable False)
  | tag :: _ => inferInstanceAs (Decidable (if tag = branchTag then _ else _))

section Bitmap

variable {children : Children} {bitmap : Nat}

theorem testBit_ofBits (bits : List Bool) (i : Nat) :
    (ofBits bits).testBit i = bits.getD i false := by
  induction bits generalizing i with
  | nil => simp [ofBits]
  | cons bit bits ih =>
    cases i with
    | zero =>
      rw [ofBits, Nat.testBit_zero, List.getD_cons_zero]
      cases bit <;> simp
    | succ i =>
      have half : (bit.toNat + 2 * ofBits bits) / 2 = ofBits bits := by
        have := bit.toNat_le
        omega
      rw [ofBits, Nat.testBit_succ, half, ih, List.getD_cons_succ]

theorem ofBits_lt (bits : List Bool) : ofBits bits < 2 ^ bits.length := by
  induction bits with
  | nil => simp [ofBits]
  | cons bit bits ih =>
    have := bit.toNat_le
    rw [ofBits, List.length_cons, Nat.pow_succ]
    omega

theorem testBit_bitmap (i : Fin 16) :
    (Node.bitmap children).testBit i = (children.get i != .zero) := by
  rw [Node.bitmap, testBit_ofBits]
  simp [Vector.get_eq_getElem]

theorem bitmap_lt (children : Children) : Node.bitmap children < 2 ^ 16 := by
  have bound := ofBits_lt (children.toList.map (· != .zero))
  rwa [List.length_map, Vector.length_toList] at bound

theorem covers_bitmap (children : Children) : Covers (Node.bitmap children) children := by
  intro i clear
  rw [testBit_bitmap] at clear
  exact bne_eq_false_iff_eq.mp clear

theorem listed_bitmap (children : Children) :
    listed (Node.bitmap children) children = children.toList.filter (· != .zero) := by
  have all : children.toList = (List.finRange 16).map children.get := by
    apply List.ext_getElem
    · simp
    · intro i _ _
      simp [Vector.get_eq_getElem]
  rw [all, List.filter_map, listed, setBits]
  congr 1
  exact List.filter_congr fun i _ => testBit_bitmap i

/-- The bitmap of a branch is the one that covers its children and lists none that is zero. -/
theorem bitmap_eq_iff (small : bitmap < 2 ^ 16) (covers : Covers bitmap children) :
    Node.bitmap children = bitmap ↔ ∀ child ∈ listed bitmap children, child ≠ .zero := by
  constructor
  · rintro rfl child mem
    rw [listed_bitmap, List.mem_filter] at mem
    exact bne_iff_ne.mp mem.2
  · intro present
    apply Nat.eq_of_testBit_eq
    intro i
    by_cases hi : i < 16
    · rw [testBit_bitmap (⟨i, hi⟩ : Fin 16)]
      cases bit : bitmap.testBit i with
      | false => simp [covers ⟨i, hi⟩ bit]
      | true =>
        apply bne_iff_ne.mpr
        apply present
        refine List.mem_map_of_mem (List.mem_filter.mpr ⟨List.mem_finRange _, bit⟩)
    · have high : 2 ^ 16 ≤ 2 ^ i := Nat.pow_le_pow_right (by omega) (by omega)
      have bound := bitmap_lt children
      rw [Nat.testBit_lt_two_pow (by omega), Nat.testBit_lt_two_pow (by omega)]

theorem bitmap_of_branchCode {value : Option Bytes} (small : bitmap < 2 ^ 16) :
    Bytes.toNat ((branchCode bitmap children value).take 2) = bitmap := by
  have width : (Bytes.ofNat 2 bitmap).length = 2 := Bytes.length_ofNat 2 _
  rw [branchCode, List.append_assoc, List.append_assoc, List.take_left' width]
  exact Bytes.toNat_ofNat_of_lt small

end Bitmap

theorem encode_branch (children : Children) (value : Option Bytes) :
    encode (.branch children value) =
      branchTag :: branchCode (Node.bitmap children) children value := by
  simp only [encode, branchCode, listed_bitmap, List.cons_append, List.append_assoc]

theorem hasCode_encode {n : Node} (h : n.WellFormed) : n.HasCode n.encode := by
  cases n with
  | branch children value =>
    rw [encode_branch]
    exact .branch (bitmap_lt children) (covers_bitmap children) h
  | extension path child =>
    have code : (Node.extension (.ofCompact path.compact) child).HasCode _ :=
      .extension (Nibbles.packed_ne_nil path.isLeaf path.steps)
    rwa [Nibbles.ofCompact_compact h] at code
  | leaf path value =>
    have code : (Node.leaf (.ofCompact path.compact) value).HasCode _ :=
      .leaf h.2 (Nibbles.packed_ne_nil path.isLeaf path.steps)
    rwa [Nibbles.ofCompact_compact h.1] at code

theorem HasCode.wellFormed {n : Node} {code : Bytes} (h : n.HasCode code) : n.WellFormed := by
  cases h with
  | branch _ _ fits => exact fits
  | extension => exact Nibbles.wellFormed_ofCompact _
  | leaf fits => exact ⟨Nibbles.wellFormed_ofCompact _, fits⟩

theorem hashAt_branchCode {bitmap : Nat} {children : Children} {value : Option Bytes} {place : Nat}
    (h : place < (listed bitmap children).length) :
    hashAt (branchCode bitmap children value) place =
      ((listed bitmap children)[place]).toBytes := by
  have width : (Bytes.ofNat 2 bitmap ++ [if value.isSome then (1 : UInt8) else 0]).length = 3 := by
    simp
  rw [hashAt, branchCode, List.append_assoc, ← List.drop_drop, List.drop_left' width]
  generalize listed bitmap children = hashes at h ⊢
  induction hashes generalizing place with
  | nil => cases h
  | cons first rest ih =>
    rw [List.flatMap_cons, List.append_assoc]
    cases place with
    | zero => exact List.take_left' first.length_toBytes
    | succ place =>
      have next := first.length_toBytes
      rw [Nat.mul_succ, Nat.add_comm, ← List.drop_drop, List.drop_left' next]
      exact ih (Nat.lt_of_succ_lt_succ h)

theorem canonical_branch_iff {bitmap : Nat} {children : Children} {value : Option Bytes}
    (small : bitmap < 2 ^ 16) : Canonical (branchTag :: branchCode bitmap children value) ↔
      ∀ child ∈ listed bitmap children, child ≠ .zero := by
  have zeros : Hash.zero.toBytes = List.replicate 32 0 := by decide +kernel
  have places : (setBits bitmap 16).length = (listed bitmap children).length := by
    rw [listed, List.length_map]
  rw [Canonical, if_pos rfl, bitmap_of_branchCode small, places, List.forall_mem_iff_getElem]
  refine forall₂_congr fun place h => ?_
  rw [hashAt_branchCode h, ← zeros, Ne, Ne, Hash.toBytes_inj]

/-- Of the codes of a node exactly the canonical one is written. -/
theorem HasCode.encode_eq_iff {n : Node} {code : Bytes} (h : n.HasCode code) :
    n.encode = code ↔ Canonical code := by
  cases h with
  | @branch children value bitmap small covers _ =>
    rw [encode_branch, canonical_branch_iff small, ← bitmap_eq_iff small covers, List.cons.injEq]
    constructor
    · rintro ⟨-, same⟩
      rw [← bitmap_of_branchCode (bitmap_lt children), same, bitmap_of_branchCode small]
    · rintro same
      exact ⟨rfl, congrArg (branchCode · children value) same⟩
  | @extension child compact _ =>
    have path : Canonical (extensionTag :: child.toBytes ++ compact) ↔
        Nibbles.Canonical compact := by
      rw [List.cons_append, Canonical, if_neg (by decide), if_pos rfl,
        List.drop_left' child.length_toBytes]
    rw [path, ← Nibbles.compact_ofCompact_eq_iff, encode, List.append_cancel_left_eq]
  | @leaf value compact fits _ =>
    have path : Canonical (leafTag :: encodeValue value ++ compact) ↔
        Nibbles.Canonical compact := by
      have width : (Bytes.ofNat 4 value.length).length = 4 := Bytes.length_ofNat 4 _
      have spelled : Bytes.toNat (Bytes.ofNat 4 value.length) = value.length :=
        Bytes.toNat_ofNat_of_lt fits
      rw [List.cons_append, Canonical, if_neg (by decide), if_neg (by decide), encodeValue,
        List.append_assoc, List.take_left' width, spelled, ← List.drop_drop,
        List.drop_left' width, List.drop_left]
    rw [path, ← Nibbles.compact_ofCompact_eq_iff, encode, List.append_cancel_left_eq]

/-- A well-formed node is read back from its code, which no other well-formed node shares. -/
theorem encode_determines {n : Node} (h : n.WellFormed) :
    decode n.encode = .ok n ∧ ∀ m : Node, m.WellFormed → m.encode = n.encode → m = n := by
  have back := (hasCode_encode h).decode
  refine ⟨back, fun m hm same => ?_⟩
  have other := (hasCode_encode hm).decode
  rw [same, back] at other
  exact (Except.ok.inj other).symm

/-- A branch with its first and its last child and a value. -/
def firstAndLast : Node :=
  .branch ((noChildren.set 0 (.ofNat 1)).set 15 (.ofNat 2)) (some [0x76])

theorem encode_determines_firstAndLast :
    firstAndLast.WellFormed ∧ firstAndLast.encode.take 4 = [0x00, 0x80, 0x01, 0x01] ∧
      decode firstAndLast.encode = .ok firstAndLast := by
  have wellFormed : firstAndLast.WellFormed := by
    intro v mem
    obtain rfl := Option.some.inj mem
    simp [Fits]
  exact ⟨wellFormed, by decide +kernel, (encode_determines wellFormed).1⟩

/--
Whatever is read is a well-formed node, which is read back from its own code. That code is the byte
string it was read from exactly if the byte string is canonical.
-/
theorem encode_eq_iff_canonical {code : Bytes} {n : Node} (h : decode code = .ok n) :
    n.WellFormed ∧ decode n.encode = .ok n ∧ (n.encode = code ↔ Canonical code) := by
  have coded := decode_eq_ok_iff.mp h
  have wellFormed := coded.wellFormed
  exact ⟨wellFormed, (hasCode_encode wellFormed).decode, coded.encode_eq_iff⟩

/-- The code of a leaf whose path starts with an unknown flag. -/
def unknownFlag : Bytes := [0x02, 0x00, 0x00, 0x00, 0x01, 0xaa, 0x75, 0x12]

/-- The code of a branch that lists a child, which is zero. -/
def listsZero : Bytes := [0x00, 0x00, 0x01, 0x00] ++ List.replicate 32 0

/-- Both are read, and both are written otherwise. -/
theorem encode_eq_iff_canonical_readOtherwise :
    decode unknownFlag = .ok (.leaf ⟨[5, 1, 2, Nibbles.terminator]⟩ [0xaa]) ∧
    encode (.leaf ⟨[5, 1, 2, Nibbles.terminator]⟩ [0xaa]) ≠ unknownFlag ∧
    decode listsZero = .ok (.branch noChildren none) ∧
    encode (.branch noChildren none) ≠ listsZero := by
  have leaf : decode unknownFlag = .ok (.leaf ⟨[5, 1, 2, Nibbles.terminator]⟩ [0xaa]) := by
    decide +kernel
  have branch : decode listsZero = .ok (.branch noChildren none) := by
    decide +kernel
  refine ⟨leaf, ?_, branch, ?_⟩
  · rw [Ne, (encode_eq_iff_canonical leaf).2.2]
    decide +kernel
  · rw [Ne, (encode_eq_iff_canonical branch).2.2]
    decide +kernel

end StateSync.Trie.Node
