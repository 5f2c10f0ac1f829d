import StateSync.Hash.Lemmas
import StateSync.Proofs.HexPrefix
import StateSync.Trie.NodeCode

/-!
The grammar of node codes. Main statement: a byte string is decoded to a node exactly if it is one
of the codes of that node. The codes of one node differ in the children that the bitmap lists, which
may be zero, and in how the path is written.
-/

namespace StateSync.Trie.Node

theorem bind_eq_ok_iff {ε α β : Type} {x : Except ε α} {f : α → Except ε β} {b : β} :
    (x >>= f) = .ok b ↔ ∃ a, x = .ok a ∧ f a = .ok b := by
  cases x <;> simp [bind, Except.bind]

/-- The positions below `count` whose bit is set, in order. -/
def setBits (bitmap count : Nat) : List (Fin count) :=
  (List.finRange count).filter fun i => bitmap.testBit i

/-- The children that a bitmap lists, in order. -/
def listed (bitmap : Nat) {count : Nat} (children : Vector Hash count) : List Hash :=
  (setBits bitmap count).map children.get

/-- A bitmap lists every child there is. -/
def Covers (bitmap : Nat) {count : Nat} (children : Vector Hash count) : Prop :=
  ∀ i : Fin count, bitmap.testBit i = false → children.get i = .zero

/-- A value whose length can be written. -/
def Fits (value : Bytes) : Prop := value.length < 2 ^ 32

/-- The code of a branch behind its tag, under a bitmap. -/
def branchCode (bitmap : Nat) (children : Children) (value : Option Bytes) : Bytes :=
  Bytes.ofNat 2 bitmap ++ [if value.isSome then 1 else 0] ++
    (listed bitmap children).flatMap Hash.toBytes ++ (value.map encodeValue).getD []

/-- The codes of a node. -/
inductive HasCode : Node → Bytes → Prop
  | branch {children : Children} {value : Option Bytes} {bitmap : Nat} (small : bitmap < 2 ^ 16)
      (covers : Covers bitmap children) (fits : ∀ v ∈ value, Fits v) :
      HasCode (.branch children value) (branchTag :: branchCode bitmap children value)
  | extension {child : Hash} {compact : Bytes} (written : compact ≠ []) :
      HasCode (.extension (.ofCompact compact) child) (extensionTag :: child.toBytes ++ compact)
  | leaf {value compact : Bytes} (fits : Fits value) (written : compact ≠ []) :
      HasCode (.leaf (.ofCompact compact) value) (leafTag :: encodeValue value ++ compact)

theorem take_eq_ok_iff {count : Nat} {input head rest : Bytes} :
    take count input = .ok (head, rest) ↔ head.length = count ∧ input = head ++ rest := by
  unfold take
  split
  · next short =>
    constructor
    · intro h
      cases h
    · rintro ⟨rfl, rfl⟩
      rw [List.length_append] at short
      omega
  · next enough =>
    rw [Except.ok.injEq, Prod.mk.injEq]
    constructor
    · rintro ⟨rfl, rfl⟩
      refine ⟨?_, (List.take_append_drop count input).symm⟩
      rw [List.length_take]
      omega
    · rintro ⟨rfl, rfl⟩
      exact ⟨List.take_left, List.drop_left⟩

theorem take_hash_eq_ok_iff {input head rest : Bytes} : take 32 input = .ok (head, rest) ↔
    ∃ h : Hash, head = h.toBytes ∧ input = h.toBytes ++ rest := by
  rw [take_eq_ok_iff]
  constructor
  · rintro ⟨length, rfl⟩
    exact ⟨.ofBytes head, (Hash.toBytes_ofBytes length).symm, by rw [Hash.toBytes_ofBytes length]⟩
  · rintro ⟨h, rfl, rfl⟩
    exact ⟨h.length_toBytes, rfl⟩

section Children

variable {bitmap count : Nat}

theorem setBits_succ : setBits bitmap (count + 1) = (setBits bitmap count).map Fin.castSucc ++
    if bitmap.testBit count then [Fin.last count] else [] := by
  rw [setBits, List.finRange_succ_last, List.filter_append, List.filter_map]
  congr 1
  cases bit : bitmap.testBit count <;> simp [bit]

theorem listed_push (children : Vector Hash count) (child : Hash) :
    listed bitmap (children.push child) =
      listed bitmap children ++ if bitmap.testBit count then [child] else [] := by
  rw [listed, setBits_succ, List.map_append, List.map_map]
  congr 1
  · refine List.map_congr_left fun i _ => ?_
    exact Vector.get_push_castSucc children child i
  · split
    · rw [List.map_singleton, Vector.get_push_last]
    · rfl

theorem covers_push {children : Vector Hash count} {child : Hash} :
    Covers bitmap (children.push child) ↔
      Covers bitmap children ∧ (bitmap.testBit count = false → child = .zero) := by
  constructor
  · intro h
    refine ⟨fun i clear => ?_, fun clear => ?_⟩
    · rw [← Vector.get_push_castSucc children child i]
      exact h i.castSucc clear
    · rw [← Vector.get_push_last children child]
      exact h (Fin.last count) clear
  · rintro ⟨old, new⟩ i
    cases i using Fin.lastCases with
    | last =>
      rw [Vector.get_push_last]
      exact new
    | cast i =>
      rw [Vector.get_push_castSucc]
      exact old i

theorem takeChildren_eq_ok_iff {children : Vector Hash count} {input rest : Bytes} :
    takeChildren bitmap count input = .ok (children, rest) ↔
      input = (listed bitmap children).flatMap Hash.toBytes ++ rest ∧ Covers bitmap children := by
  induction count generalizing rest with
  | zero =>
    obtain rfl : children = #v[] := Vector.eq_empty
    rw [takeChildren, Except.ok.injEq, Prod.mk.injEq]
    constructor
    · rintro ⟨-, rfl⟩
      exact ⟨rfl, fun i => i.elim0⟩
    · rintro ⟨rfl, -⟩
      exact ⟨rfl, rfl⟩
  | succ count ih =>
    obtain ⟨old, child, rfl⟩ : ∃ (old : Vector Hash count) (child : Hash),
        children = old.push child := Vector.exists_push
    rw [takeChildren, bind_eq_ok_iff, listed_push, covers_push]
    cases bit : bitmap.testBit count with
    | false =>
      simp only [Bool.false_eq_true, if_false, List.append_nil, forall_const]
      constructor
      · rintro ⟨⟨found, rest'⟩, taken, same⟩
        obtain ⟨pushed, rfl⟩ := Prod.mk.inj (Except.ok.inj same)
        obtain ⟨rfl, rfl⟩ := Vector.push_eq_push.mp pushed
        obtain ⟨bytes, covers⟩ := ih.mp taken
        exact ⟨bytes, covers, rfl⟩
      · rintro ⟨bytes, covers, rfl⟩
        exact ⟨(old, rest), ih.mpr ⟨bytes, covers⟩, rfl⟩
    | true =>
      simp only [if_true, List.flatMap_append, List.flatMap_singleton, List.append_assoc,
        Bool.true_eq_false, false_implies, and_true]
      constructor
      · rintro ⟨⟨found, rest'⟩, taken, more⟩
        obtain ⟨⟨head, rest''⟩, own, same⟩ := bind_eq_ok_iff.mp more
        obtain ⟨pushed, rfl⟩ := Prod.mk.inj (Except.ok.inj same)
        obtain ⟨rfl, rfl⟩ := Vector.push_eq_push.mp pushed
        obtain ⟨bytes, covers⟩ := ih.mp taken
        obtain ⟨child, rfl, rfl⟩ := take_hash_eq_ok_iff.mp own
        rw [Hash.ofBytes_toBytes]
        exact ⟨bytes, covers⟩
      · rintro ⟨bytes, covers⟩
        refine ⟨(old, child.toBytes ++ rest), ih.mpr ⟨bytes, covers⟩, ?_⟩
        refine bind_eq_ok_iff.mpr ⟨(child.toBytes, rest), ?_, ?_⟩
        · exact take_hash_eq_ok_iff.mpr ⟨child, rfl, rfl⟩
        · rw [Hash.ofBytes_toBytes]
          rfl

end Children

theorem takeValue_eq_ok_iff {input value rest : Bytes} :
    takeValue input = .ok (value, rest) ↔ Fits value ∧ input = encodeValue value ++ rest := by
  rw [takeValue, bind_eq_ok_iff]
  constructor
  · rintro ⟨⟨length, behind⟩, taken, own⟩
    obtain ⟨width, rfl⟩ := take_eq_ok_iff.mp taken
    obtain ⟨size, rfl⟩ := take_eq_ok_iff.mp own
    have bound := Bytes.toNat_lt length
    rw [width] at bound
    refine ⟨?_, ?_⟩
    · rw [Fits, size]
      omega
    · rw [encodeValue, size, ← width, Bytes.ofNat_toNat, List.append_assoc]
  · rintro ⟨fits, rfl⟩
    refine ⟨(Bytes.ofNat 4 value.length, value ++ rest), take_eq_ok_iff.mpr ⟨?_, ?_⟩, ?_⟩
    · exact Bytes.length_ofNat 4 _
    · rw [encodeValue, List.append_assoc]
    · exact take_eq_ok_iff.mpr ⟨(Bytes.toNat_ofNat_of_lt fits).symm, rfl⟩

theorem takeOptionalValue_eq_ok_iff {flag : Bool} {input rest : Bytes} {value : Option Bytes} :
    takeOptionalValue flag input = .ok (value, rest) ↔
      value.isSome = flag ∧ (∀ v ∈ value, Fits v) ∧
        input = (value.map encodeValue).getD [] ++ rest := by
  cases flag with
  | false =>
    rw [takeOptionalValue, if_neg Bool.false_ne_true, Except.ok.injEq, Prod.mk.injEq]
    constructor
    · rintro ⟨rfl, rfl⟩
      simp
    · rintro ⟨absent, -, rfl⟩
      rw [Option.isSome_eq_false_iff, Option.isNone_iff_eq_none] at absent
      subst absent
      exact ⟨rfl, rfl⟩
  | true =>
    rw [takeOptionalValue, if_pos rfl]
    constructor
    · intro h
      cases found : takeValue input with
      | error fault => rw [found] at h; cases h
      | ok pair =>
        rw [found] at h
        obtain ⟨rfl, rfl⟩ := Prod.mk.inj (Except.ok.inj h)
        obtain ⟨fits, same⟩ := takeValue_eq_ok_iff.mp found
        refine ⟨rfl, fun v mem => ?_, same⟩
        obtain rfl := Option.some.inj mem
        exact fits
    · rintro ⟨present, fits, rfl⟩
      obtain ⟨v, rfl⟩ := Option.isSome_iff_exists.mp present
      have found : takeValue (encodeValue v ++ rest) = .ok (v, rest) :=
        takeValue_eq_ok_iff.mpr ⟨fits v rfl, rfl⟩
      change (takeValue (encodeValue v ++ rest)).map _ = _
      rw [found]
      rfl

theorem takeFlag_eq_ok_iff {bytes : Bytes} {flag : Bool} :
    takeFlag bytes = .ok flag ↔ bytes = [if flag then 1 else 0] := by
  unfold takeFlag
  split
  · cases flag <;> simp
  · cases flag <;> simp
  · next notZero notOne =>
    cases flag
    · simpa using notZero
    · simpa using notOne

theorem decodeBranch_branchCode {children : Children} {value : Option Bytes} {bitmap : Nat}
    (small : bitmap < 2 ^ 16) (covers : Covers bitmap children) (fits : ∀ v ∈ value, Fits v) :
    decodeBranch (branchCode bitmap children value) = .ok (.branch children value) := by
  have two := Bytes.length_ofNat 2 bitmap
  have spelled : Bytes.toNat (Bytes.ofNat 2 bitmap) = bitmap := Bytes.toNat_ofNat_of_lt small
  let head := Bytes.ofNat 2 bitmap ++ [if value.isSome then 1 else 0]
  let hashes := (listed bitmap children).flatMap Hash.toBytes
  let last := (value.map encodeValue).getD []
  have headTaken : take 3 (branchCode bitmap children value) = .ok (head, hashes ++ last) :=
    take_eq_ok_iff.mpr ⟨by simp [head], by simp only [branchCode, head, hashes, last,
      List.append_assoc]⟩
  have flagTaken : takeFlag (head.drop 2) = .ok value.isSome :=
    takeFlag_eq_ok_iff.mpr (List.drop_left' two)
  have childrenTaken : takeChildren (Bytes.toNat (head.take 2)) 16 (hashes ++ last) =
      .ok (children, last) := by
    rw [List.take_left' two, spelled]
    exact takeChildren_eq_ok_iff.mpr ⟨rfl, covers⟩
  have valueTaken : takeOptionalValue value.isSome last = .ok (value, []) :=
    takeOptionalValue_eq_ok_iff.mpr ⟨rfl, fits, (List.append_nil last).symm⟩
  refine bind_eq_ok_iff.mpr ⟨_, headTaken, bind_eq_ok_iff.mpr ⟨_, flagTaken, ?_⟩⟩
  exact bind_eq_ok_iff.mpr ⟨_, childrenTaken, bind_eq_ok_iff.mpr ⟨_, valueTaken, rfl⟩⟩

theorem hasCode_of_decodeBranch {input : Bytes} {n : Node} (h : decodeBranch input = .ok n) :
    n.HasCode (branchTag :: input) := by
  obtain ⟨⟨head, rest⟩, headTaken, afterHead⟩ := bind_eq_ok_iff.mp h
  obtain ⟨flag, flagTaken, afterFlag⟩ := bind_eq_ok_iff.mp afterHead
  obtain ⟨⟨children, rest'⟩, childrenTaken, afterChildren⟩ := bind_eq_ok_iff.mp afterFlag
  obtain ⟨⟨value, rest''⟩, valueTaken, ending⟩ := bind_eq_ok_iff.mp afterChildren
  obtain ⟨three, rfl⟩ := take_eq_ok_iff.mp headTaken
  obtain ⟨rfl, covers⟩ := takeChildren_eq_ok_iff.mp childrenTaken
  obtain ⟨rfl, fits, rfl⟩ := takeOptionalValue_eq_ok_iff.mp valueTaken
  rw [takeFlag_eq_ok_iff] at flagTaken
  dsimp only at ending
  split at ending
  · next done =>
    obtain rfl := List.isEmpty_iff.mp done
    obtain rfl := Except.ok.inj ending
    have two : (head.take 2).length = 2 := by
      rw [List.length_take]
      omega
    have bound := Bytes.toNat_lt (head.take 2)
    have spelled := Bytes.ofNat_toNat (head.take 2)
    rw [two] at bound spelled
    have code : branchCode (Bytes.toNat (head.take 2)) children value =
        head ++ ((listed (Bytes.toNat (head.take 2)) children).flatMap Hash.toBytes ++
          ((value.map encodeValue).getD [] ++ [])) := by
      rw [branchCode, spelled, ← flagTaken, List.take_append_drop, List.append_nil,
        List.append_assoc]
    rw [← code]
    exact .branch (by omega) covers fits
  · cases ending

theorem hasCode_of_decodeExtension {input : Bytes} {n : Node}
    (h : decodeExtension input = .ok n) : n.HasCode (extensionTag :: input) := by
  obtain ⟨⟨head, compact⟩, taken, ending⟩ := bind_eq_ok_iff.mp h
  obtain ⟨child, rfl, rfl⟩ := take_hash_eq_ok_iff.mp taken
  dsimp only at ending
  split at ending
  · cases ending
  · next written =>
    obtain rfl := Except.ok.inj ending
    rw [Hash.ofBytes_toBytes]
    exact .extension (mt List.isEmpty_iff.mpr written)

theorem hasCode_of_decodeLeaf {input : Bytes} {n : Node} (h : decodeLeaf input = .ok n) :
    n.HasCode (leafTag :: input) := by
  obtain ⟨⟨value, compact⟩, taken, ending⟩ := bind_eq_ok_iff.mp h
  obtain ⟨fits, rfl⟩ := takeValue_eq_ok_iff.mp taken
  dsimp only at ending
  split at ending
  · cases ending
  · next written =>
    obtain rfl := Except.ok.inj ending
    exact .leaf fits (mt List.isEmpty_iff.mpr written)

theorem HasCode.decode {n : Node} {code : Bytes} (h : n.HasCode code) :
    decode code = .ok n := by
  cases h with
  | branch small covers fits => exact decodeBranch_branchCode small covers fits
  | @extension child compact written =>
    refine bind_eq_ok_iff.mpr ⟨(child.toBytes, compact), ?_, ?_⟩
    · exact take_hash_eq_ok_iff.mpr ⟨child, rfl, rfl⟩
    · dsimp only
      rw [if_neg (mt List.isEmpty_iff.mp written), Hash.ofBytes_toBytes]
  | @leaf value compact fits written =>
    refine bind_eq_ok_iff.mpr ⟨(value, compact), takeValue_eq_ok_iff.mpr ⟨fits, rfl⟩, ?_⟩
    dsimp only
    rw [if_neg (mt List.isEmpty_iff.mp written)]

/-- A byte string is decoded to a node exactly if it is a code of it. -/
theorem decode_eq_ok_iff {code : Bytes} {n : Node} : decode code = .ok n ↔ n.HasCode code := by
  refine ⟨fun h => ?_, HasCode.decode⟩
  cases code with
  | nil => cases h
  | cons tag rest =>
    rw [decode] at h
    split_ifs at h with branch extension leaf
    · exact branch ▸ hasCode_of_decodeBranch h
    · exact extension ▸ hasCode_of_decodeExtension h
    · exact leaf ▸ hasCode_of_decodeLeaf h

end StateSync.Trie.Node
