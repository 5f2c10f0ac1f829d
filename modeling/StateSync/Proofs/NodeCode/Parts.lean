import StateSync.Proofs.NodeCode.Grammar

/-!
The parts of a node code, as they lie in its bytes. Main statements: the codes of a node are those
that are put together of parts which make the node, and no byte string is put together of parts in
two ways.
-/

namespace StateSync.Trie.Node

/-- A value as it lies in a code, behind the bytes of its length. -/
structure WrittenValue where
  length : Bytes
  bytes : Bytes

namespace WrittenValue

variable {v w : WrittenValue}

def spelled (v : WrittenValue) : Bytes := v.length ++ v.bytes

/-- The length takes four bytes and is that of the value. -/
structure Valid (v : WrittenValue) : Prop where
  four : v.length.length = 4
  exact : v.bytes.length = Bytes.toNat v.length

theorem Valid.spelled_eq (h : v.Valid) : v.spelled = encodeValue v.bytes := by
  rw [spelled, encodeValue, h.exact, ← h.four, Bytes.ofNat_toNat]

theorem Valid.fits (h : v.Valid) : Fits v.bytes := by
  have bound := Bytes.toNat_lt v.length
  rw [h.four] at bound
  rw [Fits, h.exact]
  omega

/-- A value and its length. -/
def ofValue (value : Bytes) : WrittenValue := ⟨Bytes.ofNat 4 value.length, value⟩

theorem valid_ofValue {value : Bytes} (fits : Fits value) : (ofValue value).Valid :=
  ⟨Bytes.length_ofNat 4 _, (Bytes.toNat_ofNat_of_lt fits).symm⟩

/-- The length tells where a value ends. -/
theorem Valid.append_inj (hv : v.Valid) (hw : w.Valid) {rest rest' : Bytes}
    (same : v.spelled ++ rest = w.spelled ++ rest') : v = w ∧ rest = rest' := by
  rw [spelled, spelled, List.append_assoc, List.append_assoc] at same
  obtain ⟨length, same⟩ := List.append_inj same (hv.four.trans hw.four.symm)
  have size : v.bytes.length = w.bytes.length := by rw [hv.exact, hw.exact, length]
  obtain ⟨bytes, rest⟩ := List.append_inj same size
  refine ⟨?_, rest⟩
  cases v
  cases w
  simp only at length bytes
  rw [length, bytes]

end WrittenValue

/-- The parts of a code behind its tag; the flag of a branch tells whether there is a value. -/
inductive Parts
  | branch (bitmap : Bytes) (hashes : List Bytes) (value : Option WrittenValue)
  | extension (child compact : Bytes)
  | leaf (value : WrittenValue) (compact : Bytes)

namespace Parts

/-- The bytes in which the parts lie, one behind the other. -/
def bytes : Parts → Bytes
  | branch bitmap hashes value =>
    branchTag :: (bitmap ++ [if value.isSome then 1 else 0] ++ hashes.flatten ++
      (value.map WrittenValue.spelled).getD [])
  | extension child compact => extensionTag :: (child ++ compact)
  | leaf value compact => leafTag :: (value.spelled ++ compact)

/-- The parts have the sizes that the grammar asks for. -/
inductive Valid : Parts → Prop
  | branch {bitmap : Bytes} {hashes : List Bytes} {value : Option WrittenValue}
      (two : bitmap.length = 2)
      (count : hashes.length = (setBits (Bytes.toNat bitmap) 16).length)
      (widths : ∀ hash ∈ hashes, hash.length = 32) (exact : ∀ v ∈ value, v.Valid) :
      Valid (.branch bitmap hashes value)
  | extension {child compact : Bytes} (width : child.length = 32) (more : compact ≠ []) :
      Valid (.extension child compact)
  | leaf {value : WrittenValue} {compact : Bytes} (exact : value.Valid) (more : compact ≠ []) :
      Valid (.leaf value compact)

/-- The child at a set bit is the hash at the place that the bit has among the set ones. -/
def childAt (bitmap : Nat) (hashes : List Bytes) (i : Fin 16) : Hash :=
  if bitmap.testBit i then .ofBytes (hashes.getD ((setBits bitmap 16).idxOf i) []) else .zero

/-- The node that the parts make. -/
def node : Parts → Node
  | branch bitmap hashes value =>
    .branch (Vector.ofFn (childAt (Bytes.toNat bitmap) hashes)) (value.map WrittenValue.bytes)
  | extension child compact => .extension (.ofCompact compact) (.ofBytes child)
  | leaf value compact => .leaf (.ofCompact compact) value.bytes

/-- A byte string is put together of some parts. -/
structure Spell (parts : Parts) (code : Bytes) : Prop where
  valid : parts.Valid
  bytes : parts.bytes = code

section Children

variable {bitmap : Nat} {hashes : List Bytes}

theorem nodup_setBits (bitmap count : Nat) : (setBits bitmap count).Nodup :=
  (List.nodup_finRange count).filter _

theorem mem_setBits {count : Nat} {i : Fin count} :
    i ∈ setBits bitmap count ↔ bitmap.testBit i = true := by
  simp [setBits]

theorem covers_ofFn_childAt (bitmap : Nat) (hashes : List Bytes) :
    Covers bitmap (Vector.ofFn (childAt bitmap hashes)) := by
  intro i clear
  rw [Vector.get_ofFn, childAt, if_neg (by simp [clear])]

/-- The children at the set bits are the hashes, in their order. -/
theorem listed_ofFn_childAt (count : hashes.length = (setBits bitmap 16).length) :
    listed bitmap (Vector.ofFn (childAt bitmap hashes)) = hashes.map Hash.ofBytes := by
  apply List.ext_getElem
  · rw [listed, List.length_map, List.length_map, count]
  · intro place hplace hplace'
    rw [listed, List.length_map] at hplace
    have set := mem_setBits.mp (List.getElem_mem hplace)
    have bound : place < hashes.length := count ▸ hplace
    simp only [listed, List.getElem_map, Vector.get_ofFn, childAt, if_pos set,
      (nodup_setBits bitmap 16).idxOf_getElem place hplace, List.getD_eq_getElem _ _ bound]

/-- Children are found again from the hashes of those that are listed. -/
theorem ofFn_childAt_listed {children : Children} (covers : Covers bitmap children) :
    Vector.ofFn (childAt bitmap ((listed bitmap children).map Hash.toBytes)) = children := by
  apply Vector.ext
  intro i hi
  rw [Vector.getElem_ofFn, childAt]
  cases bit : bitmap.testBit i with
  | false =>
    rw [if_neg Bool.false_ne_true]
    exact (covers ⟨i, hi⟩ bit).symm
  | true =>
    have place := List.idxOf_lt_length_iff.mpr (mem_setBits (i := (⟨i, hi⟩ : Fin 16)).mpr bit)
    rw [if_pos rfl, List.getD_eq_getElem _ _ (by simpa [listed] using place), List.getElem_map,
      Hash.ofBytes_toBytes]
    simp only [listed, List.getElem_map, List.getElem_idxOf]
    rfl

theorem flatMap_toBytes_map_ofBytes (widths : ∀ hash ∈ hashes, hash.length = 32) :
    (hashes.map Hash.ofBytes).flatMap Hash.toBytes = hashes.flatten := by
  induction hashes with
  | nil => rfl
  | cons hash hashes ih =>
    obtain ⟨width, widths⟩ := List.forall_mem_cons.mp widths
    rw [List.map_cons, List.flatMap_cons, Hash.toBytes_ofBytes width, ih widths, List.flatten_cons]

end Children

/-- What is put together of parts is a code of the node that they make. -/
theorem Valid.hasCode {parts : Parts} (h : parts.Valid) : parts.node.HasCode parts.bytes := by
  cases h with
  | @branch bitmap hashes value two count widths exact =>
    have bound := Bytes.toNat_lt bitmap
    have spelled := Bytes.ofNat_toNat bitmap
    rw [two] at bound spelled
    have values : ((value.map WrittenValue.bytes).map encodeValue).getD [] =
        (value.map WrittenValue.spelled).getD [] := by
      cases value with
      | none => rfl
      | some v => exact (exact v rfl).spelled_eq.symm
    have code : (Parts.branch bitmap hashes value).bytes = branchTag :: branchCode
        (Bytes.toNat bitmap) (Vector.ofFn (childAt (Bytes.toNat bitmap) hashes))
        (value.map WrittenValue.bytes) := by
      rw [branchCode, spelled, listed_ofFn_childAt count, flatMap_toBytes_map_ofBytes widths,
        values, Option.isSome_map]
      rfl
    rw [code]
    refine .branch (by omega) (covers_ofFn_childAt _ _) fun v mem => ?_
    obtain ⟨written, has, rfl⟩ := Option.mem_map.mp mem
    exact (exact written has).fits
  | @extension child compact width more =>
    have code : HasCode (.extension (.ofCompact compact) (.ofBytes child)) _ := .extension more
    rwa [Hash.toBytes_ofBytes width] at code
  | @leaf value compact exact more =>
    have code := HasCode.leaf exact.fits more
    rwa [← exact.spelled_eq] at code

/-- Every code of a node is put together of parts that make the node. -/
theorem exists_spell {n : Node} {code : Bytes} (h : n.HasCode code) :
    ∃ parts : Parts, parts.Spell code ∧ parts.node = n := by
  cases h with
  | @branch children value bitmap small covers fits =>
    have spelled : Bytes.toNat (Bytes.ofNat 2 bitmap) = bitmap := Bytes.toNat_ofNat_of_lt small
    refine ⟨.branch (Bytes.ofNat 2 bitmap) ((listed bitmap children).map Hash.toBytes)
      (value.map .ofValue), ⟨.branch (Bytes.length_ofNat 2 _) ?_ ?_ ?_, ?_⟩, ?_⟩
    · rw [spelled, List.length_map, listed, List.length_map]
    · intro hash mem
      obtain ⟨child, -, rfl⟩ := List.mem_map.mp mem
      exact child.length_toBytes
    · intro v mem
      obtain ⟨bytes, has, rfl⟩ := Option.mem_map.mp mem
      exact WrittenValue.valid_ofValue (fits bytes has)
    · rw [Parts.bytes, branchCode, List.flatMap_def]
      cases value <;> rfl
    · rw [node, spelled, ofFn_childAt_listed covers]
      cases value <;> rfl
  | @extension child compact written =>
    exact ⟨.extension child.toBytes compact, ⟨.extension child.length_toBytes written, rfl⟩,
      congrArg (Node.extension _) (Hash.ofBytes_toBytes child)⟩
  | @leaf value compact fits written =>
    exact ⟨.leaf (.ofValue value) compact, ⟨.leaf (WrittenValue.valid_ofValue fits) written, rfl⟩,
      rfl⟩

/-- Hashes are told apart in the bytes that they take one behind the other. -/
theorem hashes_append_inj {hashes hashes' : List Bytes} {rest rest' : Bytes}
    (widths : ∀ hash ∈ hashes, hash.length = 32) (widths' : ∀ hash ∈ hashes', hash.length = 32)
    (count : hashes.length = hashes'.length)
    (same : hashes.flatten ++ rest = hashes'.flatten ++ rest') :
    hashes = hashes' ∧ rest = rest' := by
  have sizes : hashes.map List.length = hashes'.map List.length := by
    rw [List.map_eq_replicate_iff.mpr widths, List.map_eq_replicate_iff.mpr widths', count]
  have size : hashes.flatten.length = hashes'.flatten.length := by
    rw [List.length_flatten, List.length_flatten, sizes]
  obtain ⟨flat, rest⟩ := List.append_inj same size
  exact ⟨List.eq_iff_flatten_eq.mpr ⟨flat, sizes⟩, rest⟩

/-- A byte string is put together of parts in one way at most. -/
theorem Spell.unique {parts parts' : Parts} {code : Bytes} (h : parts.Spell code)
    (h' : parts'.Spell code) : parts = parts' := by
  have same := h.bytes.trans h'.bytes.symm
  cases h.valid with
  | @branch bitmap hashes value two count widths exact =>
    cases h'.valid with
    | @branch bitmap' hashes' value' two' count' widths' exact' =>
      simp only [Parts.bytes, List.cons.injEq, true_and, List.append_assoc] at same
      obtain ⟨rfl, behindBitmap⟩ := List.append_inj same (two.trans two'.symm)
      obtain ⟨flag, behindFlag⟩ := List.cons.inj behindBitmap
      obtain ⟨rfl, values⟩ :=
        hashes_append_inj widths widths' (count.trans count'.symm) behindFlag
      cases value with
      | none =>
        cases value' with
        | none => rfl
        | some v' => exact absurd flag (by simp)
      | some v =>
        cases value' with
        | none => exact absurd flag (by simp)
        | some v' =>
          obtain ⟨rfl, -⟩ := (exact v rfl).append_inj (exact' v' rfl) (congrArg (· ++ []) values)
          rfl
    | extension | leaf => exact absurd (List.cons.inj same).1 (by decide)
  | @extension child compact width more =>
    cases h'.valid with
    | extension width' more' =>
      obtain ⟨rfl, rfl⟩ := List.append_inj (List.cons.inj same).2 (width.trans width'.symm)
      rfl
    | branch | leaf => exact absurd (List.cons.inj same).1 (by decide)
  | @leaf value compact exact more =>
    cases h'.valid with
    | leaf exact' more' =>
      obtain ⟨rfl, rfl⟩ := exact.append_inj exact' (List.cons.inj same).2
      rfl
    | branch | extension => exact absurd (List.cons.inj same).1 (by decide)

/-- A byte string is decoded exactly if it is put together of parts, and to the node they make. -/
theorem decode_eq_ok_iff_spell {code : Bytes} {n : Node} :
    decode code = .ok n ↔ ∃ parts : Parts, parts.Spell code ∧ parts.node = n := by
  rw [decode_eq_ok_iff]
  refine ⟨exists_spell, ?_⟩
  rintro ⟨parts, ⟨valid, rfl⟩, rfl⟩
  exact valid.hasCode

end Parts

end StateSync.Trie.Node
