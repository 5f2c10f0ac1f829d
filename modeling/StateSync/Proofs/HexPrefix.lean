import StateSync.Proofs.Nibbles
import StateSync.Trie.HexPrefix

/-!
The hex-prefix code of paths. Main statements: a well-formed path is read back from its code, any
byte string is read as a well-formed path, and the code of that path is the byte string again
exactly if it is canonical.
-/

namespace StateSync.Trie.Nibbles

variable {steps : List UInt8}

theorem toNat_pair {high low : UInt8} (hhigh : high < 16) (hlow : low < 16) :
    (high * 16 + low).toNat = high.toNat * 16 + low.toNat := by
  have hhigh' : high.toNat < 16 := UInt8.lt_iff_toNat_lt.mp hhigh
  have hlow' : low.toNat < 16 := UInt8.lt_iff_toNat_lt.mp hlow
  rw [UInt8.toNat_add, UInt8.toNat_mul]
  change (high.toNat * 16 % 256 + low.toNat) % 256 = _
  omega

theorem high_of_pair {high low : UInt8} (hhigh : high < 16) (hlow : low < 16) :
    (high * 16 + low) / 16 = high ∧ (high * 16 + low) % 16 = low := by
  have sum := toNat_pair hhigh hlow
  have hlow' : low.toNat < 16 := UInt8.lt_iff_toNat_lt.mp hlow
  constructor
  · apply UInt8.toNat_inj.mp
    rw [UInt8.toNat_div, sum]
    change _ / 16 = _
    omega
  · apply UInt8.toNat_inj.mp
    rw [UInt8.toNat_mod, sum]
    change _ % 16 = _
    omega

theorem pair_of_halves (b : UInt8) : b / 16 * 16 + b % 16 = b := by
  apply UInt8.toNat_inj.mp
  have bound := b.toNat_lt
  rw [UInt8.toNat_add, UInt8.toNat_mul, UInt8.toNat_div, UInt8.toNat_mod]
  change (b.toNat / 16 * 16 % 256 + b.toNat % 16) % 256 = b.toNat
  omega

/-- Splitting undoes packing on an even number of nibbles. -/
theorem split_pack (nibbles : ∀ step ∈ steps, step < 16) (even : steps.length % 2 = 0) :
    split (pack steps) = steps := by
  induction steps using pack.induct with
  | case1 high low rest ih =>
    rw [List.forall_mem_cons, List.forall_mem_cons] at nibbles
    obtain ⟨hhigh, hlow, hrest⟩ := nibbles
    rw [List.length_cons, List.length_cons] at even
    obtain ⟨first, second⟩ := high_of_pair hhigh hlow
    rw [pack, split_cons, first, second, ih hrest (by omega)]
  | case2 steps short =>
    rcases steps with _ | ⟨high, _ | ⟨low, rest⟩⟩
    · rfl
    · simp at even
    · exact (short high low rest rfl).elim

theorem pack_split (bs : Bytes) : pack (split bs) = bs := by
  induction bs with
  | nil => rfl
  | cons b bs ih => rw [split_cons, pack, pair_of_halves, ih]

theorem packed_of_even (leaf : Bool) (even : steps.length % 2 = 0) :
    packed leaf steps = flag leaf :: pack steps := by
  simp [packed, even]

theorem packed_of_odd {first : UInt8} (leaf : Bool) (odd : (first :: steps).length % 2 = 1) :
    packed leaf (first :: steps) = (flag leaf + (0x10 + first)) :: pack steps := by
  rw [packed]
  exact odd

theorem packed_ne_nil (leaf : Bool) (steps : List UInt8) : packed leaf steps ≠ [] := by
  unfold packed
  split <;> exact List.cons_ne_nil _ _

theorem marks_flag (leaf : Bool) :
    marksOdd (flag leaf) = false ∧ marksLeaf (flag leaf) = leaf := by
  cases leaf <;> decide

theorem marks_flag_add {first : UInt8} (leaf : Bool) (small : first < 16) :
    marksOdd (flag leaf + (0x10 + first)) = true ∧
      marksLeaf (flag leaf + (0x10 + first)) = leaf ∧
      (flag leaf + (0x10 + first)) % 16 = first := by
  obtain ⟨first⟩ := first
  revert first leaf
  decide +kernel

/-- The step that the first byte carries. -/
def oddStep (first : UInt8) : List UInt8 := if marksOdd first then [first % 16] else []

theorem ofCompact_cons (first : UInt8) (rest : Bytes) :
    ofCompact (first :: rest) = ofSteps (oddStep first ++ split rest) (marksLeaf first) := rfl

theorem oddStep_append_split_lt (first : UInt8) (rest : Bytes) :
    ∀ step ∈ oddStep first ++ split rest, step < 16 := by
  intro step h
  rcases List.mem_append.mp h with own | packed
  · rw [oddStep] at own
    split at own
    · obtain rfl := List.mem_singleton.mp own
      exact UInt8.mod_lt first (by decide)
    · cases own
  · exact split_lt rest step packed

theorem ofCompact_packed (nibbles : ∀ step ∈ steps, step < 16) (leaf : Bool) :
    ofCompact (packed leaf steps) = ofSteps steps leaf := by
  rcases Nat.mod_two_eq_zero_or_one steps.length with even | odd
  · obtain ⟨notOdd, marked⟩ := marks_flag leaf
    rw [packed_of_even leaf even, ofCompact_cons, oddStep, notOdd, marked, split_pack nibbles even]
    rfl
  · rcases steps with _ | ⟨first, rest⟩
    · cases odd
    · rw [List.forall_mem_cons] at nibbles
      obtain ⟨isOdd, marked, own⟩ := marks_flag_add leaf nibbles.1
      rw [List.length_cons] at odd
      rw [packed_of_odd leaf odd, ofCompact_cons, oddStep, isOdd, marked, own,
        split_pack nibbles.2 (by omega)]
      rfl

/-- A well-formed path is read back from its code. -/
theorem ofCompact_compact {n : Nibbles} (h : n.WellFormed) : ofCompact n.compact = n := by
  rw [compact, ofCompact_packed h, ofSteps_steps]

/-- Any byte string is read as a well-formed path. -/
theorem wellFormed_ofCompact (code : Bytes) : (ofCompact code).WellFormed := by
  cases code with
  | nil => intro step h; cases h
  | cons first rest => exact wellFormed_ofSteps (oddStep_append_split_lt first rest) _

/-- The first byte that is written for what a first byte is read as. -/
def normalFirst (first : UInt8) : UInt8 :=
  if marksOdd first then flag (marksLeaf first) + (0x10 + first % 16) else flag (marksLeaf first)

/-- Only the first byte can change when a path is written again. -/
theorem compact_ofCompact_cons (first : UInt8) (rest : Bytes) :
    (ofCompact (first :: rest)).compact = normalFirst first :: rest := by
  have nibbles := oddStep_append_split_lt first rest
  have length := length_split rest
  rw [ofCompact_cons, compact, isLeaf_ofSteps nibbles, steps_ofSteps nibbles, oddStep, normalFirst]
  cases marksOdd first with
  | true =>
    simp only [if_true, List.singleton_append]
    rw [packed_of_odd, pack_split]
    rw [List.length_cons]
    omega
  | false =>
    simp only [Bool.false_eq_true, if_false, List.nil_append]
    rw [packed_of_even, pack_split]
    omega

theorem normalFirst_eq_iff (first : UInt8) :
    normalFirst first = first ↔ first / 16 ≤ 3 ∧ (first / 16 % 2 = 0 → first % 16 = 0) := by
  obtain ⟨first⟩ := first
  revert first
  decide +kernel

/-- A byte string is the code of its path exactly if it is canonical. -/
theorem compact_ofCompact_eq_iff (code : Bytes) :
    (ofCompact code).compact = code ↔ Canonical code := by
  cases code with
  | nil => exact ⟨fun h => (by cases h), False.elim⟩
  | cons first rest =>
    rw [compact_ofCompact_cons, List.cons.injEq, normalFirst_eq_iff]
    exact and_iff_left rfl

end StateSync.Trie.Nibbles
