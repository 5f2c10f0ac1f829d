import StateSync.Proofs.NodeCode.Strict

/-!
The path code as it is put into a buffer, byte by byte. A byte that would not hold its number breaks
the writer down. For a well-formed path it never does: the writer leaves what was in the buffer and
puts the code behind it, and the code is read as the path again, in half-bytes as in one go.
-/

namespace StateSync.Trie.Nibbles

/-- The byte of a number, which must fit into one. -/
def byte? (number : Nat) : Option UInt8 := if number < 256 then some (.ofNat number) else none

/-- Puts steps at the end of a buffer, two to a byte. -/
def pushPairs? (buffer : Bytes) : List UInt8 → Option Bytes
  | high :: low :: rest => do
    let pair ← byte? (high.toNat * 16 + low.toNat)
    pushPairs? (buffer ++ [pair]) rest
  | _ => some buffer

/-- Puts the code of a path at the end of a buffer: an odd first step, the others in pairs. -/
def pushCompact? (buffer : Bytes) (n : Nibbles) : Option Bytes :=
  let mark := if n.isLeaf then 0x20 else 0x00
  if n.steps.length % 2 = 1 then do
    let odd ← n.steps.head?
    let first ← byte? (0x10 + odd.toNat + mark)
    pushPairs? (buffer ++ [first]) n.steps.tail
  else do
    let first ← byte? mark
    pushPairs? (buffer ++ [first]) n.steps

theorem byte?_toNat (b : UInt8) : byte? b.toNat = some b := by
  rw [byte?, if_pos b.toNat_lt, UInt8.ofNat_toNat]

theorem pushPairs?_eq {steps : List UInt8} (nibbles : ∀ step ∈ steps, step < 16) (buffer : Bytes) :
    pushPairs? buffer steps = some (buffer ++ pack steps) := by
  induction steps using pack.induct generalizing buffer with
  | case1 high low rest ih =>
    rw [List.forall_mem_cons, List.forall_mem_cons] at nibbles
    obtain ⟨hhigh, hlow, hrest⟩ := nibbles
    have fits : byte? (high.toNat * 16 + low.toNat) = some (high * 16 + low) := by
      rw [← toNat_pair hhigh hlow]
      exact byte?_toNat _
    rw [pushPairs?, fits, pack, List.append_cons]
    exact ih hrest _
  | case2 steps short =>
    rw [pack, List.append_nil]
    · exact pushPairs?.eq_2 buffer steps short
    · exact short

/-- The first byte holds its mark and the odd step. -/
theorem byte?_first {odd : UInt8} (small : odd < 16) (leaf : Bool) :
    byte? (0x10 + odd.toNat + if leaf then 0x20 else 0x00) = some (flag leaf + (0x10 + odd)) := by
  have small' : odd.toNat < 16 := UInt8.lt_iff_toNat_lt.mp small
  have sum : (flag leaf + (0x10 + odd)).toNat = 0x10 + odd.toNat + if leaf then 0x20 else 0x00 := by
    rw [UInt8.toNat_add, UInt8.toNat_add]
    cases leaf with
    | true =>
      change (32 + (16 + odd.toNat) % 256) % 256 = 16 + odd.toNat + 32
      omega
    | false =>
      change (0 + (16 + odd.toNat) % 256) % 256 = 16 + odd.toNat + 0
      omega
  rw [← sum]
  exact byte?_toNat _

/-- A well-formed path is written behind what the buffer holds. -/
theorem pushCompact?_eq {n : Nibbles} (h : n.WellFormed) (buffer : Bytes) :
    n.pushCompact? buffer = some (buffer ++ n.compact) := by
  unfold pushCompact? compact
  unfold WellFormed at h
  generalize n.isLeaf = leaf
  generalize n.steps = steps at h ⊢
  dsimp only
  split
  · next odd =>
    cases steps with
    | nil => cases odd
    | cons first rest =>
      obtain ⟨hfirst, hrest⟩ := List.forall_mem_cons.mp h
      rw [packed_of_odd leaf odd, List.append_cons]
      change (byte? _ >>= fun _ => _) = _
      rw [byte?_first hfirst leaf]
      exact pushPairs?_eq hrest _
  · next notOdd =>
    have even : steps.length % 2 = 0 := by omega
    have fits : byte? (if leaf then 0x20 else 0x00) = some (flag leaf) := by
      cases leaf <;> rfl
    rw [packed_of_even leaf even, List.append_cons, fits]
    exact pushPairs?_eq h _

/--
A well-formed path is written behind what a buffer holds, and read back from its code. Every byte
string is read, step for step without breaking down, as a well-formed path; the code of that path is
read as the same path, and is the byte string itself exactly if that is canonical.
-/
theorem pathCode_exact :
    (∀ (n : Nibbles) (buffer : Bytes), n.WellFormed →
      ofCompact n.compact = n ∧ n.pushCompact? buffer = some (buffer ++ n.compact)) ∧
    ∀ code : Bytes, (ofCompact? code).run = some (.ok (ofCompact code)) ∧
      (ofCompact code).WellFormed ∧ ofCompact (ofCompact code).compact = ofCompact code ∧
      ((ofCompact code).compact = code ↔ Canonical code) := by
  constructor
  · intro n buffer h
    exact ⟨ofCompact_compact h, pushCompact?_eq h buffer⟩
  · intro code
    have whole := wellFormed_ofCompact code
    exact ⟨congrArg ExceptT.run (ofCompact?_eq code), whole, ofCompact_compact whole,
      compact_ofCompact_eq_iff code⟩

/-- Three steps to a leaf are put behind a byte; a code with unused bits is read but not written. -/
theorem pathCode_exact_oddLeaf :
    let path : Nibbles := ⟨[1, 2, 3, 16]⟩
    path.WellFormed ∧ path.pushCompact? [0xff] = some [0xff, 0x31, 0x23] ∧
      ofCompact [0x31, 0x23] = path ∧ ofCompact [0x7f, 0x12] = ⟨[15, 1, 2, 16]⟩ ∧
      (ofCompact [0x7f, 0x12]).compact ≠ [0x7f, 0x12] := by
  intro path
  have whole : path.WellFormed := by
    unfold WellFormed
    decide +kernel
  obtain ⟨back, pushed⟩ := pathCode_exact.1 path [0xff] whole
  have written : path.compact = [0x31, 0x23] := by decide +kernel
  rw [written] at back pushed
  refine ⟨whole, pushed, back, by decide +kernel, ?_⟩
  intro same
  have canonical := ((pathCode_exact.2 [0x7f, 0x12]).2.2.2).mp same
  revert canonical
  decide

end StateSync.Trie.Nibbles
