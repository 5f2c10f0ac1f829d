import StateSync.Hash.Lemmas
import StateSync.Proofs.HexPrefix
import StateSync.Trie.Key

/-!
The bytes of a position tell its owner and its steps. They end in the number of steps modulo 256
only, but the joined steps before it take half as many bytes, rounded up: the bytes give the number
up to one step, and its last byte tells the two apart. The terminator alone is not in them.
-/

namespace StateSync.Trie

namespace Nibbles

variable {steps others : List UInt8}

/-- Joined nibbles do not overlap. -/
theorem joined_eq_pair {high low : UInt8} (hhigh : high < 16) (hlow : low < 16) :
    (high <<< 4) ||| low = high * 16 + low := by
  have hhigh' : high.toNat < 16 := UInt8.lt_iff_toNat_lt.mp hhigh
  have hlow' : low.toNat < 2 ^ 4 := UInt8.lt_iff_toNat_lt.mp hlow
  have moved : (high <<< 4).toNat = high.toNat <<< 4 := by
    rw [UInt8.toNat_shiftLeft]
    change high.toNat <<< 4 % 256 = _
    rw [Nat.shiftLeft_eq]
    omega
  apply UInt8.toNat_inj.mp
  rw [UInt8.toNat_or, moved, ← Nat.shiftLeft_add_eq_or_of_lt hlow', Nat.shiftLeft_eq,
    UInt8.toNat_add, UInt8.toNat_mul]
  change _ = (high.toNat * 16 % 256 + low.toNat) % 256
  omega

theorem length_join (steps : List UInt8) : (join steps).length = (steps.length + 1) / 2 := by
  induction steps using join.induct with
  | case1 => rfl
  | case2 high => simp [join]
  | case3 high low rest ih =>
    rw [join, List.length_cons, ih, List.length_cons, List.length_cons]
    omega

/-- Splitting undoes joining, but for the zero that follows a lone last step. -/
theorem take_split_join (nibbles : ∀ step ∈ steps, step < 16) :
    (split (join steps)).take steps.length = steps := by
  induction steps using join.induct with
  | case1 => rfl
  | case2 high =>
    have hhigh := nibbles high (List.mem_singleton_self high)
    have zero : (0 : UInt8) < 16 := by decide
    have joined : high <<< 4 = high * 16 + 0 := by
      rw [← joined_eq_pair hhigh zero, UInt8.or_zero]
    rw [join, split_cons, joined, (high_of_pair hhigh zero).1]
    rfl
  | case3 high low rest ih =>
    rw [List.forall_mem_cons, List.forall_mem_cons] at nibbles
    obtain ⟨hhigh, hlow, hrest⟩ := nibbles
    obtain ⟨first, second⟩ := high_of_pair hhigh hlow
    rw [join, split_cons, joined_eq_pair hhigh hlow, first, second, List.length_cons,
      List.length_cons, List.take_succ_cons, List.take_succ_cons, ih hrest]

theorem join_inj (nibbles : ∀ step ∈ steps, step < 16) (nibbles' : ∀ step ∈ others, step < 16)
    (length : steps.length = others.length) (joined : join steps = join others) :
    steps = others := by
  rw [← take_split_join nibbles, ← take_split_join nibbles', joined, length]

/-- As many bytes, and the same number modulo 256, are the same number of steps. -/
theorem length_eq_of_join (bytes : (join steps).length = (join others).length)
    (last : UInt8.ofNat steps.length = UInt8.ofNat others.length) :
    steps.length = others.length := by
  have same : steps.length % 256 = others.length % 256 := by
    simpa using congrArg UInt8.toNat last
  rw [length_join, length_join] at bytes
  omega

end Nibbles

namespace Position

variable {p q : Position}

/-- Where the owner ends can be told from its first byte. -/
theorem ownerBytes_append_inj {owner other : Option Hash} {bytes bytes' : Bytes}
    (same : ownerBytes owner ++ bytes = ownerBytes other ++ bytes') :
    owner = other ∧ bytes = bytes' := by
  cases owner with
  | none =>
    cases other with
    | none => exact ⟨rfl, List.append_cancel_left same⟩
    | some account => exact absurd (List.cons.inj same).1 (by decide)
  | some account =>
    cases other with
    | none => exact absurd (List.cons.inj same).1 (by decide)
    | some account' =>
      have length : account.toBytes.length = account'.toBytes.length := by
        rw [Hash.length_toBytes, Hash.length_toBytes]
      obtain ⟨accounts, rest⟩ := List.append_inj (List.cons.inj same).2 length
      exact ⟨congrArg some (Hash.toBytes_inj.mp accounts), rest⟩

theorem steps_of_toBytes (hp : p.path.WellFormed) (hq : q.path.WellFormed)
    (same : p.toBytes = q.toBytes) : p.account = q.account ∧ p.path.steps = q.path.steps := by
  unfold toBytes at same
  rw [List.append_assoc, List.append_assoc] at same
  obtain ⟨account, same⟩ := ownerBytes_append_inj same
  obtain ⟨joined, last⟩ := List.append_inj' same rfl
  refine ⟨account, ?_⟩
  have length := Nibbles.length_eq_of_join (congrArg List.length joined) (List.cons.inj last).1
  exact Nibbles.join_inj hp hq length joined

/-- Positions that all end in a value, or all do not, have a row each. -/
theorem injOn_toBytes (leaf : Bool) : Set.InjOn NodeKey.toBytes
    { p : Position | p.path.WellFormed ∧ p.path.isLeaf = leaf } := by
  intro p hp q hq same
  obtain ⟨account, steps⟩ := steps_of_toBytes hp.1 hq.1 same
  have path : p.path = q.path := by
    rw [← p.path.ofSteps_steps, ← q.path.ofSteps_steps, steps, hp.2, hq.2]
  cases p
  cases q
  simp only at account path
  rw [account, path]

/--
Two positions share their bytes exactly if they have the same owner and the same steps, however many
these are: they may differ in the terminator only.
-/
theorem toBytes_eq_iff (hp : p.path.WellFormed) (hq : q.path.WellFormed) :
    p.toBytes = q.toBytes ↔ p.account = q.account ∧ p.path.steps = q.path.steps := by
  refine ⟨steps_of_toBytes hp hq, ?_⟩
  rintro ⟨account, steps⟩
  rw [toBytes, toBytes, Nibbles.toBytes, Nibbles.toBytes, account, steps]

/-- A path of 258 steps: its length byte is that of a path of two. -/
def longPath (leaf : Bool) : Nibbles := .ofSteps (List.replicate 258 1) leaf

theorem wellFormed_longPath (leaf : Bool) : (longPath leaf).WellFormed := by
  apply Nibbles.wellFormed_ofSteps
  intro step mem
  obtain rfl := List.eq_of_mem_replicate mem
  decide

theorem toBytes_eq_iff_longPath :
    (Position.mk none (longPath true)).toBytes = (Position.mk none (longPath false)).toBytes ∧
      (Position.mk none (longPath true)).toBytes ≠ (Position.mk none ⟨[1, 1]⟩).toBytes ∧
      (Position.mk none (longPath true)).toBytes.getLast? = some 2 := by
  have short : (Nibbles.mk [1, 1]).WellFormed := by
    unfold Nibbles.WellFormed
    decide +kernel
  refine ⟨(toBytes_eq_iff (wellFormed_longPath true) (wellFormed_longPath false)).mpr ?_, ?_, ?_⟩
  · exact ⟨rfl, by decide +kernel⟩
  · intro same
    have steps := ((toBytes_eq_iff (wellFormed_longPath true) short).mp same).2
    exact absurd (congrArg List.length steps) (by decide +kernel)
  · decide +kernel

end Position

end StateSync.Trie
