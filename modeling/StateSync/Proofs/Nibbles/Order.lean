import StateSync.Proofs.Nibbles

/-!
The order of the paths that byte strings are split into. A byte is ordered by its halves, the high
one first, so splitting keeps the order, and no path starts with another unless its bytes do. The
terminator is above every nibble: it leaves the order of strings that part at a byte as it is, and
puts a string behind all those that go on after it.
-/

namespace StateSync.Trie.Nibbles

variable {steps others : List UInt8} {a b : Bytes}

/-- The high half of a byte decides, and the low one where the high halves are the same. -/
theorem lt_iff_halves {x y : UInt8} :
    x < y ↔ x / 16 < y / 16 ∨ x / 16 = y / 16 ∧ x % 16 < y % 16 := by
  rw [UInt8.lt_iff_toNat_lt, UInt8.lt_iff_toNat_lt, UInt8.lt_iff_toNat_lt, ← UInt8.toNat_inj,
    UInt8.toNat_div, UInt8.toNat_div, UInt8.toNat_mod, UInt8.toNat_mod]
  change _ ↔ x.toNat / 16 < y.toNat / 16 ∨
    x.toNat / 16 = y.toNat / 16 ∧ x.toNat % 16 < y.toNat % 16
  omega

theorem compare_halves (x y : UInt8) :
    (compare (x / 16) (y / 16)).then (compare (x % 16) (y % 16)) = compare x y := by
  cases order : compare x y with
  | lt =>
    rw [Ordering.then_eq_lt, Std.compare_eq_lt, Std.compare_eq_lt,
      Std.LawfulEqOrd.compare_eq_iff_eq]
    exact lt_iff_halves.mp (Std.compare_eq_lt.mp order)
  | eq =>
    obtain rfl := Std.LawfulEqOrd.eq_of_compare order
    rw [Std.ReflOrd.compare_self, Std.ReflOrd.compare_self]
    rfl
  | gt =>
    rw [Ordering.then_eq_gt, Std.compare_eq_gt, Std.compare_eq_gt,
      Std.LawfulEqOrd.compare_eq_iff_eq, eq_comm]
    exact lt_iff_halves.mp (Std.compare_eq_gt.mp order)

theorem compare_split (a b : Bytes) : compare (split a) (split b) = compare a b := by
  induction a generalizing b with
  | nil => cases b <;> rfl
  | cons x xs ih =>
    cases b with
    | nil => rfl
    | cons y ys =>
      rw [split_cons, split_cons, List.compare_cons_cons, List.compare_cons_cons, ih,
        ← Ordering.then_assoc, compare_halves, List.compare_cons_cons]

theorem split_injective : Function.Injective split :=
  Function.LeftInverse.injective join_split

theorem split_prefix_iff : split b <+: split a ↔ b <+: a := by
  constructor
  · rintro ⟨steps, whole⟩
    refine ⟨join steps, ?_⟩
    rw [← join_split_append, whole, join_split]
  · rintro ⟨rest, rfl⟩
    rw [split, split, List.flatMap_append]
    exact List.prefix_append _ _

theorem toBytes_ofBytes (bs : Bytes) (leaf : Bool) : (ofBytes bs leaf).toBytes = bs := by
  have steps : (ofBytes bs leaf).steps = split bs := steps_ofSteps (split_lt bs) leaf
  rw [toBytes, steps, join_split]

/-- What follows two sequences of steps does not matter once they have parted. -/
theorem compare_append_of_parted (parted : ¬steps <+: others) (parted' : ¬others <+: steps)
    (rest rest' : List UInt8) :
    compare (steps ++ rest) (others ++ rest') = compare steps others := by
  induction steps generalizing others with
  | nil => exact absurd List.nil_prefix parted
  | cons x xs ih =>
    cases others with
    | nil => exact absurd List.nil_prefix parted'
    | cons y ys =>
      rw [List.cons_append, List.cons_append, List.compare_cons_cons, List.compare_cons_cons]
      by_cases same : x = y
      · subst same
        rw [List.cons_prefix_cons] at parted parted'
        rw [ih (fun h => parted ⟨rfl, h⟩) (fun h => parted' ⟨rfl, h⟩)]
      · cases step : compare x y with
        | eq => exact absurd (Std.LawfulEqOrd.eq_of_compare step) same
        | lt => rfl
        | gt => rfl

/-- What two sequences of steps begin with does not matter if it is the same. -/
theorem compare_append_left (common rest rest' : List UInt8) :
    compare (common ++ rest) (common ++ rest') = compare rest rest' := by
  induction common with
  | nil => rfl
  | cons x xs ih =>
    rw [List.cons_append, List.cons_append, List.compare_cons_cons, Std.ReflOrd.compare_self, ih]
    rfl

/-- A closed path comes behind the closed paths of all nibbles that go on after its own. -/
theorem compare_terminated_of_prefix (nibbles : ∀ step ∈ others, step < 16)
    (h : steps <+: others) (proper : steps ≠ others) :
    compare (steps ++ [terminator]) (others ++ [terminator]) = .gt := by
  obtain ⟨rest, rfl⟩ := h
  rw [List.append_assoc, compare_append_left]
  cases rest with
  | nil => exact absurd (List.append_nil steps).symm proper
  | cons next rest =>
    have small : next < terminator := nibbles next (by simp)
    rw [List.cons_append, List.compare_cons_cons, Std.compare_eq_gt.mpr small]
    rfl

/-- The terminator turns the order round where one string goes on after the other, not elsewhere. -/
theorem compare_terminated_split (a b : Bytes) :
    compare (split a ++ [terminator]) (split b ++ [terminator]) =
      if a <+: b ∧ a ≠ b then .gt else if b <+: a ∧ b ≠ a then .lt else compare a b := by
  by_cases shorter : a <+: b ∧ a ≠ b
  · rw [if_pos shorter]
    have proper : split a ≠ split b := split_injective.ne shorter.2
    exact compare_terminated_of_prefix (split_lt b) (split_prefix_iff.mpr shorter.1) proper
  by_cases longer : b <+: a ∧ b ≠ a
  · rw [if_neg shorter, if_pos longer, Std.OrientedOrd.eq_swap]
    have proper : split b ≠ split a := split_injective.ne longer.2
    have behind := compare_terminated_of_prefix (split_lt a) (split_prefix_iff.mpr longer.1) proper
    rw [behind]
    rfl
  rw [if_neg shorter, if_neg longer]
  by_cases same : a = b
  · rw [same, Std.ReflOrd.compare_self, Std.ReflOrd.compare_self]
  · have parted : ¬split a <+: split b := fun h => shorter ⟨split_prefix_iff.mp h, same⟩
    have parted' : ¬split b <+: split a := fun h => longer ⟨split_prefix_iff.mp h, Ne.symm same⟩
    rw [compare_append_of_parted parted parted', compare_split]

/--
The path of a byte string gives its bytes back. Without a terminator, paths compare as the strings
do, and one starts with another exactly if the strings do. With it they still compare as the strings
do, except that of two strings of which one is a proper prefix the shorter one is the greater.
-/
theorem ofBytes_keeps_order_and_content (a b : Bytes) :
    (∀ leaf, (ofBytes a leaf).toBytes = a) ∧
    compare (ofBytes a false) (ofBytes b false) = compare a b ∧
    ((ofBytes a false).startsWith (ofBytes b false) = true ↔ b <+: a) ∧
    compare (ofBytes a true) (ofBytes b true) =
      if a <+: b ∧ a ≠ b then .gt else if b <+: a ∧ b ≠ a then .lt else compare a b := by
  have unmarked : ∀ bs, (ofBytes bs false).toList = split bs := fun bs => List.append_nil (split bs)
  refine ⟨toBytes_ofBytes a, ?_, ?_, compare_terminated_split a b⟩
  · change compare (ofBytes a false).toList (ofBytes b false).toList = compare a b
    rw [unmarked, unmarked, compare_split]
  · rw [startsWith, List.isPrefixOf_iff_prefix, unmarked, unmarked, split_prefix_iff]

/-- A string that ends comes behind one that goes on, but strings that part keep their order. -/
example : compare (ofBytes [0x12] true) (ofBytes [0x12, 0x00] true) = .gt ∧
    compare (ofBytes [0x12] true) (ofBytes [0x13, 0x00] true) = .lt := by decide

end StateSync.Trie.Nibbles
