/-!
Arenas: values in numbered slots. A freed slot is the first to be used again, but what is proved of
the caches would hold of any other choice: an insert is known by the slot that it tells, which was
free and then holds the value, and by the other slots, which stay as they were.
-/

namespace StateSync.Store

structure Arena (α : Type) where
  slots : Array (Option α) := #[]
  /-- The free slots, last freed first. -/
  free : List Nat := []

namespace Arena

variable {α : Type}

def get? (a : Arena α) (slot : Nat) : Option α := (a.slots[slot]?).join

/-- Puts a value into a free slot, or else into a new one, and tells which. -/
def insert (a : Arena α) (value : α) : Nat × Arena α :=
  match a.free with
  | slot :: free => (slot, { slots := a.slots.setIfInBounds slot (some value), free })
  | [] => (a.slots.size, { a with slots := a.slots.push (some value) })

/-- Takes the value out of a slot; nothing happens to a slot without value. -/
def remove (a : Arena α) (slot : Nat) : Arena α :=
  match a.get? slot with
  | some _ => { slots := a.slots.setIfInBounds slot none, free := slot :: a.free }
  | none => a

/-- Changes the value in a slot, if there is one. -/
def modify (a : Arena α) (slot : Nat) (change : α → α) : Arena α :=
  { a with slots := a.slots.modify slot (Option.map change) }

/-- The slots that hold a value, in order. -/
def live (a : Arena α) : List Nat :=
  (List.range a.slots.size).filter fun slot => (a.get? slot).isSome

/-- The values with their slots, in order. -/
def toList (a : Arena α) : List (Nat × α) :=
  (List.range a.slots.size).filterMap fun slot => (a.get? slot).map (slot, ·)

def size (a : Arena α) : Nat := a.toList.length

/-- Every slot in the free list exists and is empty, and is listed once. -/
structure WellFormed (a : Arena α) : Prop where
  free_lt : ∀ slot ∈ a.free, slot < a.slots.size
  free_vacant : ∀ slot ∈ a.free, a.get? slot = none
  free_nodup : a.free.Nodup

theorem get?_remove_self (a : Arena α) (slot : Nat) : (a.remove slot).get? slot = none := by
  unfold remove
  cases h : a.get? slot with
  | none => exact h
  | some value => by_cases hs : slot < a.slots.size <;> simp [get?, hs]

theorem get?_remove_of_ne (a : Arena α) {slot other : Nat} (h : slot ≠ other) :
    (a.remove slot).get? other = a.get? other := by
  unfold remove
  cases a.get? slot with
  | none => rfl
  | some value => simp [get?, Array.getElem?_setIfInBounds_ne h]

theorem get?_modify (a : Arena α) (slot other : Nat) (change : α → α) :
    (a.modify slot change).get? other =
      if slot = other then (a.get? other).map change else a.get? other := by
  by_cases h : slot = other
  · subst h
    cases hs : a.slots[slot]? with
    | none => simp [modify, get?, Array.getElem?_modify, hs]
    | some value => simp [modify, get?, Array.getElem?_modify, hs]
  · simp [modify, get?, Array.getElem?_modify, h]

theorem get?_insert {a : Arena α} (ha : a.WellFormed) (value : α) (slot : Nat) :
    (a.insert value).2.get? slot =
      if slot = (a.insert value).1 then some value else a.get? slot := by
  unfold insert
  cases hf : a.free with
  | nil =>
    by_cases h : slot = a.slots.size
    · simp [get?, h]
    · simp [get?, Array.getElem?_push, h]
  | cons first free =>
    have hlt := ha.free_lt first (hf ▸ List.mem_cons_self)
    by_cases h : slot = first
    · simp [get?, h, hlt]
    · simp [get?, h, Array.getElem?_setIfInBounds_ne (Ne.symm h)]

end Arena

end StateSync.Store
