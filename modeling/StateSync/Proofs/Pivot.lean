import Mathlib
import StateSync.Sync.Pivot

/-!
How a pivot moves: it stays, or a newer header that is not the genesis takes its place. After it
followed the chain it is less than the allowed distance behind the best header.
-/

namespace StateSync.Sync.Pivot

variable {p q : Pivot} {best held : Header}

/-- The pivot stays, or a newer header takes its place. -/
inductive Forward (p q : Pivot) : Prop
  | kept (same : q.header = p.header)
  | adopted {best : Header} (held : q.header = some best) (positive : 0 < best.number)
      (newer : ∀ old, p.header = some old → old.number < best.number)

/-- The genesis is not held as the pivot. -/
def NonGenesis (p : Pivot) : Prop := ∀ held, p.header = some held → 0 < held.number

/-- What is the pivot after a header was: that header or a newer one. -/
def Replaces (now held : Header) : Prop := now = held ∨ held.number < now.number

namespace Replaces

variable {now later : Header}

theorem trans (after : Replaces later now) (before : Replaces now held) : Replaces later held := by
  rcases after with rfl | newer
  · exact before
  · rcases before with rfl | older
    · exact .inr newer
    · exact .inr (UInt64.lt_trans older newer)

theorem number_le (h : Replaces now held) : held.number ≤ now.number := by
  rcases h with rfl | newer
  · exact UInt64.le_refl _
  · exact UInt64.le_of_lt newer

theorem eq_of_number_eq (h : Replaces now held) (level : held.number = now.number) :
    now = held := by
  rcases h with same | newer
  · exact same
  · exact absurd level (UInt64.ne_of_lt newer)

end Replaces

theorem Forward.nonGenesis (h : Forward p q) (hp : p.NonGenesis) : q.NonGenesis := by
  intro held some
  cases h with
  | kept same => exact hp held (same.symm.trans some)
  | adopted now positive =>
    obtain rfl := Option.some.inj (now.symm.trans some)
    exact positive

/-- A pivot is only given up for a newer one. -/
theorem Forward.header_eq_some (h : Forward p q) (hp : p.header = some held) :
    ∃ now, q.header = some now ∧ Replaces now held := by
  cases h with
  | kept same => exact ⟨held, same.trans hp, .inl rfl⟩
  | adopted now _ newer => exact ⟨_, now, .inr (newer held hp)⟩

theorem Forward.isSome (h : Forward p q) (hp : p.header.isSome = true) :
    q.header.isSome = true := by
  cases h with
  | kept same => rwa [same]
  | adopted now => rw [now, Option.isSome_some]

theorem candidate?_eq_some_iff :
    p.candidate? = some best ↔ p.best = some best ∧ 0 < best.number := by
  simp [candidate?, Option.filter_eq_some_iff]

theorem adopt_forward (p : Pivot) (positive : 0 < best.number) :
    Forward p (p.adopt best).1 := by
  unfold adopt
  cases now : p.header with
  | none =>
    refine .adopted rfl positive fun old some => ?_
    cases now.symm.trans some
  | some current =>
    dsimp only
    split
    · exact .kept rfl
    · next newer =>
      refine .adopted rfl positive fun old some => ?_
      obtain rfl := Option.some.inj (now.symm.trans some)
      exact UInt64.not_le.mp newer

theorem follow_forward (p : Pivot) : Forward p p.follow.1 := by
  unfold follow
  split
  · next best known =>
    split
    · exact adopt_forward p (candidate?_eq_some_iff.mp known).2
    · exact .kept rfl
  · exact .kept rfl

theorem force_forward (p : Pivot) : Forward p p.force.1 := by
  unfold force
  split
  · next best known => exact adopt_forward p (candidate?_eq_some_iff.mp known).2
  · exact .kept rfl

theorem toNat_pivotDistance : pivotDistance.toNat = 128 := rfl

theorem isDue_iff : p.isDue best = true ↔ ∀ current, p.header = some current →
    current.number.toNat + pivotDistance.toNat ≤ best.number.toNat := by
  unfold isDue
  cases p.header with
  | none => simp
  | some current =>
    simp only [decide_eq_true_eq, UInt64.le_iff_toNat_le, Word.toNat_saturatingSub,
      Option.some.injEq, forall_eq', toNat_pivotDistance]
    omega

/-- A header that is due is adopted. -/
theorem header_adopt_of_isDue (due : p.isDue best = true) :
    (p.adopt best).1.header = some best := by
  unfold adopt
  cases now : p.header with
  | none => rfl
  | some current =>
    have far := isDue_iff.mp due current now
    rw [toNat_pivotDistance] at far
    have newer : ¬best.number ≤ current.number := by
      rw [UInt64.le_iff_toNat_le]
      omega
    simp only [if_neg newer]

/-- A pivot that followed the chain is less than the distance behind the best header. -/
theorem number_lt_of_follow (head : p.best = some best) (positive : 0 < best.number)
    (now : p.follow.1.header = some held) :
    best.number.toNat < held.number.toNat + pivotDistance.toNat := by
  have known := candidate?_eq_some_iff.mpr ⟨head, positive⟩
  simp only [follow, known] at now
  split at now
  · next due =>
    obtain rfl := Option.some.inj ((header_adopt_of_isDue due).symm.trans now)
    rw [toNat_pivotDistance]
    omega
  · next early =>
    have kept : p.header = some held := now
    by_contra far
    refine early (isDue_iff.mpr fun current some => ?_)
    obtain rfl := Option.some.inj (kept.symm.trans some)
    exact not_lt.mp far

end StateSync.Sync.Pivot
