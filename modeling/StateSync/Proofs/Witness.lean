import Mathlib
import StateSync.Trie.Resolver

/-!
What a witness holds. Main statement: whatever happened so far, it holds the payloads that were
read while recording was on, since the last witness was taken, each under its digest. An event is
one whole step: a payload is read and recorded before the next one.
-/

namespace StateSync.Trie.Witness

/-- What happens to a witness: recording is turned on, it is taken, a payload is read. -/
inductive Event
  | enabled
  | taken
  | read (payload : Bytes)
deriving DecidableEq

def Event.apply : Event → Witness → Witness
  | enabled, w => w.enable
  | taken, w => w.take.2
  | read payload, w => w.record payload

/-- The witness after some events. -/
def after (w : Witness) (events : List Event) : Witness := events.foldl (fun w e => e.apply w) w

/-- An event happened since the last witness was taken, and what came before it has a property. -/
def Since (e : Event) (P : List Event → Prop) (events : List Event) : Prop :=
  ∃ before later, events = before ++ e :: later ∧ .taken ∉ later ∧ P before

/-- Recording is on: it was turned on, and no witness was taken since. -/
def Recording : List Event → Prop := Since .enabled fun _ => True

/-- The payload is due: it was read while recording was on, and no witness was taken since. -/
def Due (events : List Event) (payload : Bytes) : Prop := Since (.read payload) Recording events

theorem not_since_nil {e : Event} {P : List Event → Prop} : ¬Since e P [] := by
  rintro ⟨before, later, split, -⟩
  exact List.append_ne_nil_of_right_ne_nil before (List.cons_ne_nil e later) split.symm

/-- An event happened since then if it is the last one, or if the last one takes nothing. -/
theorem since_concat {e last : Event} {P : List Event → Prop} {events : List Event} :
    Since e P (events ++ [last]) ↔ last = e ∧ P events ∨ last ≠ .taken ∧ Since e P events := by
  constructor
  · rintro ⟨before, later, split, untaken, prior⟩
    rcases List.eq_nil_or_concat' later with rfl | ⟨rest, final, rfl⟩
    · obtain ⟨rfl, same⟩ := List.append_inj' split rfl
      exact .inl ⟨List.singleton_inj.mp same, prior⟩
    · rw [← List.cons_append, ← List.append_assoc] at split
      obtain ⟨rfl, same⟩ := List.append_inj' split rfl
      obtain rfl := List.singleton_inj.mp same
      simp only [List.mem_append, List.mem_singleton, not_or] at untaken
      exact .inr ⟨Ne.symm untaken.2, before, rest, rfl, untaken.1, prior⟩
  · rintro (⟨rfl, prior⟩ | ⟨kept, before, later, rfl, untaken, prior⟩)
    · exact ⟨events, [], rfl, List.not_mem_nil, prior⟩
    · refine ⟨before, later ++ [last], by simp, ?_, prior⟩
      simp only [List.mem_append, List.mem_singleton, not_or]
      exact ⟨untaken, Ne.symm kept⟩

theorem Due.mem {events : List Event} {payload : Bytes} (h : Due events payload) :
    .read payload ∈ events := by
  obtain ⟨before, later, rfl, -⟩ := h
  exact List.mem_append_right _ List.mem_cons_self

/-- A witness holds what is due, one payload of each digest, and records while recording is on. -/
structure Sound (w : Witness) (events : List Event) : Prop where
  enabled : w.enabled = true ↔ Recording events
  due : ∀ {digest payload}, w.payloads[digest]? = some payload →
    keccak payload = digest ∧ Due events payload
  kept : ∀ {payload}, Due events payload → ∃ held, w.payloads[keccak payload]? = some held

@[simp] theorem enabled_record (w : Witness) (payload : Bytes) :
    (w.record payload).enabled = w.enabled := by
  unfold record
  split <;> rfl

theorem getElem?_record (w : Witness) (payload : Bytes) (digest : Hash) :
    (w.record payload).payloads[digest]? =
      if w.enabled = true ∧ keccak payload = digest then some payload else w.payloads[digest]? := by
  unfold record
  cases w.enabled with
  | false => rfl
  | true =>
    rw [if_pos rfl, Std.TreeMap.getElem?_insert]
    simp only [Std.LawfulEqOrd.compare_eq_iff_eq, true_and]

theorem sound_enable {w : Witness} {events : List Event} (h : Sound w events) :
    Sound w.enable (events ++ [.enabled]) := by
  refine ⟨⟨fun _ => since_concat.mpr (.inl ⟨rfl, trivial⟩), fun _ => rfl⟩, fun found => ?_,
    fun due => ?_⟩
  · obtain ⟨digest, due⟩ := h.due found
    exact ⟨digest, since_concat.mpr (.inr ⟨nofun, due⟩)⟩
  · rcases since_concat.mp due with ⟨⟨⟩, -⟩ | ⟨-, due⟩
    exact h.kept due

theorem sound_take (w : Witness) (events : List Event) : Sound w.take.2 (events ++ [.taken]) := by
  have nothing : ∀ {e P}, Since e P (events ++ [.taken]) → e = .taken := by
    intro e P since
    rcases since_concat.mp since with ⟨same, -⟩ | ⟨kept, -⟩
    · exact same.symm
    · exact absurd rfl kept
  refine ⟨⟨nofun, fun on => ?_⟩, fun found => ?_, fun due => ?_⟩
  · cases nothing on
  · simp [take] at found
  · cases nothing due

theorem sound_record {w : Witness} {events : List Event} (h : Sound w events) (payload : Bytes) :
    Sound (w.record payload) (events ++ [.read payload]) := by
  have stays : ∀ {e P}, Since e P events → Since e P (events ++ [.read payload]) :=
    fun since => since_concat.mpr (.inr ⟨nofun, since⟩)
  have recording : Recording (events ++ [.read payload]) ↔ Recording events := by
    refine since_concat.trans ⟨?_, fun on => .inr ⟨nofun, on⟩⟩
    rintro (⟨⟨⟩, -⟩ | ⟨-, on⟩)
    exact on
  refine ⟨?_, fun found => ?_, fun due => ?_⟩
  · rw [enabled_record, recording]
    exact h.enabled
  · rw [getElem?_record] at found
    split at found
    · next due =>
      obtain rfl := Option.some.inj found
      exact ⟨due.2, since_concat.mpr (.inl ⟨rfl, h.enabled.mp due.1⟩)⟩
    · exact (h.due found).imp_right stays
  · rw [getElem?_record]
    split
    · exact ⟨payload, rfl⟩
    · next other =>
      rcases since_concat.mp due with ⟨⟨⟩, on⟩ | ⟨-, due⟩
      · exact absurd ⟨h.enabled.mpr on, rfl⟩ other
      · exact h.kept due

theorem after_concat (w : Witness) (events : List Event) (last : Event) :
    w.after (events ++ [last]) = last.apply (w.after events) :=
  List.foldl_concat _ _ _ _

theorem sound_after (events : List Event) : Sound (after {} events) events := by
  induction events using List.reverseRecOn with
  | nil =>
    refine ⟨⟨nofun, fun on => (not_since_nil on).elim⟩, fun found => ?_,
      fun due => (not_since_nil due).elim⟩
    simp [after] at found
  | append_singleton events last ih =>
    rw [after_concat]
    cases last with
    | enabled => exact sound_enable ih
    | taken => exact sound_take _ _
    | read payload => exact sound_record ih payload

/-- While the due payloads have digests of their own, a witness holds them and nothing else. -/
theorem getElem?_after_iff {events : List Event} (distinct : Set.InjOn keccak {p | Due events p})
    {digest : Hash} {payload : Bytes} :
    (after {} events).payloads[digest]? = some payload ↔
      keccak payload = digest ∧ Due events payload := by
  have sound := sound_after events
  refine ⟨sound.due, ?_⟩
  rintro ⟨rfl, due⟩
  obtain ⟨held, found⟩ := sound.kept due
  obtain ⟨same, due'⟩ := sound.due found
  rw [found, distinct due' due same]

/-- In which order and how often payloads are read makes no difference. -/
theorem toList_after_congr {events other : List Event}
    (distinct : Set.InjOn keccak {p | Due events p}) (same : ∀ p, Due other p ↔ Due events p) :
    (after {} other).payloads.toList = (after {} events).payloads.toList := by
  have distinct' : Set.InjOn keccak {p | Due other p} :=
    distinct.mono fun payload => (same payload).mp
  refine Std.TreeMap.Equiv.toList_eq (Std.TreeMap.Equiv.of_forall_constGet?_eq fun digest => ?_)
  refine Option.ext fun payload => ?_
  rw [getElem?_after_iff distinct', getElem?_after_iff distinct, same]

end StateSync.Trie.Witness
