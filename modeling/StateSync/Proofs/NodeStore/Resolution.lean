import StateSync.Proofs.NodeStore.Views

/-!
Lazy reading. A node may be at hand decoded, or in memory with a payload that does not decode, or it
is loaded when it is resolved. Whichever of these it is, a reader that finds a node and resolves it
is told, and comes to hold, what a load of the key would tell.
-/

namespace StateSync.Trie

variable {ρ σ κ : Type} [Resolver ρ κ] [Resolver σ κ]

namespace Handle

theorem key_ofLoad (key : κ) (found : Except TrieError (Option Bytes)) :
    (ofLoad key found).2.key = key := by
  rcases found with e | _ | payload
  · rfl
  · rfl
  · rw [ofLoad]
    cases Node.decode payload <;> rfl

/-- A node is left resolved exactly if its reader is told so. -/
theorem isUnknown_ofLoad (key : κ) (found : Except TrieError (Option Bytes)) :
    (ofLoad key found).2.isUnknown = false ↔ (ofLoad key found).1 = .ok true := by
  rcases found with e | _ | payload
  · simp [ofLoad, unknown, isUnknown]
  · simp [ofLoad, unknown, isUnknown]
  · rw [ofLoad]
    cases Node.decode payload <;> simp [unknown, isUnknown]

end Handle

namespace Resolver

/--
The nodes at hand are those that a load finds, and whether a load is recorded does not show in what
it finds. A node need not be at hand for that: it may be loaded all the same.
-/
structure Coherent (r : ρ) : Prop where
  load_congr : ∀ key flags flags', (load r key flags).1 = (load r key flags').1
  find : ∀ key flags, find r key = .unknown key ∨
    ∃ payload, (load r key flags).1 = .ok (some payload) ∧
      Handle.ofPayload key payload = .ok (Resolver.find r key)

/-- What a reader is told who finds a node and resolves it, and the node that it comes to hold. -/
def read (r : ρ) (key : κ) (flags : ReadFlags) : Except TrieError Bool × Handle κ :=
  let (told, held, _) := (find r key).resolve r flags
  (told, held)

/-- A node that is found and resolved is what a load of the key returns. -/
structure ReadsLazily (r : ρ) (key : κ) (flags : ReadFlags) : Prop where
  /-- A load under whatever flags decides the outcome. -/
  outcome : ∀ flags', read r key flags = Handle.ofLoad key (load r key flags').1
  key_eq : (read r key flags).2.key = key
  isUnknown : (read r key flags).2.isUnknown = false ↔ (read r key flags).1 = .ok true
  /-- The resolver, or any other, and the node are left as they are when it is resolved again. -/
  again : (read r key flags).2.isUnknown = false → ∀ {σ : Type} [Resolver σ κ] (t : σ) flags',
    (read r key flags).2.resolve t flags' = (.ok true, (read r key flags).2, t)

variable {r : ρ}

theorem Coherent.read_eq (h : Coherent r) (key : κ) (flags flags' : ReadFlags) :
    read r key flags = Handle.ofLoad key (load r key flags').1 := by
  rw [h.load_congr key flags' flags]
  unfold read
  obtain missing | ⟨payload, loaded, decoded⟩ := h.find key flags
  · rw [missing, Handle.resolve_eq]
    rfl
  · rw [Handle.resolve_of_payload? (Handle.payload?_ofPayload decoded), loaded]
    exact (Handle.ofLoad_eq_true_iff.mpr ⟨payload, rfl, decoded⟩).symm

theorem Coherent.readsLazily (h : Coherent r) (key : κ) (flags : ReadFlags) :
    ReadsLazily r key flags where
  outcome := h.read_eq key flags
  key_eq := by rw [h.read_eq key flags flags, Handle.key_ofLoad]
  isUnknown := by rw [h.read_eq key flags flags, Handle.isUnknown_ofLoad]
  again := fun resolved _ _ t flags' => Handle.resolve_of_isUnknown_eq_false resolved t flags'

end Resolver

end StateSync.Trie

namespace StateSync.Store

open Trie

variable {κ : Type} [NodeKey κ]

theorem NodeStore.coherent (s : NodeStore κ) : Resolver.Coherent s where
  load_congr key flags flags' := by
    change (s.load key flags).1 = (s.load key flags').1
    unfold load
    rcases s.lookup key with fault | found <;> rfl
  find key flags := by
    obtain ⟨node, live, decoded⟩ | ⟨missing, -⟩ := s.find_cases key
    · refine .inr ⟨node.payload, ?_, decoded⟩
      change (s.load key flags).1 = _
      unfold load lookup
      rw [live]
    · exact .inl missing

theorem NodeStore.coherent_readOnly (s : NodeStore κ) : Resolver.Coherent s.readOnly where
  load_congr key flags flags' := by rw [ReadOnlyView.load_eq, ReadOnlyView.load_eq]
  find key flags := by
    rw [ReadOnlyView.load_eq]
    exact s.coherent.find key unrecorded

/-- Nothing is at hand in a store that is read uncached. -/
theorem Uncached.coherent {σ : Type} [ByteStore σ] (u : Uncached σ κ) : Resolver.Coherent u where
  load_congr _ _ _ := rfl
  find _ _ := .inl rfl

/--
Lazy reading agrees with loading, in every state of a store, in every view of it and in every store
that is read uncached. Nothing under the key leaves the node unknown and the reader is told so; a
payload that decodes is held with its node; a payload that does not decode is the decoding error,
a read that fails is its own, and either leaves the node unknown. The key stays, and so does a
resolved node whatever it is resolved with.
-/
theorem lazy_reads_agree_with_loads (key : κ) (flags : ReadFlags) :
    (∀ s : NodeStore κ, Resolver.ReadsLazily s key flags ∧
      Resolver.ReadsLazily s.readOnly key flags) ∧
    ∀ {σ : Type} [ByteStore σ] (u : Uncached σ κ), Resolver.ReadsLazily u key flags :=
  ⟨fun s => ⟨s.coherent.readsLazily key flags, s.coherent_readOnly.readsLazily key flags⟩,
    fun u => u.coherent.readsLazily key flags⟩

end StateSync.Store
