import StateSync.Proofs.NodeStore.Contents
import StateSync.Proofs.NodeStore.Views
import StateSync.Proofs.Witness

/-!
What a node store records. A witness has the payloads that loads returned while recording was on,
wherever they came from. A node that is found in memory is resolved without a load, so its payload
is in the witness only if some load had returned it before.
-/

namespace StateSync.Store.NodeStore

open Trie

variable {κ : Type}

/-- What it is to a witness that a load returned a payload, or none. -/
def readEvent? (flags : ReadFlags) (found : Option Bytes) : Option Witness.Event :=
  if flags.skipWitness then none else found.map .read

variable [NodeKey κ]

/-- What a call is to the witness of a store. -/
def Call.event? (s : NodeStore κ) : Call κ → Option Witness.Event
  | load key flags => readEvent? flags (s.load key flags).1.toOption.join
  | enableWitness => some .enabled
  | takeWitness => some .taken
  | commit .. | finish .. | setFaults .. => none

/-- What an operation is to the witness of a store: a read counts by the payload that it returns. -/
def Operation.event? (s : NodeStore κ) : Operation κ → Option Witness.Event
  | call c => c.event? s
  | loadRequired key flags => readEvent? flags (Resolver.loadRequired s key flags).1.toOption
  | tryLoad key flags => readEvent? flags (Resolver.tryLoad s key flags).1
  | resolve handle flags =>
    if handle.isUnknown then readEvent? flags (s.load handle.key flags).1.toOption.join else none
  | find _ | isPersisted _ | hasRoot _ | memory | cachedNodes | boundary | text | subscribe
  | receive _ => none

/-- What some accesses are to the witness of a store. Those through views are nothing to it. -/
def witnessEvents (s : NodeStore κ) : List (Access κ) → List Witness.Event
  | [] => []
  | .direct o :: accesses => (o.event? s).toList ++ witnessEvents ((Access.direct o).run s) accesses
  | .viewed o :: accesses => witnessEvents ((Access.viewed o).run s) accesses

theorem witness_load (s : NodeStore κ) (key : κ) (flags : ReadFlags) :
    (s.load key flags).2.witness =
      s.witness.after (readEvent? flags (s.load key flags).1.toOption.join).toList := by
  unfold load readEvent?
  rcases s.lookup key with fault | _ | payload
  · cases flags.skipWitness <;> rfl
  · cases flags.skipWitness <;> rfl
  · cases skip : flags.skipWitness <;> simp only [recordRead, skip] <;> rfl

theorem witness_finish (s : NodeStore κ) (kind : TrieKind) (block : UInt64) (root : Hash) :
    (s.finish kind block root).2.witness = s.witness := by
  have finished := finish_finished s kind block root
  generalize (s.finish kind block root).1 = answer at finished
  generalize (s.finish kind block root).2 = t at finished ⊢
  cases finished with
  | kept | failed => rfl
  | flushed _ done =>
    obtain ⟨backend, -, rfl⟩ := flush_eq done
    obtain ⟨nodes, memory, heq⟩ :=
      prune_frame ({ s.addRoot root block with backend }.settle block)
    rw [heq]
    rfl

theorem Call.witness_run (c : Call κ) (s : NodeStore κ) :
    (c.run s).witness = s.witness.after (c.event? s).toList := by
  cases c with
  | commit block key payload =>
    unfold run
    dsimp only
    split
    · next accepted =>
      obtain rfl := store_of_commit accepted
      rfl
    · rfl
  | finish kind block root => exact witness_finish s kind block root
  | load key flags => exact witness_load s key flags
  | enableWitness | takeWitness | setFaults => rfl

/-- A read is to the witness what its load is. -/
theorem Operation.event?_eq (o : Operation κ) (s : NodeStore κ) :
    o.event? s = o.call?.bind (Call.event? s) := by
  cases o with
  | call => rfl
  | loadRequired key flags =>
    unfold event?
    dsimp only
    rw [Resolver.fst_loadRequired]
    change readEvent? flags ((s.load key flags).1.bind _).toOption =
      readEvent? flags (s.load key flags).1.toOption.join
    rcases (s.load key flags).1 with _ | _ | _ <;> rfl
  | tryLoad key flags =>
    unfold event?
    dsimp only
    rw [Resolver.fst_tryLoad]
    rfl
  | resolve handle flags =>
    unfold event? call?
    dsimp only
    split <;> rfl
  | find | isPersisted | hasRoot | memory | cachedNodes | boundary | text | subscribe | receive =>
    rfl

theorem Operation.witness_run (o : Operation κ) (s : NodeStore κ) :
    (o.run s).witness = s.witness.after (o.event? s).toList := by
  rw [o.run_eq, o.event?_eq]
  cases o.call? with
  | none => rfl
  | some c => exact c.witness_run s

theorem witness_afterAccesses (s : NodeStore κ) (accesses : List (Access κ)) :
    (s.afterAccesses accesses).witness = s.witness.after (s.witnessEvents accesses) := by
  induction accesses generalizing s with
  | nil => rfl
  | cons a accesses ih =>
    refine (ih (a.run s)).trans ?_
    cases a with
    | direct o =>
      have step : ((Access.direct o).run s).witness = s.witness.after (o.event? s).toList :=
        o.witness_run s
      rw [step, witnessEvents, Witness.after, Witness.after, Witness.after, List.foldl_append]
    | viewed o => rw [Access.run_viewed, witnessEvents, Access.run_viewed]

/--
A witness that is taken has every payload that is due, under its digest, and nothing else, as long
as no two of these payloads have one digest. So stores to which the same payloads are due, in
whatever order, how often and from where they were loaded, hand out the same witness.
-/
theorem takeWitness_iff_due {s : NodeStore κ} (new : s.witness = {}) {accesses : List (Access κ)}
    (distinct : Set.InjOn keccak {p | Witness.Due (s.witnessEvents accesses) p}) :
    (∀ digest payload, (s.afterAccesses accesses).takeWitness.1[digest]? = some payload ↔
      keccak payload = digest ∧ Witness.Due (s.witnessEvents accesses) payload) ∧
    ∀ (t : NodeStore κ) (other : List (Access κ)), t.witness = {} →
      (∀ payload, Witness.Due (t.witnessEvents other) payload ↔
        Witness.Due (s.witnessEvents accesses) payload) →
      (t.afterAccesses other).takeWitness.1.toList =
        (s.afterAccesses accesses).takeWitness.1.toList := by
  have taken : ∀ (t : NodeStore κ) (other : List (Access κ)), t.witness = {} →
      (t.afterAccesses other).takeWitness.1 =
        (Witness.after {} (t.witnessEvents other)).payloads := by
    intro t other new
    change (t.afterAccesses other).witness.payloads = _
    rw [witness_afterAccesses, new]
  refine ⟨fun digest payload => ?_, fun t other new' same => ?_⟩
  · rw [taken s accesses new]
    exact Witness.getElem?_after_iff distinct
  · rw [taken s accesses new, taken t other new']
    exact Witness.toList_after_congr distinct same

/-- Loads from memory and from rows, one that is not recorded, and one through a view. -/
def loadsFromBothLayers : List (Access Position) :=
  [.direct (.call (.commit 1 (Journal.child 3) [33])),
    .direct (.call .enableWitness),
    .direct (.call (.load (Journal.child 3) .none)),
    .viewed (.load (Journal.child 2) .none),
    .direct (.call (.load (Journal.child 2) unrecorded)),
    .direct (.tryLoad (Journal.child 1) .none),
    .direct (.call (.finish .state 1 .zero)),
    .direct (.loadRequired (Journal.child 3) .none)]

theorem takeWitness_iff_due_fromBothLayers :
    let s : NodeStore Position :=
      { backend := Journal.twoRows, persistence := .archive, pruning := .memoryLimit 0 }
    let taken := (s.afterAccesses loadsFromBothLayers).takeWitness.1
    taken[keccak [1]]? = some [1] ∧ taken[keccak [2]]? ≠ some [2] ∧
      taken[keccak [33]]? = some [33] := by
  intro s taken
  have events : s.witnessEvents loadsFromBothLayers =
      [.enabled, .read [33], .read [1], .read [33]] := by
    decide +kernel
  have due : ∀ payload, Witness.Due (s.witnessEvents loadsFromBothLayers) payload →
      payload ∈ [[33], [1], [33]] := by
    intro payload due
    have mem := due.mem
    rw [events] at mem
    simpa using mem
  have distinct :
      Set.InjOn keccak {p | Witness.Due (s.witnessEvents loadsFromBothLayers) p} := by
    have pairs : ∀ p ∈ [[33], [1], [33]], ∀ q ∈ [[33], [1], [33]], keccak p = keccak q → p = q := by
      decide +kernel
    exact fun p hp q hq => pairs p (due p hp) q (due q hq)
  have holds := (takeWitness_iff_due rfl distinct).1
  have on : ∀ reads, .taken ∉ reads → Witness.Recording (.enabled :: reads) :=
    fun reads untaken => ⟨[], reads, rfl, untaken, trivial⟩
  refine ⟨(holds _ _).mpr ⟨rfl, ?_⟩, fun found => ?_, (holds _ _).mpr ⟨rfl, ?_⟩⟩
  · rw [events]
    exact ⟨[.enabled, .read [33]], [.read [33]], rfl, by decide, on _ (by decide)⟩
  · have listed := due [2] ((holds _ _).mp found).2
    revert listed
    decide
  · rw [events]
    exact ⟨[.enabled], [.read [1], .read [33]], rfl, by decide, on _ (by decide)⟩

/-- A load that is recorded finds what a lookup does, and shows it to the witness. -/
theorem load_none_eq_some {s t : NodeStore κ} {key : κ} {payload : Bytes}
    (h : s.load key .none = (.ok (some payload), t)) :
    s.lookup key = .ok (some payload) ∧ t = { s with witness := s.witness.record payload } := by
  unfold load at h
  split at h
  · next found same =>
    obtain ⟨known, rfl⟩ := Prod.ext_iff.mp h
    obtain rfl := Except.ok.inj known
    exact ⟨same, rfl⟩
  · cases h

/--
A reader that finds a node and resolves it holds the payload that a load would return. While
recording is on, that payload is in the witness exactly if the node was not in memory or if some
load had recorded it before.
-/
theorem resolved_in_witness_iff {s t : NodeStore κ} (recording : s.witness.enabled = true) {key : κ}
    {handle : Handle κ} (resolved : (s.find key).resolve s .none = (.ok true, handle, t)) :
    ∃ payload, handle.payload? = some payload ∧ s.lookup key = .ok (some payload) ∧
      (t.takeWitness.1[keccak payload]? = some payload ↔
        s.nodes[key]? = none ∨ s.takeWitness.1[keccak payload]? = some payload) := by
  rcases find_cases s key with ⟨node, live, decoded⟩ | ⟨unknown, undecoded⟩
  · have held := Handle.payload?_ofPayload decoded
    rw [Handle.resolve_of_payload? held] at resolved
    cases resolved
    refine ⟨node.payload, held, ?_, ?_⟩
    · rw [lookup, live]
    · simp [live]
  · rw [unknown] at resolved
    obtain ⟨payload, loaded, decoded⟩ := Handle.resolve_unknown_eq_true resolved
    obtain ⟨found, rfl⟩ := load_none_eq_some loaded
    have absent : s.nodes[key]? = none := by
      -- a node in memory would have been found, since its payload decodes
      cases live : s.nodes[key]? with
      | none => rfl
      | some node =>
        obtain ⟨fault, failed⟩ := undecoded node live
        rw [lookup, live] at found
        cases found
        cases failed.symm.trans decoded
    refine ⟨payload, Handle.payload?_ofPayload decoded, found, iff_of_true ?_ (.inl absent)⟩
    change (s.witness.record payload).payloads[keccak payload]? = some payload
    rw [Witness.getElem?_record, if_pos ⟨recording, rfl⟩]

/-- A leaf with an empty path. -/
def leafCode : Bytes := [0x02, 0, 0, 0, 1, 0xaa, 0x20]

/-- A leaf that is in memory when recording is turned on. -/
def leafInMemory : NodeStore Position :=
  let s : NodeStore Position := { backend := {}, persistence := .archive, pruning := .disabled }
  s.after [.commit 1 (Journal.child 1) leafCode, .enableWitness]

/-- The leaf is found and resolved, and the witness that is taken then is empty. -/
theorem resolved_in_witness_iff_leafInMemory : ∃ handle t,
    (leafInMemory.find (Journal.child 1)).resolve leafInMemory .none = (.ok true, handle, t) ∧
      handle.payload? = some leafCode ∧ t.takeWitness.1[keccak leafCode]? ≠ some leafCode := by
  have recording : leafInMemory.witness.enabled = true := rfl
  have ok : ((leafInMemory.find (Journal.child 1)).resolve leafInMemory .none).1 = .ok true := by
    decide +kernel
  obtain ⟨payload, held, found, iff⟩ := resolved_in_witness_iff recording (Prod.ext ok rfl)
  have same : leafInMemory.lookup (Journal.child 1) = .ok (some leafCode) := by decide +kernel
  obtain rfl := Option.some.inj (Except.ok.inj (found.symm.trans same))
  refine ⟨_, _, Prod.ext ok rfl, held, fun taken => ?_⟩
  have missed : ¬(leafInMemory.nodes[Journal.child 1]? = none ∨
      leafInMemory.takeWitness.1[keccak leafCode]? = some leafCode) := by
    decide +kernel
  exact missed (iff.mp taken)

end StateSync.Store.NodeStore
