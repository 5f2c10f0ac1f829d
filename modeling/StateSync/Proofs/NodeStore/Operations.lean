import StateSync.Proofs.NodeStore.Calls

/-!
Operations with their answers. Besides the calls there are the reads that are built on a load, which
carry over wherever a load does, and the questions that leave a store as it is.
-/

namespace StateSync.Trie

variable {ρ σ κ : Type} [Resolver ρ κ] [Resolver σ κ]

namespace Handle

/--
What a reader is told who resolves an unknown node, and the node that is left, by what a load of
its key returns.
-/
def ofLoad (key : κ) : Except TrieError (Option Bytes) → Except TrieError Bool × Handle κ
  | .error e => (.error e, .unknown key)
  | .ok none => (.ok false, .unknown key)
  | .ok (some payload) =>
    match Node.decode payload with
    | .error fault => (.error (.decode fault), .unknown key)
    | .ok node => (.ok true, { key, resolved := some (payload, node) })

theorem ofLoad_eq_true_iff {key : κ} {found : Except TrieError (Option Bytes)}
    {handle : Handle κ} : ofLoad key found = (.ok true, handle) ↔
      ∃ payload, found = .ok (some payload) ∧ ofPayload key payload = .ok handle := by
  rcases found with e | _ | payload
  · simp [ofLoad]
  · simp [ofLoad]
  · cases decoded : Node.decode payload <;> simp [ofLoad, ofPayload, decoded, Except.map]

/-- Resolving loads the payload of an unknown handle only. -/
theorem resolve_eq (handle : Handle κ) (r : ρ) (flags : ReadFlags) :
    handle.resolve r flags =
      if handle.isUnknown then
        ((ofLoad handle.key (Resolver.load r handle.key flags).1).1,
          (ofLoad handle.key (Resolver.load r handle.key flags).1).2,
          (Resolver.load r handle.key flags).2)
      else (.ok true, handle, r) := by
  obtain ⟨key, _ | held⟩ := handle
  · simp only [resolve, isUnknown, Option.isNone_none, if_true]
    rcases Resolver.load r key flags with ⟨_ | _ | payload, t⟩
    · rfl
    · rfl
    · simp only [ofPayload, ofLoad]
      cases Node.decode payload <;> rfl
  · rfl

end Handle

section AfterLoad

variable (r : ρ) (key : κ) (flags : ReadFlags)

/-! What is built on a load leaves the resolver as the load does. -/

theorem Resolver.snd_loadRequired [NodeKey κ] :
    (loadRequired r key flags).2 = (load r key flags).2 := by
  unfold loadRequired
  rcases load r key flags with ⟨_ | _ | _, _⟩ <;> rfl

theorem Resolver.snd_tryLoad : (tryLoad r key flags).2 = (load r key flags).2 := by
  unfold tryLoad
  rcases load r key flags with ⟨_ | _, _⟩ <;> rfl

theorem Resolver.snd_resolve (handle : Handle κ) : (handle.resolve r flags).2.2 =
    if handle.isUnknown then (load r handle.key flags).2 else r := by
  rw [Handle.resolve_eq]
  split <;> rfl

end AfterLoad

section Found

variable (r : ρ) (key : κ) {t : σ} {flags flags' : ReadFlags}

/-! What is built on a load finds what the load finds. -/

theorem Resolver.fst_loadRequired [NodeKey κ] : (loadRequired r key flags).1 =
    (load r key flags).1.bind (Option.elim · (.error (.missingNode (NodeKey.text key))) .ok) := by
  unfold loadRequired
  rcases load r key flags with ⟨_ | _ | _, _⟩ <;> rfl

theorem Resolver.fst_tryLoad : (tryLoad r key flags).1 = (load r key flags).1.toOption.join := by
  unfold tryLoad
  rcases load r key flags with ⟨_ | _, _⟩ <;> rfl

variable {r}

theorem Resolver.fst_resolve_congr {handle : Handle κ}
    (h : (load r handle.key flags).1 = (load t handle.key flags').1) :
    (handle.resolve r flags).1 = (handle.resolve t flags').1 ∧
      (handle.resolve r flags).2.1 = (handle.resolve t flags').2.1 := by
  rw [Handle.resolve_eq, Handle.resolve_eq, h]
  split <;> exact ⟨rfl, rfl⟩

end Found

/-- A load carries over to the image of a resolver: it finds the same and commutes with the map. -/
def Resolver.LoadsAs (image : ρ → σ) (r : ρ) (key : κ) (flags : ReadFlags) : Prop :=
  load (image r) key flags = ((load r key flags).1, image (load r key flags).2)

section LoadsAs

variable {image : ρ → σ} {r : ρ} {key : κ} {flags : ReadFlags}

/-! What is built on a load carries over with it. -/

theorem Resolver.LoadsAs.loadRequired [NodeKey κ] (h : LoadsAs image r key flags) :
    loadRequired (image r) key flags =
      ((loadRequired r key flags).1, image (loadRequired r key flags).2) := by
  refine Prod.ext ?_ ?_
  · rw [fst_loadRequired, fst_loadRequired, h]
  · rw [snd_loadRequired, snd_loadRequired, h]

theorem Resolver.LoadsAs.tryLoad (h : LoadsAs image r key flags) :
    tryLoad (image r) key flags = ((tryLoad r key flags).1, image (tryLoad r key flags).2) := by
  refine Prod.ext ?_ ?_
  · rw [fst_tryLoad, fst_tryLoad, h]
  · rw [snd_tryLoad, snd_tryLoad, h]

theorem Resolver.LoadsAs.resolve {handle : Handle κ} (h : LoadsAs image r handle.key flags) :
    handle.resolve (image r) flags =
      ((handle.resolve r flags).1, (handle.resolve r flags).2.1,
        image (handle.resolve r flags).2.2) := by
  have found : (load (image r) handle.key flags).1 = (load r handle.key flags).1 := by rw [h]
  obtain ⟨answer, left⟩ := fst_resolve_congr found
  refine Prod.ext answer (Prod.ext left ?_)
  change (handle.resolve (image r) flags).2.2 = image (handle.resolve r flags).2.2
  rw [snd_resolve, snd_resolve, h, apply_ite image]

end LoadsAs

namespace Handle

theorem payload?_ofPayload {key : κ} {payload : Bytes} {handle : Handle κ}
    (h : ofPayload key payload = .ok handle) : handle.payload? = some payload := by
  unfold ofPayload at h
  cases decoded : Node.decode payload with
  | error fault =>
    rw [decoded] at h
    cases h
  | ok node =>
    rw [decoded] at h
    obtain rfl := Except.ok.inj h
    rfl

theorem resolve_of_isUnknown_eq_false {handle : Handle κ} (h : handle.isUnknown = false) (r : ρ)
    (flags : ReadFlags) : handle.resolve r flags = (.ok true, handle, r) := by
  rw [resolve_eq, h]
  rfl

/-- A handle that holds a payload is left as it is, and so is the resolver. -/
theorem resolve_of_payload? {handle : Handle κ} {payload : Bytes}
    (h : handle.payload? = some payload) (r : ρ) (flags : ReadFlags) :
    handle.resolve r flags = (.ok true, handle, r) := by
  obtain ⟨key, _ | held⟩ := handle
  · nomatch h
  · exact resolve_of_isUnknown_eq_false rfl r flags

/-- An unknown handle is resolved by a load of a payload that decodes. -/
theorem resolve_unknown_eq_true {r t : ρ} {key : κ} {flags : ReadFlags} {handle : Handle κ}
    (h : (unknown key).resolve r flags = (.ok true, handle, t)) : ∃ payload,
      Resolver.load r key flags = (.ok (some payload), t) ∧ ofPayload key payload = .ok handle := by
  have resolved : ((ofLoad key (Resolver.load r key flags).1).1,
      (ofLoad key (Resolver.load r key flags).1).2, (Resolver.load r key flags).2) =
        (.ok true, handle, t) := (resolve_eq _ r flags).symm.trans h
  obtain ⟨told, rest⟩ := Prod.mk.inj resolved
  obtain ⟨left, rfl⟩ := Prod.mk.inj rest
  obtain ⟨payload, found, decoded⟩ := ofLoad_eq_true_iff.mp (Prod.ext told left)
  exact ⟨payload, Prod.ext found rfl, decoded⟩

end Handle

end StateSync.Trie

namespace StateSync.Store.NodeStore

open Trie

variable {κ : Type}

/-- What a caller does with a node store: a call, a read built on a load, or a question. -/
inductive Operation (κ : Type)
  | call (c : Call κ)
  | loadRequired (key : κ) (flags : ReadFlags)
  | tryLoad (key : κ) (flags : ReadFlags)
  | resolve (handle : Handle κ) (flags : ReadFlags)
  | find (key : κ)
  | isPersisted (key : κ)
  | hasRoot (root : Hash)
  | memory
  | cachedNodes
  | boundary
  | text
  | subscribe
  | receive (receiver : Receiver)

namespace Operation

/-- The type of what an operation answers. -/
def Answer : Operation κ → Type
  | call (.commit ..) => Except StoreError Unit
  | call (.finish ..) => Except StoreError (Option UInt64)
  | call (.load ..) => Except TrieError (Option Bytes)
  | call .takeWitness => Std.TreeMap Hash Bytes
  | call .enableWitness | call (.setFaults ..) => Unit
  | loadRequired .. => Except TrieError Bytes
  | tryLoad .. => Option Bytes
  | resolve .. => Except TrieError Bool × Handle κ
  | find _ => Handle κ
  | isPersisted _ => Except StoreError Bool
  | hasRoot _ => Bool
  | memory | cachedNodes => Nat
  | boundary => Option UInt64
  | text => String
  | subscribe => Receiver
  | receive _ => Received UInt64 × Receiver

variable [NodeKey κ]

def answer (s : NodeStore κ) : (o : Operation κ) → o.Answer
  | call (.commit block key payload) => (s.commit block key payload).map fun _ => ()
  | call (.finish kind block root) => (s.finish kind block root).1
  | call (.load key flags) => (s.load key flags).1
  | call .takeWitness => s.takeWitness.1
  | call .enableWitness | call (.setFaults ..) => ()
  | loadRequired key flags => (Resolver.loadRequired s key flags).1
  | tryLoad key flags => (Resolver.tryLoad s key flags).1
  | resolve handle flags => ((handle.resolve s flags).1, (handle.resolve s flags).2.1)
  | find key => s.find key
  | isPersisted key => s.isPersisted key
  | hasRoot root => s.hasRoot root
  | memory => s.memory
  | cachedNodes => s.cachedNodes
  | boundary => s.boundary
  | text => s.text
  | subscribe => s.boundaries.subscribe
  | receive receiver => s.boundaries.receive receiver

/-- The store after an operation. -/
def run : Operation κ → NodeStore κ → NodeStore κ
  | call c, s => c.run s
  | loadRequired key flags, s => (Resolver.loadRequired s key flags).2
  | tryLoad key flags, s => (Resolver.tryLoad s key flags).2
  | resolve handle flags, s => (handle.resolve s flags).2.2
  | find _, s | isPersisted _, s | hasRoot _, s | memory, s | cachedNodes, s | boundary, s
  | text, s | subscribe, s | receive _, s => s

omit [NodeKey κ] in
/-- The call that an operation comes to: a read comes to its load, a question to none. -/
def call? : Operation κ → Option (Call κ)
  | call c => some c
  | loadRequired key flags | tryLoad key flags => some (.load key flags)
  | resolve handle flags => if handle.isUnknown then some (.load handle.key flags) else none
  | find _ | isPersisted _ | hasRoot _ | memory | cachedNodes | boundary | text | subscribe
  | receive _ => none

theorem run_eq (o : Operation κ) (s : NodeStore κ) : o.run s = o.call?.elim s (·.run s) := by
  cases o with
  | call => rfl
  | loadRequired key flags => exact Resolver.snd_loadRequired s key flags
  | tryLoad key flags => exact Resolver.snd_tryLoad s key flags
  | resolve handle flags =>
    refine (Resolver.snd_resolve s flags handle).trans ?_
    cases unknown : handle.isUnknown <;> simp only [call?, unknown, if_true] <;> rfl
  | find | isPersisted | hasRoot | memory | cachedNodes | boundary | text | subscribe | receive =>
    rfl

end Operation

variable [NodeKey κ]

/-- A node in memory is found resolved, unless its payload does not decode. -/
theorem find_cases (s : NodeStore κ) (key : κ) :
    (∃ node, s.nodes[key]? = some node ∧ Handle.ofPayload key node.payload = .ok (s.find key)) ∨
      s.find key = .unknown key ∧ ∀ node, s.nodes[key]? = some node →
        ∃ fault, Handle.ofPayload key node.payload = .error fault := by
  unfold find
  cases live : s.nodes[key]? with
  | none => exact .inr ⟨rfl, nofun⟩
  | some node =>
    cases decoded : Handle.ofPayload key node.payload with
    | ok handle => exact .inl ⟨node, rfl, by simp only [decoded]⟩
    | error fault =>
      refine .inr ⟨by simp only [decoded], fun other same => ⟨fault, ?_⟩⟩
      rw [← Option.some.inj same, decoded]

/-- The store after some operations. -/
def afterAll (s : NodeStore κ) (operations : List (Operation κ)) : NodeStore κ :=
  operations.foldl (fun s o => o.run s) s

end StateSync.Store.NodeStore
