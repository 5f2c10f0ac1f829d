import StateSync.Trie.Key

/-!
Reading nodes from a store. A resolver loads the payload under a key; a handle is a node that is
loaded or that still has to be; a witness keeps the payloads read while recording was on.
-/

namespace StateSync.Trie

/-- Options of a read. -/
structure ReadFlags where
  /-- The payload is not recorded in the witness. -/
  skipWitness : Bool := false
deriving DecidableEq

namespace ReadFlags

def none : ReadFlags := {}

/-- Every option of the second set is in the first. -/
def contains (a b : ReadFlags) : Bool := !b.skipWitness || a.skipWitness

def union (a b : ReadFlags) : ReadFlags := ⟨a.skipWitness || b.skipWitness⟩

end ReadFlags

/-- A node under a key: unknown, or resolved to its payload and what the payload encodes. -/
structure Handle (κ : Type) where
  key : κ
  resolved : Option (Bytes × Node) := none
deriving DecidableEq

namespace Handle

variable {κ : Type}

def unknown (key : κ) : Handle κ := { key }

/-- A resolved node from a payload that is trusted. -/
def ofPayload (key : κ) (payload : Bytes) : Except DecodeFault (Handle κ) :=
  (Node.decode payload).map fun node => { key, resolved := some (payload, node) }

def isUnknown (h : Handle κ) : Bool := h.resolved.isNone

def payload? (h : Handle κ) : Option Bytes := h.resolved.map Prod.fst

def node? (h : Handle κ) : Option Node := h.resolved.map Prod.snd

/-- The children of a resolved node; a leaf and an unknown node have none. -/
def childHashes (h : Handle κ) : List Hash := (h.node?.map Node.childHashes).getD []

end Handle

/-- A store that nodes can be read from. Reading may change the store: it may record a witness. -/
class Resolver (ρ : Type) (κ : outParam Type) where
  /-- The node under a key if it is at hand, and an unknown handle if not. -/
  find : ρ → κ → Handle κ
  /-- The payload under a key, if any layer of the store holds one. -/
  load : ρ → κ → ReadFlags → Except TrieError (Option Bytes) × ρ

namespace Resolver

variable {ρ κ : Type} [Resolver ρ κ] [NodeKey κ]

/-- Like `load`, but a key without payload is an error. -/
def loadRequired (r : ρ) (key : κ) (flags : ReadFlags) : Except TrieError Bytes × ρ :=
  match load r key flags with
  | (.ok (some payload), r) => (.ok payload, r)
  | (.ok none, r) => (.error (.missingNode (NodeKey.text key)), r)
  | (.error e, r) => (.error e, r)

/-- Like `load`, but a failure counts as absence. -/
def tryLoad (r : ρ) (key : κ) (flags : ReadFlags) : Option Bytes × ρ :=
  match load r key flags with
  | (.ok payload, r) => (payload, r)
  | (.error _, r) => (none, r)

end Resolver

/--
Loads the payload of an unknown handle. The answer is false if the store holds none, and the
handle then stays unknown, as it does after an error. A resolved handle is left as it is.
-/
def Handle.resolve {ρ κ : Type} [Resolver ρ κ] (h : Handle κ) (r : ρ) (flags : ReadFlags) :
    Except TrieError Bool × Handle κ × ρ :=
  if h.isUnknown then
    match Resolver.load r h.key flags with
    | (.error e, r) => (.error e, h, r)
    | (.ok none, r) => (.ok false, h, r)
    | (.ok (some payload), r) =>
      match Handle.ofPayload h.key payload with
      | .error fault => (.error (.decode fault), h, r)
      | .ok h => (.ok true, h, r)
  else (.ok true, h, r)

/-- The payloads read while recording was on, each under its digest. -/
structure Witness where
  enabled : Bool := false
  payloads : Std.TreeMap Hash Bytes := ∅

namespace Witness

def enable (w : Witness) : Witness := { w with enabled := true }

/-- Keeps a payload if recording is on. -/
def record (w : Witness) (payload : Bytes) : Witness :=
  if w.enabled then { w with payloads := w.payloads.insert (keccak payload) payload } else w

/-- Stops recording and hands out what was recorded. -/
def take (w : Witness) : Std.TreeMap Hash Bytes × Witness := (w.payloads, {})

end Witness

end StateSync.Trie
