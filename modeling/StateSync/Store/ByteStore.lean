import StateSync.Trie.Resolver

/-! Byte-keyed stores of node payloads, and reading nodes straight from one. -/

namespace StateSync.Store

open Trie

/-- A store of byte strings under byte strings. -/
class ByteStore (σ : Type) where
  get : σ → Bytes → Except TrieError (Option Bytes)
  /-- Stores all pairs in order, or none of them. -/
  putAll : σ → List (Bytes × Bytes) → Except TrieError Unit × σ

def ByteStore.put {σ : Type} [ByteStore σ] (s : σ) (key value : Bytes) :
    Except TrieError Unit × σ :=
  ByteStore.putAll s [(key, value)]

/-- Rows in key order. -/
abbrev Rows := Std.TreeMap Bytes Bytes

/-- A map in memory is a store that never fails. -/
instance : ByteStore Rows where
  get rows key := .ok rows[key]?
  putAll rows batch := (.ok (), rows.insertMany batch)

/-- A resolver that reads every node from a byte store, and records no witness. -/
structure Uncached (σ κ : Type) where
  store : σ

instance {σ κ : Type} [ByteStore σ] [NodeKey κ] : Resolver (Uncached σ κ) κ where
  find _ key := .unknown key
  load u key _ := (ByteStore.get u.store (NodeKey.toBytes key), u)

end StateSync.Store
