import StateSync.Proofs.NodeStore.Operations
import StateSync.Store.ReadOnlyView

/-!
Stores that are shared with read-only views. Whatever is done through the views can be deleted from
a run: the store and its answers stay the same, and a view reads what the store itself would return
to a read that is not recorded.
-/

namespace StateSync.Store

open Trie

variable {κ : Type}

/-- A read that leaves no trace in the witness. -/
def unrecorded : ReadFlags := ⟨true⟩

namespace ReadOnlyView

/-- What a client does through a read-only view. -/
inductive Operation (κ : Type)
  | load (key : κ) (flags : ReadFlags)
  | loadRequired (key : κ) (flags : ReadFlags)
  | tryLoad (key : κ) (flags : ReadFlags)
  | resolve (handle : Handle κ) (flags : ReadFlags)
  | find (key : κ)
  | commit (block : UInt64) (key : κ) (payload : Bytes)
  | finish (kind : TrieKind) (block : UInt64) (root : Hash)
  | hasRoot (root : Hash)
  | subscribe
  | receive (receiver : Receiver)

variable [NodeKey κ]

/-- The view after an operation through it. -/
def Operation.run : Operation κ → ReadOnlyView κ → ReadOnlyView κ
  | load key flags, v => (Resolver.load v key flags).2
  | loadRequired key flags, v => (Resolver.loadRequired v key flags).2
  | tryLoad key flags, v => (Resolver.tryLoad v key flags).2
  | resolve handle flags, v => (handle.resolve v flags).2.2
  | commit block key payload, v =>
    match CommitStore.commit v block key payload with
    | .ok v => v
    | .error _ => v
  | finish kind block root, v => (CommitStore.finish v kind block root).2
  | find _, v | hasRoot _, v | subscribe, v | receive _, v => v

/-- A load through a view is an unrecorded load of the store, whatever its flags. -/
theorem load_eq (v : ReadOnlyView κ) (key : κ) (flags : ReadFlags) :
    Resolver.load v key flags = ((v.store.load key unrecorded).1, v) := by
  have skips : flags.union ⟨true⟩ = unrecorded := congrArg ReadFlags.mk (Bool.or_true _)
  have unchanged : (v.store.load key unrecorded).2 = v.store := by
    unfold NodeStore.load
    rcases v.store.lookup key with fault | _ | payload <;> rfl
  change ((v.store.load key (flags.union ⟨true⟩)).1, ReadOnlyView.mk
    (v.store.load key (flags.union ⟨true⟩)).2) = _
  rw [skips]
  exact congrArg (fun store => ((v.store.load key unrecorded).1, ReadOnlyView.mk store)) unchanged

/-- Nothing that is done through a view changes its store. -/
theorem Operation.run_eq (o : Operation κ) (v : ReadOnlyView κ) : o.run v = v := by
  have unchanged : ∀ key flags, (Resolver.load v key flags).2 = v :=
    fun key flags => congrArg Prod.snd (load_eq v key flags)
  cases o with
  | load key flags => exact unchanged key flags
  | loadRequired key flags =>
    exact (Resolver.snd_loadRequired v key flags).trans (unchanged key flags)
  | tryLoad key flags => exact (Resolver.snd_tryLoad v key flags).trans (unchanged key flags)
  | resolve handle flags =>
    refine (Resolver.snd_resolve v flags handle).trans ?_
    rw [unchanged, ite_self]
  | find | commit | finish | hasRoot | subscribe | receive => rfl

/-- Every read through a view returns what a store returns to the same read unrecorded. -/
structure ReadsAs (v : ReadOnlyView κ) (s : NodeStore κ) : Prop where
  load : ∀ key flags, (Resolver.load v key flags).1 = (Resolver.load s key unrecorded).1
  loadRequired : ∀ key flags,
    (Resolver.loadRequired v key flags).1 = (Resolver.loadRequired s key unrecorded).1
  tryLoad : ∀ key flags, (Resolver.tryLoad v key flags).1 = (Resolver.tryLoad s key unrecorded).1
  resolve : ∀ (handle : Handle κ) flags,
    (handle.resolve v flags).1 = (handle.resolve s unrecorded).1 ∧
      (handle.resolve v flags).2.1 = (handle.resolve s unrecorded).2.1
  find : ∀ key, Resolver.find v key = Resolver.find s key
  hasRoot : ∀ root, CommitStore.hasRoot v root = CommitStore.hasRoot s root

theorem readsAs_readOnly (s : NodeStore κ) : s.readOnly.ReadsAs s := by
  have found : ∀ key flags,
      (Resolver.load s.readOnly key flags).1 = (Resolver.load s key unrecorded).1 :=
    fun key flags => congrArg Prod.fst (load_eq s.readOnly key flags)
  refine ⟨found, fun key flags => ?_, fun key flags => ?_, fun handle flags => ?_,
    fun _ => rfl, fun _ => rfl⟩
  · rw [Resolver.fst_loadRequired, Resolver.fst_loadRequired, found]
  · rw [Resolver.fst_tryLoad, Resolver.fst_tryLoad, found]
  · exact Resolver.fst_resolve_congr (found handle.key flags)

end ReadOnlyView

namespace NodeStore

/--
What happens to a store that is shared with read-only views: an operation on the store itself, or
one through some view. A view has nothing of its own, so it is no matter through which.
-/
inductive Access (κ : Type)
  | direct (o : Operation κ)
  | viewed (o : ReadOnlyView.Operation κ)

namespace Access

def isDirect : Access κ → Bool
  | direct _ => true
  | viewed _ => false

/-- The call that an access comes to: those through views come to none. -/
def call? : Access κ → Option (Call κ)
  | direct o => o.call?
  | viewed _ => none

end Access

variable [NodeKey κ]

/-- The store after an access. -/
def Access.run : Access κ → NodeStore κ → NodeStore κ
  | direct o, s => o.run s
  | viewed o, s => (o.run s.readOnly).store

/-- The store after some accesses. -/
def afterAccesses (s : NodeStore κ) (accesses : List (Access κ)) : NodeStore κ :=
  accesses.foldl (fun s a => a.run s) s

/-- The operations on the store itself in the course of some accesses, each with its answer. -/
def answers (s : NodeStore κ) : List (Access κ) → List (Σ o : Operation κ, o.Answer)
  | [] => []
  | .direct o :: accesses => ⟨o, o.answer s⟩ :: answers ((Access.direct o).run s) accesses
  | .viewed o :: accesses => answers ((Access.viewed o).run s) accesses

theorem Access.run_viewed (o : ReadOnlyView.Operation κ) (s : NodeStore κ) :
    (viewed o).run s = s :=
  congrArg ReadOnlyView.store (o.run_eq s.readOnly)

theorem Access.run_eq (a : Access κ) (s : NodeStore κ) : a.run s = a.call?.elim s (·.run s) := by
  cases a with
  | direct o => exact o.run_eq s
  | viewed o => exact run_viewed o s

/-- A run of accesses is a run of calls, so it keeps whatever the calls keep. -/
theorem afterAccesses_eq (s : NodeStore κ) (accesses : List (Access κ)) :
    s.afterAccesses accesses = s.after (accesses.filterMap Access.call?) := by
  induction accesses generalizing s with
  | nil => rfl
  | cons a accesses ih =>
    refine (ih (a.run s)).trans ?_
    rw [a.run_eq, List.filterMap_cons]
    cases a.call? <;> rfl

theorem afterAccesses_filter (s : NodeStore κ) (accesses : List (Access κ)) :
    s.afterAccesses (accesses.filter Access.isDirect) = s.afterAccesses accesses := by
  induction accesses generalizing s with
  | nil => rfl
  | cons a accesses ih =>
    cases a with
    | direct o => exact ih ((Access.direct o).run s)
    | viewed o =>
      refine (ih s).trans (congrArg (afterAccesses · accesses) ?_)
      exact (Access.run_viewed o s).symm

theorem answers_filter (s : NodeStore κ) (accesses : List (Access κ)) :
    s.answers (accesses.filter Access.isDirect) = s.answers accesses := by
  induction accesses generalizing s with
  | nil => rfl
  | cons a accesses ih =>
    cases a with
    | direct o => exact congrArg (List.cons _) (ih ((Access.direct o).run s))
    | viewed o =>
      refine (ih s).trans (congrArg (answers · accesses) ?_)
      exact (Access.run_viewed o s).symm

/--
Read-only views do not interfere. Without the operations that are made through them a run leaves the
same store, with its backend, its witness and all that it announced, and gives the same answers; and
at every point of the run a view reads what the store of the run without them returns to a read that
is not recorded.
-/
theorem views_leave_no_trace (s : NodeStore κ) (accesses : List (Access κ)) :
    let own := accesses.filter Access.isDirect
    s.afterAccesses own = s.afterAccesses accesses ∧ s.answers own = s.answers accesses ∧
      ∀ n, let past := accesses.take n
        let pastOwn := past.filter Access.isDirect
        (s.afterAccesses past).readOnly.ReadsAs (s.afterAccesses pastOwn) := by
  refine ⟨afterAccesses_filter s accesses, answers_filter s accesses, fun n => ?_⟩
  dsimp only
  rw [afterAccesses_filter]
  exact ReadOnlyView.readsAs_readOnly _

end NodeStore

end StateSync.Store
