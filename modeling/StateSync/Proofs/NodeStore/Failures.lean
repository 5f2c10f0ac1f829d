import StateSync.Proofs.NodeStore.InPlace
import StateSync.Proofs.NodeStore.Operations

/-!
Operations that fail. A refused commit leaves no trace, although it changes the store in place. A
flush that fails leaves the root of its commit, and that makes a difference to no operation but the
question for this root.
-/

namespace StateSync.Store.NodeStore

open Trie

variable {κ : Type} [NodeKey κ]

def withRoots (s : NodeStore κ) (roots : Std.TreeMap Hash UInt64) : NodeStore κ :=
  { s with roots }

/-- The roots that are known after a call, by those known before it. -/
def Call.learn : Call κ → Std.TreeMap Hash UInt64 → Std.TreeMap Hash UInt64
  | finish _ block root, roots => roots.insert root block
  | _, roots => roots

/-- The roots that are known after an operation. -/
def Operation.learn : Operation κ → Std.TreeMap Hash UInt64 → Std.TreeMap Hash UInt64
  | call c, roots => c.learn roots
  | _, roots => roots

section WithRoots

/-! No step of a store looks at its known roots. -/

variable (s : NodeStore κ) (roots : Std.TreeMap Hash UInt64)

theorem commit_withRoots (block : UInt64) (key : κ) (payload : Bytes) :
    (s.withRoots roots).commit block key payload =
      (s.commit block key payload).map (·.withRoots roots) := by
  unfold commit withRoots
  dsimp only
  split
  · rfl
  · split
    · split <;> rfl
    · rfl

theorem load_withRoots (key : κ) (flags : ReadFlags) :
    Resolver.LoadsAs (withRoots · roots) s key flags := by
  change (s.withRoots roots).load key flags =
    ((s.load key flags).1, (s.load key flags).2.withRoots roots)
  have found : (s.withRoots roots).lookup key = s.lookup key := rfl
  unfold load
  rw [found]
  rcases s.lookup key with fault | _ | payload
  · rfl
  · rfl
  · unfold recordRead
    dsimp only
    split <;> rfl

theorem flush_withRoots (block : UInt64) :
    (s.withRoots roots).flush block = (s.flush block).map (·.withRoots roots) := by
  have written : (s.withRoots roots).backend.putAll .trieNodes ((s.withRoots roots).batch block) =
      s.backend.putAll .trieNodes (s.batch block) := rfl
  unfold flush
  rw [written]
  cases s.backend.putAll .trieNodes (s.batch block) <;> rfl

theorem evict_withRoots (limit : Nat) (keys : List κ) :
    evict limit keys (s.withRoots roots) = (evict limit keys s).withRoots roots := by
  induction keys generalizing s with
  | nil => rfl
  | cons key keys ih =>
    have memory : (s.withRoots roots).memory = s.memory := rfl
    have node : (s.withRoots roots).nodes[key]? = s.nodes[key]? := rfl
    unfold evict
    rw [memory, node]
    split
    · rfl
    · split
      · exact ih { s with nodes := s.nodes.erase key, memory := _ }
      · exact ih s

theorem prune_withRoots : (s.withRoots roots).prune = s.prune.withRoots roots := by
  have limit : (s.withRoots roots).pruning = s.pruning := rfl
  have memory : (s.withRoots roots).memory = s.memory := rfl
  unfold prune
  rw [limit, memory]
  split
  · split
    · exact evict_withRoots s roots _ _
    · rfl
  · rfl

/-- Finishing a commit adds its root to the known ones, whatever they are. -/
theorem finish_withRoots (kind : TrieKind) (block : UInt64) (root : Hash) :
    (s.withRoots roots).finish kind block root =
      ((s.finish kind block root).1,
        (s.finish kind block root).2.withRoots (roots.insert root block)) := by
  have added : (s.withRoots roots).addRoot root block =
      (s.addRoot root block).withRoots (roots.insert root block) := rfl
  have due : ∀ u : NodeStore κ, (u.withRoots (roots.insert root block)).flushesOn kind block =
      u.flushesOn kind block := fun _ => rfl
  unfold finish
  dsimp only
  rw [added, due, flush_withRoots]
  split
  · cases (s.addRoot root block).flush block with
    | error fault => rfl
    | ok flushed =>
      dsimp only [Except.map]
      rw [prune_withRoots]
      rfl
  · rfl

theorem Call.run_withRoots (c : Call κ) :
    c.run (s.withRoots roots) = (c.run s).withRoots (c.learn roots) := by
  cases c with
  | commit block key payload =>
    unfold Call.run Call.learn
    dsimp only
    rw [commit_withRoots]
    cases s.commit block key payload <;> rfl
  | finish kind block root => exact congrArg Prod.snd (finish_withRoots s roots kind block root)
  | load key flags => exact congrArg Prod.snd (load_withRoots s roots key flags)
  | enableWitness | takeWitness | setFaults => rfl

theorem Operation.run_withRoots (o : Operation κ) :
    o.run (s.withRoots roots) = (o.run s).withRoots (o.learn roots) := by
  cases o with
  | call c => exact c.run_withRoots s roots
  | loadRequired key flags =>
    exact congrArg Prod.snd (load_withRoots s roots key flags).loadRequired
  | tryLoad key flags => exact congrArg Prod.snd (load_withRoots s roots key flags).tryLoad
  | resolve handle flags =>
    exact congrArg (fun r => r.2.2) (load_withRoots s roots handle.key flags).resolve
  | find | isPersisted | hasRoot | memory | cachedNodes | boundary | text | subscribe | receive =>
    rfl

theorem Operation.roots_run (o : Operation κ) : (o.run s).roots = o.learn s.roots :=
  congrArg NodeStore.roots (o.run_withRoots s s.roots)

/-- Only the question for a root depends on the known roots. -/
theorem Operation.answer_withRoots (o : Operation κ) (other : ∀ root, o ≠ .hasRoot root) :
    o.answer (s.withRoots roots) = o.answer s := by
  cases o with
  | call c =>
    cases c with
    | commit block key payload =>
      unfold Operation.answer
      dsimp only
      rw [commit_withRoots]
      cases s.commit block key payload <;> rfl
    | finish kind block root =>
      have same := finish_withRoots s roots kind block root
      exact (Prod.ext_iff.mp same).1
    | load key flags =>
      have same := load_withRoots s roots key flags
      exact (Prod.ext_iff.mp same).1
    | enableWitness | takeWitness | setFaults => rfl
  | loadRequired key flags =>
    have same := (load_withRoots s roots key flags).loadRequired
    exact (Prod.ext_iff.mp same).1
  | tryLoad key flags =>
    have same := (load_withRoots s roots key flags).tryLoad
    exact (Prod.ext_iff.mp same).1
  | resolve handle flags =>
    exact congrArg (fun r => (r.1, r.2.1)) (load_withRoots s roots handle.key flags).resolve
  | hasRoot root => exact absurd rfl (other root)
  | find | isPersisted | memory | cachedNodes | boundary | text | subscribe | receive => rfl

end WithRoots

variable {s t : NodeStore κ} {root : Hash}

omit [NodeKey κ] in
theorem contains_learn (o : Operation κ) {known : Bool} {other : Hash}
    {roots more : Std.TreeMap Hash UInt64}
    (h : more.contains other = (known || roots.contains other)) :
    (o.learn more).contains other = (known || (o.learn roots).contains other) := by
  cases o with
  | call c =>
    cases c with
    | finish kind block root =>
      unfold Operation.learn Call.learn
      simp only [Std.TreeMap.contains_insert, h, Bool.or_left_comm]
    | commit | load | enableWitness | takeWitness | setFaults => exact h
  | loadRequired | tryLoad | resolve | find | isPersisted | hasRoot | memory | cachedNodes
  | boundary | text | subscribe | receive => exact h

/-- A store like another one, to which one more root is known. -/
structure KnowsAlso (root : Hash) (s t : NodeStore κ) : Prop where
  same : t = s.withRoots t.roots
  known : ∀ other, t.hasRoot other = (other == root || s.hasRoot other)

theorem knowsAlso_addRoot (s : NodeStore κ) (root : Hash) (block : UInt64) :
    KnowsAlso root s (s.addRoot root block) := by
  refine ⟨rfl, fun other => ?_⟩
  unfold hasRoot addRoot
  rw [Std.TreeMap.contains_insert]
  refine congrArg (· || s.roots.contains other) (Bool.eq_iff_iff.mpr ?_)
  rw [beq_iff_eq, beq_iff_eq, Std.LawfulEqOrd.compare_eq_iff_eq, eq_comm]

theorem knowsAlso_run (h : KnowsAlso root s t) (o : Operation κ) :
    KnowsAlso root (o.run s) (o.run t) := by
  have run : o.run t = (o.run s).withRoots (o.learn t.roots) := by
    rw [← o.run_withRoots, ← h.same]
  refine ⟨run.trans (by rw [o.roots_run]), fun other => ?_⟩
  unfold hasRoot
  rw [o.roots_run, o.roots_run]
  exact contains_learn o (h.known other)

theorem knowsAlso_afterAll (h : KnowsAlso root s t) (operations : List (Operation κ)) :
    KnowsAlso root (s.afterAll operations) (t.afterAll operations) := by
  induction operations generalizing s t with
  | nil => exact h
  | cons o operations ih => exact ih (knowsAlso_run h o)

theorem KnowsAlso.answer_eq (h : KnowsAlso root s t) {o : Operation κ} (other : o ≠ .hasRoot root) :
    o.answer t = o.answer s := by
  by_cases question : ∃ asked, o = .hasRoot asked
  · obtain ⟨asked, rfl⟩ := question
    have ne : asked ≠ root := fun same => other (congrArg Operation.hasRoot same)
    refine (h.known asked).trans ?_
    rw [beq_false_of_ne ne, Bool.false_or]
    rfl
  · rw [h.same]
    exact o.answer_withRoots s _ fun asked same => question ⟨asked, same⟩

/-- What a commit is refused for: its payload, or a block up to the boundary. -/
inductive Refused (s : NodeStore κ) (block : UInt64) (key : κ) (payload : Bytes) :
    StoreError → Prop
  | unverified {fault : VerifyFault} (bad : NodeKey.verify key payload = .error fault) :
      Refused s block key payload (.trie (.verify fault))
  | settled {boundary : UInt64} (good : NodeKey.verify key payload = .ok ())
      (known : s.boundary = some boundary) (below : block ≤ boundary) :
      Refused s block key payload (.storage (.violation (.commitBelowBoundary block boundary)))

theorem commit_eq_error_iff {block : UInt64} {key : κ} {payload : Bytes} {e : StoreError} :
    s.commit block key payload = .error e ↔ Refused s block key payload e := by
  unfold commit
  constructor
  · intro h
    split at h
    · next bad =>
      cases h
      exact .unverified bad
    · next good =>
      split at h
      · next known =>
        split at h
        · next below =>
          cases h
          exact .settled good known below
        · cases h
      · cases h
  · intro h
    cases h with
    | unverified bad => simp only [bad]
    | settled good known below => simp only [good, known, if_pos below]

theorem commitInPlace_eq_error_iff {block : UInt64} {key : κ} {payload : Bytes} {e : StoreError} :
    ((commitInPlace block key payload).runOn s).1 = .error e ↔ Refused s block key payload e := by
  rw [commitInPlace_eq, ← commit_eq_error_iff]
  cases s.commit block key payload <;> simp [Except.map]

theorem Refused.run_eq {block : UInt64} {key : κ} {payload : Bytes} {e : StoreError}
    (h : Refused s block key payload e) : (Call.commit block key payload).run s = s := by
  unfold Call.run
  dsimp only
  rw [commit_eq_error_iff.mpr h]

theorem finish_eq_error_iff {kind : TrieKind} {block : UInt64} {e : StoreError} :
    (s.finish kind block root).1 = .error e ↔ s.flushesOn kind block = true ∧
      ∃ fault, s.backend.putAll .trieNodes (s.batch block) = .error fault ∧ .storage fault = e := by
  rw [fst_finish]
  cases s.flushesOn kind block with
  | false => simp
  | true => cases s.backend.putAll .trieNodes (s.batch block) <;> simp

theorem finish_of_error {kind : TrieKind} {block : UInt64} {e : StoreError}
    (h : (s.finish kind block root).1 = .error e) :
    (s.finish kind block root).2 = s.addRoot root block := by
  have finished := finish_finished s kind block root
  rw [h] at finished
  generalize (s.finish kind block root).2 = t at finished ⊢
  cases finished with
  | failed => rfl

/--
An operation that fails leaves no trace. A commit is refused for its payload or its block before it
changes anything. A finished commit fails with its batch; then the store is as before but for the
known root, and all later operations do and answer what they would have, unless they ask for it.
-/
theorem failure_leaves_root_only (s : NodeStore κ) :
    (∀ block key payload e,
      let stepwise := (commitInPlace block key payload).runOn s
      (s.commit block key payload = .error e ↔ Refused s block key payload e) ∧
      (stepwise.1 = .error e ↔ Refused s block key payload e) ∧
      (Refused s block key payload e →
        stepwise.2 = s ∧ (Call.commit block key payload).run s = s)) ∧
    ∀ kind block root e,
      let stepwise := (finishInPlace kind block root).runOn s
      stepwise = s.finish kind block root ∧
      ((s.finish kind block root).1 = .error e ↔ s.flushesOn kind block = true ∧
        ∃ fault, s.backend.putAll .trieNodes (s.batch block) = .error fault ∧ .storage fault = e) ∧
      ((s.finish kind block root).1 = .error e →
        stepwise.2 = { s with roots := s.roots.insert root block } ∧
        (s.finish kind block root).2 = { s with roots := s.roots.insert root block } ∧
        ∀ operations : List (Operation κ),
          let failed := (s.finish kind block root).2.afterAll operations
          let spared := s.afterAll operations
          failed = { spared with roots := failed.roots } ∧
            (∀ other, failed.hasRoot other = (other == root || spared.hasRoot other)) ∧
            ∀ o : Operation κ, o ≠ .hasRoot root → o.answer failed = o.answer spared) := by
  constructor
  case left =>
    intro block key payload e stepwise
    refine ⟨commit_eq_error_iff, commitInPlace_eq_error_iff, fun refused => ?_⟩
    have left : stepwise.2 = (Call.commit block key payload).run s :=
      congrArg Prod.snd (commitInPlace_eq s block key payload)
    exact ⟨left.trans refused.run_eq, refused.run_eq⟩
  case right =>
    intro kind block root e stepwise
    have whole : stepwise = s.finish kind block root := finishInPlace_eq s kind block root
    refine ⟨whole, finish_eq_error_iff, fun failure => ?_⟩
    have left := finish_of_error failure
    refine ⟨(congrArg Prod.snd whole).trans left, left, fun operations => ?_⟩
    rw [left]
    have also := knowsAlso_afterAll (knowsAlso_addRoot s root block) operations
    exact ⟨also.same, also.known, fun o other => also.answer_eq other⟩

/-- A commit over a backend that is out of room. -/
def outOfRoom : NodeStore Position :=
  let s : NodeStore Position :=
    { backend := { writeFault := some (.described "full") }, persistence := .archive,
      pruning := .disabled }
  s.after [.commit 1 ⟨none, ⟨[1]⟩⟩ [0x11]]

/-- Once there is room again, the next block is committed and finished. -/
def nextBlock : List (Operation Position) :=
  [.call (.setFaults none none), .call (.commit 2 ⟨none, ⟨[2]⟩⟩ [0x22]),
    .call (.finish .state 2 (.ofNat 2))]

theorem failure_leaves_root_only_outOfRoom :
    ((commitInPlace 2 ⟨none, ⟨[1]⟩⟩ []).runOn outOfRoom).2 = outOfRoom ∧
    (Call.commit 2 ⟨none, ⟨[1]⟩⟩ []).run outOfRoom = outOfRoom ∧
    (outOfRoom.finish .state 1 (.ofNat 1)).1 = .error (.storage (.described "full")) ∧
    let failed := (outOfRoom.finish .state 1 (.ofNat 1)).2.afterAll nextBlock
    let spared := outOfRoom.afterAll nextBlock
    failed.boundary = some 2 ∧ (failed.load ⟨none, ⟨[1]⟩⟩ .none).1 = .ok (some [0x11]) ∧
      spared.hasRoot (.ofNat 1) = false ∧ failed.hasRoot (.ofNat 1) = true := by
  have empty : outOfRoom.commit 2 ⟨none, ⟨[1]⟩⟩ [] =
      .error (.trie (.verify (.emptyPayload (Position.text ⟨none, ⟨[1]⟩⟩)))) := rfl
  have full : (outOfRoom.finish .state 1 (.ofNat 1)).1 = .error (.storage (.described "full")) := by
    decide +kernel
  obtain ⟨refused, failure⟩ := failure_leaves_root_only outOfRoom
  obtain ⟨stepwise, unchanged⟩ := (refused 2 ⟨none, ⟨[1]⟩⟩ [] _).2.2 ((refused _ _ _ _).1.mp empty)
  obtain ⟨-, known, answers⟩ := ((failure .state 1 (.ofNat 1) _).2.2 full).2.2 nextBlock
  have boundary : (outOfRoom.afterAll nextBlock).boundary = some 2 := by decide +kernel
  have loaded :
      ((outOfRoom.afterAll nextBlock).load ⟨none, ⟨[1]⟩⟩ .none).1 = .ok (some [0x11]) := by
    decide +kernel
  refine ⟨stepwise, unchanged, full, ?_, ?_, by decide +kernel, ?_⟩
  · exact (answers .boundary nofun).trans boundary
  · exact (answers (.call (.load ⟨none, ⟨[1]⟩⟩ .none)) nofun).trans loaded
  · exact (known (.ofNat 1)).trans (by decide +kernel)

end StateSync.Store.NodeStore
