import StateSync.Proofs.NodeStore.Calls

/-!
The boundaries of a node store. They only rise, each is announced once, by the call that flushed up
to it, and no other call writes a row. A call is one whole step, from its first look at the store to
the announcement.
-/

namespace StateSync.Store.NodeStore

open Trie

variable {κ : Type} [NodeKey κ] {s t : NodeStore κ} {heard : List UInt64}

/-- The boundaries that some calls announce, in order. -/
def announcements (s : NodeStore κ) : List (Call κ) → List UInt64
  | [] => []
  | c :: calls => (c.announced? s).toList ++ announcements (c.run s) calls

/-- Stores with the same boundary and rows, of which the subscribers have heard the same. -/
structure SameBoundary (s t : NodeStore κ) : Prop where
  persistence : t.persistence = s.persistence
  boundary : t.boundary = s.boundary
  rows : t.backend.trieNodes = s.backend.trieNodes
  boundaries : t.boundaries = s.boundaries

/-- What a call does to the boundary: it leaves it, or flushes and announces a new one. -/
inductive Bounded (s : NodeStore κ) : Call κ → Option UInt64 → NodeStore κ → Prop
  | kept {c : Call κ} {t : NodeStore κ} (same : SameBoundary s t) : Bounded s c none t
  | moved {block : UInt64} {root : Hash} {t : NodeStore κ}
      (above : s.settled block = false)
      (persistence : t.persistence = s.persistence) (reached : t.boundary = some block)
      (sent : t.boundaries = s.boundaries.send block) :
      Bounded s (.finish .state block root) (some block) t

/-- What was announced is what the subscribers were sent, and it rises to the boundary. -/
structure Rising (s : NodeStore κ) (heard : List UInt64) : Prop where
  sent : s.boundaries.sent.toList = heard
  last : s.boundary = heard.getLast?
  rising : heard.Pairwise (· < ·)

theorem settled_eq_false {block : UInt64} :
    s.settled block = false ↔ ∀ boundary, s.boundary = some boundary → boundary < block := by
  unfold settled
  cases s.boundary with
  | none => simp
  | some boundary => simp

theorem flush_prune_frame {block : UInt64} (done : s.flush block = .ok t) :
    t.prune.persistence = s.persistence ∧ t.prune.boundary = some block ∧
      t.prune.boundaries = s.boundaries := by
  obtain ⟨backend, -, rfl⟩ := flush_eq done
  obtain ⟨nodes, memory, heq⟩ := prune_frame ({ s with backend }.settle block)
  rw [heq]
  exact ⟨rfl, rfl, rfl⟩

theorem bounded (s : NodeStore κ) (c : Call κ) : Bounded s c (c.announced? s) (c.run s) := by
  have step := stepped s c
  generalize c.announced? s = announced at step ⊢
  generalize c.run s = t at step ⊢
  cases step with
  | refused | stored | noted | loaded | enabled | taken | faulted =>
    exact .kept ⟨rfl, rfl, rfl, rfl⟩
  | @flushed _ block _ _ due done =>
    obtain ⟨rfl, -, above⟩ := flushesOn_eq_true.mp due
    obtain ⟨persistence, reached, same⟩ := flush_prune_frame done
    exact .moved above persistence reached (congrArg (Channel.send · block) same)

theorem pairwise_lt_append {block : UInt64} (rising : heard.Pairwise (· < ·))
    (above : ∀ last, heard.getLast? = some last → last < block) :
    (heard ++ [block]).Pairwise (· < ·) := by
  rw [← List.isChain_iff_pairwise] at rising ⊢
  refine List.isChain_append.mpr ⟨rising, .singleton _, fun last mem first h => ?_⟩
  obtain rfl := Option.mem_some_iff.mp h
  exact above last mem

theorem rising_run (h : Rising s heard) (c : Call κ) :
    Rising (c.run s) (heard ++ (c.announced? s).toList) := by
  have step := bounded s c
  generalize c.announced? s = announced at step ⊢
  generalize c.run s = t at step ⊢
  cases step with
  | kept same =>
    rw [Option.toList_none, List.append_nil]
    exact ⟨by rw [same.boundaries, h.sent], same.boundary.trans h.last, h.rising⟩
  | @moved block _ _ above _ reached sent =>
    refine ⟨?_, ?_, pairwise_lt_append h.rising fun last known => ?_⟩
    · rw [sent, Channel.send, Array.toList_push, h.sent]
      rfl
    · rw [reached, Option.toList_some, List.getLast?_concat]
    · exact settled_eq_false.mp above last (h.last.trans known)

theorem rising_after (h : Rising s heard) (calls : List (Call κ)) :
    Rising (s.after calls) (heard ++ s.announcements calls) := by
  induction calls generalizing s heard with
  | nil =>
    rw [announcements, List.append_nil]
    exact h
  | cons c calls ih =>
    rw [announcements, ← List.append_assoc]
    exact ih (rising_run h c)

theorem persistence_run (s : NodeStore κ) (c : Call κ) : (c.run s).persistence = s.persistence := by
  have step := bounded s c
  generalize c.announced? s = announced at step
  cases step with
  | kept same => exact same.persistence
  | moved _ persistence => exact persistence

theorem persistence_after (s : NodeStore κ) (calls : List (Call κ)) :
    (s.after calls).persistence = s.persistence := by
  induction calls generalizing s with
  | nil => rfl
  | cons c calls ih => exact (ih (c.run s)).trans (persistence_run s c)

theorem announced?_finish (kind : TrieKind) (block : UInt64) (root : Hash) :
    (Call.finish kind block root).announced? s =
      if s.flushesOn kind block && (s.backend.putAll .trieNodes (s.batch block)).isOk then
        some block
      else none := by
  change (s.finish kind block root).1.toOption.join = _
  rw [fst_finish]
  cases s.flushesOn kind block with
  | false => rfl
  | true => cases s.backend.putAll .trieNodes (s.batch block) <;> rfl

/-- How a call treats the boundary of a store under a persistence policy, and its rows. -/
structure BoundaryLaw (persistence : Persistence) (s : NodeStore κ) (c : Call κ) : Prop where
  /--
  A boundary is announced by finishing the commit of a state trie on a due block above the last one,
  if the batch is written.
  -/
  announced : ∀ block, c.announced? s = some block ↔
    (∃ root, c = .finish .state block root) ∧ persistence.flushes block = true ∧
      (∀ boundary, s.boundary = some boundary → boundary < block) ∧
      (s.backend.putAll .trieNodes (s.batch block)).isOk
  reached : ∀ block, c.announced? s = some block → (c.run s).boundary = some block
  /-- Any other call leaves the boundary and the rows. -/
  quiet : c.announced? s = none →
    (c.run s).boundary = s.boundary ∧ (c.run s).backend.trieNodes = s.backend.trieNodes
  rises : ∀ boundary, s.boundary = some boundary →
    ∃ later, (c.run s).boundary = some later ∧ boundary ≤ later
  /-- Storage tries and blocks up to the boundary never flush. -/
  idle : ∀ kind block root, c = .finish kind block root →
    kind = .storage ∨ s.settled block = true ∨ persistence = .never → c.announced? s = none

theorem announced?_eq_some_iff {c : Call κ} {block : UInt64} :
    c.announced? s = some block ↔
      (∃ root, c = .finish .state block root) ∧ s.persistence.flushes block = true ∧
        (∀ boundary, s.boundary = some boundary → boundary < block) ∧
        (s.backend.putAll .trieNodes (s.batch block)).isOk := by
  rw [← settled_eq_false]
  cases c with
  | finish kind finished root =>
    rw [announced?_finish, Option.ite_none_right_eq_some, Bool.and_eq_true, flushesOn_eq_true]
    constructor
    · rintro ⟨⟨⟨rfl, due, above⟩, written⟩, same⟩
      obtain rfl := Option.some.inj same
      exact ⟨⟨root, rfl⟩, due, above, written⟩
    · rintro ⟨⟨_, same⟩, due, above, written⟩
      cases same
      exact ⟨⟨⟨rfl, due, above⟩, written⟩, rfl⟩
  | commit | load | enableWitness | takeWitness | setFaults =>
    constructor
    · intro h
      cases h
    · rintro ⟨⟨_, same⟩, -⟩
      cases same

theorem boundaryLaw (s : NodeStore κ) (c : Call κ) : BoundaryLaw s.persistence s c := by
  have step := bounded s c
  refine ⟨fun block => announced?_eq_some_iff, fun block h => ?_, fun h => ?_,
    fun boundary known => ?_, ?_⟩
  · rw [h] at step
    generalize c.run s = t at step ⊢
    cases step with
    | moved _ _ reached => exact reached
  · rw [h] at step
    generalize c.run s = t at step ⊢
    cases step with
    | kept same => exact ⟨same.boundary, same.rows⟩
  · generalize c.announced? s = announced at step
    generalize c.run s = t at step ⊢
    cases step with
    | kept same => exact ⟨boundary, same.boundary.trans known, UInt64.le_refl _⟩
    | @moved block _ _ above _ reached =>
      have below := settled_eq_false.mp above boundary known
      exact ⟨block, reached, UInt64.le_of_lt below⟩
  · rintro kind block root rfl idle
    have unflushed : ¬s.flushesOn kind block = true := by
      rw [flushesOn_eq_true]
      rintro ⟨rfl, due, above⟩
      rcases idle with wrongKind | settled | never
      · cases wrongKind
      · cases above.symm.trans settled
      · rw [never] at due
        cases due
    rw [announced?_finish, Bool.eq_false_of_not_eq_true unflushed]
    rfl

theorem announced?_never (never : s.persistence = .never) (c : Call κ) :
    c.announced? s = none := by
  cases c with
  | finish kind block root => exact (boundaryLaw s _).idle kind block root rfl (.inr (.inr never))
  | commit | load | enableWitness | takeWitness | setFaults => rfl

theorem rows_after_never (never : s.persistence = .never) (calls : List (Call κ)) :
    (s.after calls).backend.trieNodes = s.backend.trieNodes := by
  induction calls generalizing s with
  | nil => rfl
  | cons c calls ih =>
    have still := (persistence_run s c).trans never
    exact (ih still).trans ((boundaryLaw s c).quiet (announced?_never never c)).2

/--
The boundaries that a run announces rise strictly. They are what the subscribers were sent, the last
of them is where the store stands, and no call departs from that: it announces the next boundary or
leaves boundary and rows alone.
-/
theorem announcements_rise (backend : Backend) (persistence : Persistence) (pruning : Pruning)
    (eviction : EvictionOrder κ) (calls : List (Call κ)) :
    let start : NodeStore κ := { backend, persistence, pruning, eviction }
    let s := start.after calls
    (start.announcements calls).Pairwise (· < ·) ∧
      s.boundaries.sent.toList = start.announcements calls ∧
      s.boundary = (start.announcements calls).getLast? ∧
      (∀ c : Call κ, BoundaryLaw persistence s c) ∧
      (persistence = .never → s.backend.trieNodes = backend.trieNodes) := by
  intro start s
  have fresh : Rising start [] := ⟨rfl, rfl, .nil⟩
  have now := rising_after fresh calls
  rw [List.nil_append] at now
  refine ⟨now.rising, now.sent, now.last, fun c => ?_, fun never => rows_after_never never calls⟩
  have law := boundaryLaw s c
  rwa [persistence_after] at law

/-- Commits that are finished again, too late or while the backend refuses to write. -/
def finishedOutOfOrder : List (Call Position) :=
  [.commit 1 ⟨none, ⟨[1]⟩⟩ [0x11], .finish .state 1 .zero,
    .setFaults none (some (.described "full")), .finish .state 2 .zero,
    .setFaults none none, .finish .storage 2 .zero, .finish .state 2 .zero,
    .finish .state 2 .zero, .finish .state 6 .zero, .finish .state 4 .zero]

theorem announcements_rise_finishedOutOfOrder :
    let start : NodeStore Position :=
      { backend := {}, persistence := .interval 2, pruning := .disabled }
    start.announcements finishedOutOfOrder = [2, 6] ∧
      (start.after finishedOutOfOrder).boundaries.sent.toList = [2, 6] ∧
      (start.after finishedOutOfOrder).boundary = some 6 := by
  intro start
  have announced : start.announcements finishedOutOfOrder = [2, 6] := by decide +kernel
  obtain ⟨-, sent, last, -⟩ :=
    announcements_rise {} (.interval 2) .disabled (.stable Position) finishedOutOfOrder
  exact ⟨announced, sent.trans announced, last.trans (congrArg List.getLast? announced)⟩

end StateSync.Store.NodeStore
