import StateSync.Proofs.Pivot
import StateSync.Proofs.Tracker.Ledger

/-!
What batches are requested against: the pivot that is held in the call that hands them out, whatever
was stamped on them before. The pivot only moves forward, so the blocks of the batches do.
-/

namespace StateSync.Sync

open Store

namespace Call

variable {π : Type}

/-- A call that leaves the pivot to the tracker. -/
def KeepsPivot : Call π → Prop
  | setPivot _ => False
  | _ => True

/-- The batch that a call hands out, if any. -/
def batch? [PivotSource π] (c : Call π) (t : Tracker π) : Option Batch :=
  match c with
  | nextRequest now =>
    match (t.nextRequest now).1 with
    | .ok (batch, _) => batch
    | .error _ => none
  | _ => none

end Call

namespace Tracker

variable {π : Type} {t u : Tracker π} {pivot : Header} {batch : Batch}

theorem Dispatched.target (h : Dispatched t pivot batch u) :
    batch.root = pivot.stateRoot ∧ batch.block = pivot.number := by
  cases h <;> exact ⟨rfl, rfl⟩

theorem Dispatched.pivot_eq (h : Dispatched t pivot batch u) : u.pivot = t.pivot := by
  cases h <;> rfl

theorem pivot_release (t : Tracker π) (kind : RequestKind) : (t.release kind).pivot = t.pivot := by
  unfold release
  split <;> rfl

theorem pivot_finishRanges (t : Tracker π) : t.finishRanges.2.pivot = t.pivot := by
  have h := t.finishRanges_closing
  generalize t.finishRanges.1 = answer at h
  generalize t.finishRanges.2 = u at h ⊢
  cases h <;> rfl

theorem pivot_reportAccountRange (t : Tracker π) (path : Hash) (more : Bool) :
    (t.reportAccountRange path more).2.pivot = t.pivot := by
  have h := t.reportAccountRange_reported path more
  generalize (t.reportAccountRange path more).1 = answer at h
  generalize (t.reportAccountRange path more).2 = u at h ⊢
  cases h <;> exact pivot_release _ _

variable [PivotSource π]

theorem pivot_requestAt (t : Tracker π) (pivot : Header) :
    (t.requestAt pivot).2.pivot = t.pivot := by
  cases scheduled : t.schedule? pivot with
  | some next =>
    rw [requestAt_of_scheduled scheduled]
    exact (dispatched_of_schedule? scheduled).pivot_eq
  | none =>
    cases done : t.rangesFinished with
    | false =>
      rw [requestAt_of_idle scheduled done]
      rfl
    | true =>
      have kept := t.pivot_finishRanges
      rw [requestAt_of_finished scheduled done]
      split
      · next ended =>
        rw [ended] at kept
        exact kept
      · next ended =>
        rw [ended] at kept
        exact kept

theorem pivot_nextRequest (t : Tracker π) (now : UInt64) :
    (t.nextRequest now).2.pivot = t.readPivot.2.pivot := by
  cases read : t.readPivot.1 with
  | none =>
    rw [nextRequest_of_no_pivot read]
    rfl
  | some pivot =>
    rw [nextRequest_of_pivot read, pivot_requestAt]
    rfl

/-- A batch carries the root and the block of the pivot that the call read. -/
theorem target_of_nextRequest {now : UInt64} {last : Bool}
    (handed : (t.nextRequest now).1 = .ok (some batch, last)) : ∃ held,
      t.readPivot.1 = some held ∧ batch.root = held.stateRoot ∧ batch.block = held.number := by
  cases read : t.readPivot.1 with
  | none =>
    rw [nextRequest_of_no_pivot read] at handed
    cases handed
  | some pivot =>
    rw [nextRequest_of_pivot read] at handed
    cases scheduled : (t.asked now).schedule? pivot with
    | some next =>
      rw [requestAt_of_scheduled scheduled] at handed
      cases handed
      exact ⟨pivot, rfl, (dispatched_of_schedule? scheduled).target⟩
    | none =>
      cases done : (t.asked now).rangesFinished with
      | false =>
        rw [requestAt_of_idle scheduled done] at handed
        cases handed
      | true =>
        rw [requestAt_of_finished scheduled done] at handed
        split at handed <;> cases handed

theorem nextRequest_of_batch? {c : Call π} (h : c.batch? t = some batch) :
    ∃ now last, c = .nextRequest now ∧ (t.nextRequest now).1 = .ok (some batch, last) := by
  cases c with
  | nextRequest now =>
    simp only [Call.batch?] at h
    split at h
    · next batch last answered =>
      obtain rfl := h
      exact ⟨now, last, rfl, answered⟩
    · cases h
  | _ => cases h

theorem pivot_canSync (t : Tracker π) : t.canSync.2.pivot = t.readPivot.2.pivot := by
  unfold canSync
  split
  · next read =>
    rw [read]
    split <;> rfl
  · next read =>
    rw [read]
    rfl

/-- A range that comes back may make the pivot advance. -/
theorem pivot_requeue (t : Tracker π) (range : StorageRange) :
    (t.requeue range).pivot = t.pivot ∨
      (t.requeue range).pivot = (PivotSource.advance t.pivot).1 := by
  by_cases often : maxRangeRetries < range.attempts + 1
  · right
    simp only [requeue, if_pos often]
    rfl
  · left
    simp only [requeue, if_neg often]

/-- The three ways in which a call treats the pivot: it leaves it, reads it or advances it. -/
theorem pivot_run {c : Call π} (own : c.KeepsPivot) (t : Tracker π) :
    (c.run t).pivot = t.pivot ∨ (c.run t).pivot = t.readPivot.2.pivot ∨
      (c.run t).pivot = (PivotSource.advance t.pivot).1 := by
  cases c with
  | nextRequest now => exact .inr (.inl (t.pivot_nextRequest now))
  | canSync => exact .inr (.inl t.pivot_canSync)
  | advancePivot => exact .inr (.inr rfl)
  | reportAccountRange path more => exact .inl (t.pivot_reportAccountRange path more)
  | reportStorageRange leftover =>
    simp only [Call.run, reportStorageRange, pivot_release]
    cases leftover with
    | none => exact .inl rfl
    | some range => exact (t.pivot_requeue range).imp_right .inr
  | reportStorage | reportCodes | reportRefresh => exact .inl (pivot_release _ _)
  | setPivot => exact own.elim
  | _ => exact .inl rfl

/-- The tracker, on a chain whose best header is now this one. -/
def seeing (t : Tracker Pivot) (best : Option Header) : Tracker Pivot :=
  { t with pivot := { t.pivot with best } }

theorem forward_run {c : Call Pivot} (own : c.KeepsPivot) (t : Tracker Pivot) :
    t.pivot.Forward (c.run t).pivot := by
  rcases pivot_run own t with same | read | advanced
  · exact .kept (congrArg Pivot.header same)
  · rw [read]
    exact t.pivot.follow_forward
  · rw [advanced]
    exact t.pivot.force_forward

end Tracker

/-- A turn of a run: what the chain says of its best header, and a call. -/
structure Turn where
  best : Option Header
  call : Call Pivot
  keepsPivot : call.KeepsPivot

/-- A batch that was handed out, with the pivot and the best header of that turn. -/
structure Dispatch where
  batch : Batch
  pivot : Option Header
  best : Option Header

/-- A batch is for the pivot of its turn, which is close to the best header. -/
structure Dispatch.OnTarget (d : Dispatch) (held : Header) : Prop where
  pivot : d.pivot = some held
  root : d.batch.root = held.stateRoot
  block : d.batch.block = held.number
  positive : 0 < held.number
  near : ∀ best, d.best = some best → 0 < best.number →
    best.number.toNat < held.number.toNat + pivotDistance.toNat

/-- The later batch is for no earlier block, and for the same root if it is for the same block. -/
structure Dispatch.InOrder (later earlier : Dispatch) : Prop where
  block : earlier.batch.block ≤ later.batch.block
  root : earlier.batch.block = later.batch.block → earlier.batch.root = later.batch.root

namespace Turn

variable {turn : Turn} {t : Tracker Pivot} {d : Dispatch}

def run (turn : Turn) (t : Tracker Pivot) : Tracker Pivot := turn.call.run (t.seeing turn.best)

def dispatch? (turn : Turn) (t : Tracker Pivot) : Option Dispatch :=
  (turn.call.batch? (t.seeing turn.best)).map fun batch =>
    { batch, pivot := (turn.run t).pivot.header, best := turn.best }

theorem forward_run (turn : Turn) (t : Tracker Pivot) : t.pivot.Forward (turn.run t).pivot := by
  -- The best header plays no part in what a move forward is.
  cases Tracker.forward_run turn.keepsPivot (t.seeing turn.best) with
  | kept same => exact .kept same
  | adopted held positive newer => exact .adopted held positive newer

theorem pivot_of_dispatch? (h : turn.dispatch? t = some d) :
    d.pivot = (turn.run t).pivot.header := by
  obtain ⟨batch, -, rfl⟩ := Option.map_eq_some_iff.mp h
  rfl

theorem onTarget_of_dispatch? (h : turn.dispatch? t = some d) (ht : t.pivot.NonGenesis) :
    ∃ held, d.OnTarget held := by
  obtain ⟨batch, handed, rfl⟩ := Option.map_eq_some_iff.mp h
  obtain ⟨now, last, call, answered⟩ := Tracker.nextRequest_of_batch? handed
  obtain ⟨held, read, root, block⟩ := Tracker.target_of_nextRequest answered
  have after : (turn.run t).pivot = (t.seeing turn.best).pivot.follow.1 := by
    rw [run, call]
    exact (t.seeing turn.best).pivot_nextRequest now
  have pivot : (turn.run t).pivot.header = some held := by
    rw [after]
    exact read
  refine ⟨held, pivot, root, block, (turn.forward_run t).nonGenesis ht held pivot, ?_⟩
  intro best known positive
  exact Pivot.number_lt_of_follow known positive read

end Turn

/-- A tracker that follows the chain, with all that it handed out, the latest first. -/
structure Outbox where
  tracker : Tracker Pivot
  sent : List Dispatch := []

namespace Outbox

variable {o : Outbox}

def turn (o : Outbox) (turn : Turn) : Outbox where
  tracker := turn.run o.tracker
  sent := (turn.dispatch? o.tracker).toList ++ o.sent

/-- What a tracker comes to in any turns, from a pivot that is not the genesis. -/
inductive Reachable : Outbox → Prop
  | resume {pivot : Pivot} {backend : Backend} {metrics : Metrics} {t : Tracker Pivot}
      (usable : pivot.NonGenesis) (resumed : Tracker.resume pivot backend metrics = .ok t) :
      Reachable { tracker := t }
  | turn {o : Outbox} (turn : Turn) : Reachable o → Reachable (o.turn turn)

theorem reachable_foldl (h : o.Reachable) (turns : List Turn) :
    (turns.foldl turn o).Reachable := by
  induction turns generalizing o with
  | nil => exact h
  | cons first turns ih => exact ih (.turn first h)

/-- Every batch was for the pivot of its turn, which still is the pivot or gave way to a newer. -/
structure Sound (o : Outbox) : Prop where
  nonGenesis : o.tracker.pivot.NonGenesis
  onTarget : ∀ d ∈ o.sent, ∃ held, d.OnTarget held
  past : ∀ d ∈ o.sent, ∀ held, d.pivot = some held →
    ∃ now, o.tracker.pivot.header = some now ∧ Pivot.Replaces now held
  inOrder : o.sent.Pairwise Dispatch.InOrder

theorem onTarget_turn (ho : o.Sound) (turn : Turn) :
    ∀ d ∈ (o.turn turn).sent, ∃ held, d.OnTarget held := by
  intro d hd
  rcases List.mem_append.mp hd with new | old
  · exact Turn.onTarget_of_dispatch? (Option.mem_toList.mp new) ho.nonGenesis
  · exact ho.onTarget d old

theorem past_turn (ho : o.Sound) (turn : Turn) : ∀ d ∈ (o.turn turn).sent, ∀ held,
    d.pivot = some held →
      ∃ now, (o.turn turn).tracker.pivot.header = some now ∧ Pivot.Replaces now held := by
  intro d hd held pivot
  rcases List.mem_append.mp hd with new | old
  · exact ⟨held, (Turn.pivot_of_dispatch? (Option.mem_toList.mp new)).symm.trans pivot, .inl rfl⟩
  · obtain ⟨before, was, older⟩ := ho.past d old held pivot
    obtain ⟨now, after, moved⟩ := (turn.forward_run o.tracker).header_eq_some was
    exact ⟨now, after, moved.trans older⟩

theorem inOrder_turn (ho : o.Sound) (turn : Turn) :
    (o.turn turn).sent.Pairwise Dispatch.InOrder := by
  refine List.pairwise_append.mpr ⟨?_, ho.inOrder, fun later new earlier old => ?_⟩
  · cases turn.dispatch? o.tracker <;> simp
  · obtain ⟨held, target⟩ := onTarget_turn ho turn later (List.mem_append_left _ new)
    obtain ⟨was, before⟩ := ho.onTarget earlier old
    obtain ⟨now, after, moved⟩ :=
      past_turn ho turn earlier (List.mem_append_right _ old) was before.pivot
    have same := (Turn.pivot_of_dispatch? (Option.mem_toList.mp new)).trans after
    obtain rfl := Option.some.inj (target.pivot.symm.trans same)
    constructor
    · rw [before.block, target.block]
      exact moved.number_le
    · rw [before.block, target.block, before.root, target.root]
      intro level
      rw [moved.eq_of_number_eq level]

theorem sound_reachable (h : o.Reachable) : o.Sound := by
  induction h with
  | resume usable resumed =>
    obtain ⟨_, _, _, _, rfl⟩ := Tracker.resume_eq resumed
    exact ⟨usable, by simp, by simp, .nil⟩
  | turn turn _ ih =>
    exact ⟨(turn.forward_run _).nonGenesis ih.nonGenesis, onTarget_turn ih turn,
      past_turn ih turn, inOrder_turn ih turn⟩

theorem isSome_foldl (held : o.tracker.pivot.header.isSome = true) (turns : List Turn) :
    (turns.foldl turn o).tracker.pivot.header.isSome = true := by
  induction turns generalizing o with
  | nil => exact held
  | cons turn turns ih => exact ih ((turn.forward_run o.tracker).isSome held)

/--
Whatever the chain says from turn to turn, every batch is for the pivot held in its turn, the
batches move forward with the pivot, and once there is a pivot every turn finds one.
-/
theorem sent_follows_pivot (h : o.Reachable) :
    (∀ d ∈ o.sent, ∃ held, d.OnTarget held) ∧ o.sent.Pairwise Dispatch.InOrder ∧
      (o.tracker.pivot.header.isSome = true → ∀ (turns : List Turn) best,
        ((turns.foldl turn o).tracker.seeing best).readPivot.1.isSome = true) := by
  have ho := sound_reachable h
  refine ⟨ho.onTarget, ho.inOrder, fun held turns best => ?_⟩
  have now := isSome_foldl held turns
  exact (Pivot.follow_forward _).isSome now

/-- A tracker on a chain that has no pivot yet. -/
def newChain : Outbox where
  tracker := { pivot := {}, backend := {}, next := .zero, moreAccounts := true }

theorem newChain_reachable : newChain.Reachable :=
  .resume (by rintro _ ⟨⟩) (Tracker.resume_of_get_none rfl newChain.tracker.pivot {})

/-- A range for an older root waits while the pivot is moved and the chain then falls back. -/
def fallsBack : List Turn :=
  [⟨none, .nextRequest 0, trivial⟩,
    ⟨some { number := 1000, stateRoot := .ofNat 1 }, .nextRequest 0, trivial⟩,
    ⟨none, .enqueueRange ⟨.ofNat 9, 3, [], .zero, .greatest, 0⟩, trivial⟩,
    ⟨some { number := 1010, stateRoot := .ofNat 2 }, .advancePivot, trivial⟩,
    ⟨some { number := 5, stateRoot := .ofNat 3 }, .nextRequest 0, trivial⟩,
    ⟨none, .enqueueCodes [.ofNat 7], trivial⟩,
    ⟨some { number := 1137, stateRoot := .ofNat 4 }, .nextRequest 0, trivial⟩,
    ⟨none, .enqueueCodes [.ofNat 8], trivial⟩,
    ⟨some { number := 1138, stateRoot := .ofNat 5 }, .nextRequest 0, trivial⟩]

theorem sent_follows_pivot_fallsBack :
    let o := fallsBack.foldl turn newChain
    (o.sent.map fun d => (d.batch.kind, d.batch.root, d.batch.block)) =
        [("Codes", .ofNat 5, 1138), ("Codes", .ofNat 2, 1010), ("StorageRange", .ofNat 2, 1010),
          ("AccountRange", .ofNat 1, 1000)] ∧
      (∀ d ∈ o.sent, ∃ held, d.OnTarget held) ∧ o.sent.Pairwise Dispatch.InOrder ∧
      (o.tracker.seeing none).readPivot.1.isSome = true := by
  intro o
  obtain ⟨onTarget, inOrder, stays⟩ :=
    sent_follows_pivot (reachable_foldl newChain_reachable fallsBack)
  exact ⟨by decide +kernel, onTarget, inOrder, stays (by decide +kernel) [] none⟩

end Outbox

end StateSync.Sync
