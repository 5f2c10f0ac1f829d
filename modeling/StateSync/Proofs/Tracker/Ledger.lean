import StateSync.Proofs.Tracker.Calls

/-!
The books of a tracker: what was given to it, what waits, what is out for an answer and what was
served. A batch may be answered once, by a report of its kind that leaves over a part of it. Every
call is one whole step: those of several workers come one after the other, in any order, and the
books are kept between them.
-/

namespace StateSync.Sync

/-- Work by kind: accounts whose storage is due, codes, accounts to be read anew. -/
abbrev Work := Multiset AccountLeaf × Multiset Hash × Multiset RefreshItem

namespace Work

def accounts (accounts : List AccountLeaf) : Work := (accounts, 0, 0)

def codes (hashes : List Hash) : Work := (0, hashes, 0)

def refreshes (items : List RefreshItem) : Work := (0, 0, items)

theorem accounts_append (xs ys : List AccountLeaf) :
    accounts (xs ++ ys) = accounts xs + accounts ys := by
  simp [accounts]

theorem codes_append (xs ys : List Hash) : codes (xs ++ ys) = codes xs + codes ys := by
  simp [codes]

theorem refreshes_append (xs ys : List RefreshItem) :
    refreshes (xs ++ ys) = refreshes xs + refreshes ys := by
  simp [refreshes]

end Work

namespace Batch

/-- The work in a batch. An account range finds work but is none. -/
def work : Batch → Work
  | accountRange _ => 0
  | storageRange r => .accounts r.accounts
  | codes r => .codes r.hashes
  | refresh r => .refreshes r.items

/-- The kind of request that a batch is in flight as. -/
def requestKind : Batch → RequestKind
  | accountRange _ => .account
  | storageRange _ => .storage
  | codes _ => .code
  | refresh _ => .refresh

end Batch

namespace Call

variable {π : Type}

/-- The work that a call gives to a tracker. -/
def given : Call π → Work
  | enqueueAccounts accounts => .accounts accounts
  | enqueueRange range => .accounts range.accounts
  | enqueueCodes hashes => .codes hashes
  | enqueueRefreshes items => .refreshes items
  | _ => 0

/-- The kind of request that a call reports on. -/
def answers? : Call π → Option RequestKind
  | reportAccountRange _ _ => some .account
  | reportStorageRange _ => some .storage
  | reportStorage _ => some .storage
  | reportCodes _ => some .code
  | reportRefresh _ => some .refresh
  | _ => none

/-- The work that a report leaves over. -/
def leftover : Call π → Work
  | reportStorageRange range => .accounts ((range.map StorageRange.accounts).getD [])
  | reportStorage accounts => .accounts accounts
  | reportCodes hashes => .codes hashes
  | reportRefresh items => .refreshes items
  | _ => 0

/-- The batch that a call hands out, if any. -/
def handedOut [PivotSource π] (call : Call π) (t : Tracker π) : Multiset Batch :=
  match call with
  | nextRequest now =>
    match (t.nextRequest now).1 with
    | .ok (some batch, _) => {batch}
    | _ => 0
  | _ => 0

end Call

namespace Tracker

variable {π : Type} {t u : Tracker π}

/-- The work that waits in the queues. -/
def queued (t : Tracker π) : Work :=
  .accounts t.accounts + .accounts (t.ranges.flatMap StorageRange.accounts) + .codes t.codes +
    .refreshes t.refreshes

theorem SameQueues.queued (h : t.SameQueues u) : u.queued = t.queued := by
  simp only [Tracker.queued, h.ranges, h.accounts, h.codes, h.refreshes]

theorem queued_enqueueAccounts (t : Tracker π) (accounts : List AccountLeaf) :
    (t.enqueueAccounts accounts).queued = t.queued + .accounts accounts := by
  simp only [queued, enqueueAccounts, Work.accounts_append]
  abel

theorem queued_enqueueRange (t : Tracker π) (range : StorageRange) :
    (t.enqueueRange range).queued = t.queued + .accounts range.accounts := by
  simp only [queued, enqueueRange, List.flatMap_append, List.flatMap_singleton,
    Work.accounts_append]
  abel

theorem queued_enqueueCodes (t : Tracker π) (hashes : List Hash) :
    (t.enqueueCodes hashes).queued = t.queued + .codes hashes := by
  simp only [queued, enqueueCodes, Work.codes_append]
  abel

theorem queued_enqueueRefreshes (t : Tracker π) (items : List RefreshItem) :
    (t.enqueueRefreshes items).queued = t.queued + .refreshes items := by
  simp only [queued, enqueueRefreshes, Work.refreshes_append]
  abel

/-- A batch that is handed out leaves the queues. -/
theorem Dispatched.queued {pivot : Header} {batch : Batch} (h : Dispatched t pivot batch u) :
    t.queued = u.queued + batch.work := by
  cases h with
  | refresh =>
    have none : Work.refreshes [] = 0 := rfl
    simp only [Tracker.queued, Tracker.dispatched, Batch.work, none]
    abel
  | accountRange =>
    simp only [Tracker.queued, Tracker.dispatched, Batch.work]
    abel
  | retry waiting =>
    simp only [Tracker.queued, Tracker.dispatched, Batch.work, waiting, List.flatMap_cons,
      Work.accounts_append]
    abel
  | storage =>
    have parts := Work.accounts_append (t.accounts.take storageBatchSize)
      (t.accounts.drop storageBatchSize)
    rw [List.take_append_drop] at parts
    simp only [Tracker.queued, Tracker.dispatched, Batch.work, parts]
    abel
  | codes =>
    have parts := Work.codes_append (t.codes.take codesBatchSize) (t.codes.drop codesBatchSize)
    rw [List.take_append_drop] at parts
    simp only [Tracker.queued, Tracker.dispatched, Batch.work, parts]
    abel

theorem Dispatched.inFlight {pivot : Header} {batch : Batch} (h : Dispatched t pivot batch u) :
    u.inFlight = t.inFlight.add batch.requestKind := by
  cases h <;> rfl

theorem queued_resume {pivot : π} {backend : Store.Backend} {metrics : Metrics}
    (h : resume pivot backend metrics = .ok t) : t.queued = 0 ∧ t.inFlight = {} := by
  obtain ⟨_, _, _, _, rfl⟩ := resume_eq h
  exact ⟨rfl, rfl⟩

end Tracker

namespace Call

variable {π : Type} [PivotSource π]

/-- A call that neither gives work nor asks for it nor reports. -/
def isAside : Call π → Bool
  | canSync | advancePivot | start _ | setSeconds _ | addStateBytes _ _ _ | addSavedBytes _
  | setPivot _ | setFaults _ _ => true
  | _ => false

theorem aside_gives_none {call : Call π} (h : call.isAside = true) (t : Tracker π) :
    call.given = 0 ∧ call.handedOut t = 0 := by
  cases call with
  | canSync | advancePivot | start | setSeconds | addStateBytes | addSavedBytes | setPivot
  | setFaults => exact ⟨rfl, rfl⟩
  | _ => cases h

theorem run_aside {call : Call π} (h : call.isAside = true) (t : Tracker π) :
    t.SameWork (call.run t) := by
  cases call with
  | canSync => exact t.canSync_agrees.toSameWork
  | advancePivot => exact t.advancePivot_agrees.toSameWork
  | start | setSeconds | addStateBytes | addSavedBytes | setPivot | setFaults =>
    exact ⟨⟨rfl, rfl, rfl, rfl⟩, rfl⟩
  | _ => cases h

/-- A request for work moves a batch out of the queues and counts it, or moves nothing. -/
theorem run_nextRequest (t : Tracker π) (now : UInt64) :
    t.SameWork ((nextRequest now).run t) ∧ (nextRequest now).handedOut t = 0 ∨
    ∃ batch, (nextRequest now).handedOut t = {batch} ∧
      t.queued = ((nextRequest now).run t).queued + batch.work ∧
      ((nextRequest now).run t).inFlight = t.inFlight.add batch.requestKind := by
  have h := t.nextRequest_requested now
  simp only [run, handedOut]
  revert h
  generalize (t.nextRequest now).1 = result
  generalize (t.nextRequest now).2 = u
  intro h
  cases h with
  | noPivot same => exact .inl ⟨same.toSameWork, rfl⟩
  | @handedOut s v _ pivot batch same dispatched logged =>
    refine .inr ⟨batch, rfl, ?_, ?_⟩
    · rw [logged.queued, ← dispatched.queued, same.queued]
    · rw [logged.inFlight, dispatched.inFlight, same.inFlight]
  | idle _ same => exact .inl ⟨same.toSameWork, rfl⟩
  | @finished s v _ _ same ended logged =>
    have kept := s.finishRanges_work
    rw [ended] at kept
    exact .inl ⟨(same.toSameWork.trans kept).trans logged.toSameWork, rfl⟩
  | @failed s _ _ _ same ended =>
    have kept := s.finishRanges_work
    rw [ended] at kept
    exact .inl ⟨same.toSameWork.trans kept, rfl⟩

/-- A report ends one request of its kind and puts back what it leaves over. -/
theorem run_answer {call : Call π} {kind : RequestKind} (h : call.answers? = some kind)
    (t : Tracker π) : (call.run t).queued = t.queued + call.leftover ∧
      (call.run t).inFlight = t.inFlight.remove kind := by
  cases call with
  | reportAccountRange path more =>
    obtain rfl := Option.some.inj h
    have out := t.reportAccountRange_released path more
    exact ⟨out.queued.trans (add_zero _).symm, out.inFlight⟩
  | reportStorageRange range =>
    obtain rfl := Option.some.inj h
    cases range with
    | none =>
      have out := t.release_released .storage
      refine ⟨?_, out.inFlight⟩
      exact out.queued.trans (add_zero _).symm
    | some range =>
      obtain ⟨s, attempts, same, hs⟩ := t.requeue_eq range
      have out := (s.enqueueRange { range with attempts }).release_released .storage
      simp only [run, Tracker.reportStorageRange, hs]
      refine ⟨?_, out.inFlight.trans (congrArg (·.remove .storage) same.inFlight)⟩
      rw [out.queued, Tracker.queued_enqueueRange, same.queued]
      rfl
  | reportStorage accounts =>
    obtain rfl := Option.some.inj h
    have out := (t.enqueueAccounts accounts).release_released .storage
    exact ⟨out.queued.trans (t.queued_enqueueAccounts accounts), out.inFlight⟩
  | reportCodes hashes =>
    obtain rfl := Option.some.inj h
    have out := (t.enqueueCodes hashes).release_released .code
    exact ⟨out.queued.trans (t.queued_enqueueCodes hashes), out.inFlight⟩
  | reportRefresh items =>
    obtain rfl := Option.some.inj h
    have out := (t.enqueueRefreshes items).release_released .refresh
    exact ⟨out.queued.trans (t.queued_enqueueRefreshes items), out.inFlight⟩
  | _ => cases h

/-- Every other call moves work from what it gives into the queues and out into batches. -/
theorem run_plain {call : Call π} (h : call.answers? = none) (t : Tracker π) :
    t.queued + call.given = (call.run t).queued + ((call.handedOut t).map Batch.work).sum ∧
    ∀ kind, (call.run t).inFlight.count kind = t.inFlight.count kind +
      (call.handedOut t).countP (fun batch => batch.requestKind = kind) := by
  by_cases aside : call.isAside = true
  · obtain ⟨given, out⟩ := aside_gives_none aside t
    have same := run_aside aside t
    rw [given, out, same.queued, same.inFlight]
    exact ⟨rfl, fun _ => rfl⟩
  cases call with
  | enqueueAccounts accounts =>
    exact ⟨(t.queued_enqueueAccounts accounts).symm.trans (add_zero _).symm, fun _ => rfl⟩
  | enqueueRange range =>
    exact ⟨(t.queued_enqueueRange range).symm.trans (add_zero _).symm, fun _ => rfl⟩
  | enqueueCodes hashes =>
    exact ⟨(t.queued_enqueueCodes hashes).symm.trans (add_zero _).symm, fun _ => rfl⟩
  | enqueueRefreshes items =>
    exact ⟨(t.queued_enqueueRefreshes items).symm.trans (add_zero _).symm, fun _ => rfl⟩
  | nextRequest now =>
    rcases run_nextRequest t now with ⟨same, none⟩ | ⟨batch, out, moved, counted⟩
    · rw [none, same.queued, same.inFlight]
      exact ⟨rfl, fun _ => rfl⟩
    · rw [out, counted, Multiset.map_singleton, Multiset.sum_singleton, ← moved]
      refine ⟨add_zero _, fun kind => ?_⟩
      rw [InFlight.count_add, ← Multiset.cons_zero, Multiset.countP_cons, Multiset.countP_zero,
        zero_add]
  | reportAccountRange | reportStorageRange | reportStorage | reportCodes | reportRefresh => cases h
  | _ => exact absurd rfl aside

end Call

/-- A tracker and its books. -/
structure Ledger (π : Type) where
  tracker : Tracker π
  /-- All work ever given to the tracker. -/
  given : Work := 0
  /-- The batches handed out and not answered. -/
  outstanding : Multiset Batch := 0
  /-- The work of answered batches, less what the answers left over. -/
  served : Work := 0

namespace Ledger

variable {π : Type} [PivotSource π] {l l' : Ledger π} {c : Call π}

/-- The books after a call that reports on nothing. -/
def call (l : Ledger π) (c : Call π) : Ledger π where
  tracker := c.run l.tracker
  given := l.given + c.given
  outstanding := l.outstanding + c.handedOut l.tracker
  served := l.served

/-- The books after a report on a batch. -/
def answer (l : Ledger π) (c : Call π) (batch : Batch) : Ledger π where
  tracker := c.run l.tracker
  given := l.given
  outstanding := l.outstanding.erase batch
  served := l.served + (batch.work - c.leftover)

/-- One call. A report answers an outstanding batch of its kind and leaves over a part of it. -/
inductive Step (l : Ledger π) (c : Call π) : Ledger π → Prop
  | call (plain : c.answers? = none) : Step l c (l.call c)
  | answer {batch : Batch} (kind : c.answers? = some batch.requestKind)
      (out : batch ∈ l.outstanding) (part : c.leftover ≤ batch.work) :
      Step l c (l.answer c batch)

/-- What a tracker on some backend comes to by calls. -/
inductive Reachable : Ledger π → Prop
  | resume {pivot : π} {backend : Store.Backend} {metrics : Metrics} {t : Tracker π}
      (resumed : Tracker.resume pivot backend metrics = .ok t) : Reachable { tracker := t }
  | step {l l' : Ledger π} {c : Call π} :
      Reachable l → Step l c l' → Reachable l'

/-- What was given waits, is out or was served, and what is out is counted as in flight. -/
structure Balanced (l : Ledger π) : Prop where
  work : l.given = l.tracker.queued + (l.outstanding.map Batch.work).sum + l.served
  inFlight : ∀ kind, l.tracker.inFlight.count kind =
    l.outstanding.countP fun batch => batch.requestKind = kind

omit [PivotSource π] in
theorem balanced_resume {pivot : π} {backend : Store.Backend} {metrics : Metrics} {t : Tracker π}
    (h : Tracker.resume pivot backend metrics = .ok t) : Balanced { tracker := t } := by
  obtain ⟨queued, inFlight⟩ := Tracker.queued_resume h
  refine ⟨?_, fun kind => ?_⟩
  · simp [queued]
  · rw [inFlight]
    cases kind <;> rfl

theorem balanced_step (hl : l.Balanced) (h : Step l c l') : l'.Balanced := by
  cases h with
  | call plain =>
    obtain ⟨moved, counted⟩ := c.run_plain plain l.tracker
    refine ⟨?_, fun kind => ?_⟩
    · dsimp only [Ledger.call]
      rw [Multiset.map_add, Multiset.sum_add, hl.work]
      calc l.tracker.queued + (l.outstanding.map Batch.work).sum + l.served + c.given
          = l.tracker.queued + c.given + (l.outstanding.map Batch.work).sum + l.served := by abel
        _ = _ := by rw [moved]; abel
    · dsimp only [Ledger.call]
      rw [Multiset.countP_add, counted, hl.inFlight]
  | @answer batch kind out part =>
    obtain ⟨queued, inFlight⟩ := c.run_answer kind l.tracker
    obtain ⟨rest, hrest⟩ := Multiset.exists_cons_of_mem out
    have work := hl.work
    rw [hrest, Multiset.map_cons, Multiset.sum_cons] at work
    refine ⟨?_, fun other => ?_⟩
    · have parts := add_tsub_cancel_of_le part
      dsimp only [answer]
      generalize batch.work - c.leftover = done at parts
      rw [queued, hrest, Multiset.erase_cons_head, work, ← parts]
      abel
    · dsimp only [answer]
      have counted := hl.inFlight other
      rw [hrest, Multiset.countP_cons] at counted
      rw [inFlight, InFlight.count_remove, counted, hrest, Multiset.erase_cons_head]
      omega

theorem balanced_reachable (h : l.Reachable) : l.Balanced := by
  induction h with
  | resume resumed => exact balanced_resume resumed
  | step _ step ih => exact balanced_step ih step

omit [PivotSource π] in
/-- With nothing in flight no batch is outstanding. -/
theorem Balanced.outstanding_eq_zero (hl : l.Balanced) (h : l.tracker.inFlight = {}) :
    l.outstanding = 0 := by
  rw [Multiset.eq_zero_iff_forall_notMem]
  intro batch out
  have none : l.outstanding.countP (fun b => b.requestKind = batch.requestKind) = 0 := by
    rw [← hl.inFlight, h]
    cases batch.requestKind <;> rfl
  exact Multiset.countP_eq_zero.mp none batch out rfl

/-- No work is lost or done twice, and the phase ends only when all of it was served. -/
theorem work_conserved (h : l.Reachable) :
    l.given = l.tracker.queued + (l.outstanding.map Batch.work).sum + l.served ∧
    (∀ kind, l.tracker.inFlight.count kind =
      l.outstanding.countP fun batch => batch.requestKind = kind) ∧
    ∀ now, (l.tracker.nextRequest now).1 = .ok (none, true) →
      l.served = l.given ∧ l.outstanding = 0 := by
  have hl := balanced_reachable h
  refine ⟨hl.work, hl.inFlight, fun now ended => ?_⟩
  obtain ⟨_, ranges, accounts, codes, refreshes, inFlight⟩ :=
    Tracker.rangesFinished_iff.mp (Tracker.rangesFinished_of_nextRequest ended)
  have queued : l.tracker.queued = 0 := by
    rw [Tracker.queued, ranges, accounts, codes, refreshes]
    rfl
  have outstanding := hl.outstanding_eq_zero inFlight
  have work := hl.work
  rw [queued, outstanding, Multiset.map_zero, Multiset.sum_zero, zero_add, zero_add] at work
  exact ⟨work.symm, outstanding⟩

/-- A new sync against block 7, on an empty backend. -/
def newSync : Tracker FixedPivot where
  pivot := { header := some { number := 7, stateRoot := .ofNat 1 } }
  backend := {}
  next := .zero
  moreAccounts := true

theorem resume_newSync : Tracker.resume newSync.pivot {} {} = .ok newSync :=
  Tracker.resume_of_get_none rfl newSync.pivot {}

/-- The first request of a new sync. -/
def firstRange : Batch := .accountRange ⟨.ofNat 1, 7, .zero, .greatest⟩

/-- A sync of two codes, of which the second is left over at first. -/
def twoCodes : Ledger FixedPivot :=
  let both : Batch := .codes ⟨.ofNat 1, 7, [.ofNat 2, .ofNat 3]⟩
  let second : Batch := .codes ⟨.ofNat 1, 7, [.ofNat 3]⟩
  let l : Ledger FixedPivot := { tracker := newSync }
  let l := (l.call (.enqueueCodes [.ofNat 2, .ofNat 3])).call (.nextRequest 0)
  let l := (l.answer (.reportAccountRange .greatest false) firstRange).call (.nextRequest 0)
  let l := (l.answer (.reportCodes [.ofNat 3]) both).call (.nextRequest 0)
  l.answer (.reportCodes []) second

theorem work_conserved_twoCodes : (twoCodes.tracker.nextRequest 0).1 = .ok (none, true) ∧
    twoCodes.given = .codes [.ofNat 2, .ofNat 3] ∧ twoCodes.served = twoCodes.given ∧
    twoCodes.outstanding = 0 := by
  have reachable : twoCodes.Reachable := by
    refine .step (.step (.step (.step (.step (.step (.step (.resume resume_newSync)
      (.call ?_)) (.call ?_)) (.answer ?_ ?_ ?_)) (.call ?_)) (.answer ?_ ?_ ?_)) (.call ?_))
      (.answer ?_ ?_ ?_)
    all_goals decide +kernel
  obtain ⟨_, _, finished⟩ := work_conserved reachable
  have ended : (twoCodes.tracker.nextRequest 0).1 = .ok (none, true) := by decide +kernel
  exact ⟨ended, by decide +kernel, finished 0 ended⟩

end Ledger

end StateSync.Sync
