import StateSync.Proofs.Tracker.Idle

/-!
What is due. The order of the schedule as a relation between what waits, the batch that is handed
out for it and the tracker that this leaves; a request hands out what is due and nothing else.
-/

namespace StateSync.Sync.Tracker

variable {π : Type} {t u : Tracker π} {pivot : Header} {batch : Batch}

/-- Accounts remain, none are being asked for, and what was found so far is not backed up. -/
@[mk_iff]
structure TakesAccounts (t : Tracker π) : Prop where
  more : t.moreAccounts = true
  free : t.inFlight.account = 0
  ranges : t.ranges.length < 10
  accounts : t.accounts.length < 6000
  codes : t.codes.length < 5000

/-- The batch that is due against a pivot, and the tracker without it. -/
inductive Due (t : Tracker π) (pivot : Header) : Batch → Tracker π → Prop
  | refresh (waiting : t.refreshes ≠ []) :
      Due t pivot
        (.refresh { root := pivot.stateRoot, block := pivot.number, items := t.refreshes })
        { t with inFlight := t.inFlight.add .refresh, refreshes := [] }
  | accountRange (fresh : t.refreshes = []) (takes : t.TakesAccounts) :
      Due t pivot
        (.accountRange
          { root := pivot.stateRoot, block := pivot.number, start := t.next, limit := .greatest })
        { t with inFlight := t.inFlight.add .account }
  | retry {range : StorageRange} {ranges : List StorageRange} (fresh : t.refreshes = [])
      (full : ¬t.TakesAccounts) (waiting : t.ranges = range :: ranges) :
      Due t pivot
        (.storageRange { range with root := pivot.stateRoot, block := pivot.number })
        { t with inFlight := t.inFlight.add .storage, ranges }
  | storage (fresh : t.refreshes = []) (full : ¬t.TakesAccounts) (ranges : t.ranges = [])
      (waiting : t.accounts ≠ []) :
      Due t pivot
        (.storageRange
          { root := pivot.stateRoot, block := pivot.number, accounts := t.accounts.take 1200,
            start := .zero, limit := .greatest, attempts := 0 })
        { t with inFlight := t.inFlight.add .storage, accounts := t.accounts.drop 1200 }
  | codes (fresh : t.refreshes = []) (full : ¬t.TakesAccounts) (ranges : t.ranges = [])
      (accounts : t.accounts = []) (waiting : t.codes ≠ []) :
      Due t pivot
        (.codes
          { root := pivot.stateRoot, block := pivot.number, hashes := t.codes.take 1000 })
        { t with inFlight := t.inFlight.add .code, codes := t.codes.drop 1000 }

theorem isBackedUp_eq_false_iff : t.isBackedUp = false ↔ t.refreshes = [] ∧
    t.ranges.length < 10 ∧ t.accounts.length < 6000 ∧ t.codes.length < 5000 := by
  simp only [isBackedUp, Bool.or_eq_false_iff, decide_eq_false_iff_not, Bool.not_eq_false',
    List.isEmpty_iff, not_le, and_assoc]
  rfl

/-- With nothing to refresh, no account range is scheduled exactly if no accounts are taken. -/
theorem nextAccountRange?_eq_none_iff_of_fresh (fresh : t.refreshes = []) :
    t.nextAccountRange? pivot = none ↔ ¬t.TakesAccounts := by
  rw [nextAccountRange?_eq_none_iff, takesAccounts_iff, ← not_iff_not, not_not, not_or, not_or,
    Bool.not_eq_false, Bool.not_eq_true, isBackedUp_eq_false_iff, not_not]
  tauto

theorem nextAccountRange?_of_takesAccounts (fresh : t.refreshes = []) (takes : t.TakesAccounts) :
    t.nextAccountRange? pivot = some (.accountRange
      { root := pivot.stateRoot, block := pivot.number, start := t.next, limit := .greatest },
      t.dispatched .account) := by
  have due : t.nextAccountRange? pivot ≠ none := by
    rw [Ne, nextAccountRange?_eq_none_iff_of_fresh fresh, not_not]
    exact takes
  unfold nextAccountRange? at due ⊢
  split
  · next held => exact absurd (if_pos held) due
  · rfl

/-- The schedule hands out what is due. -/
theorem schedule?_of_due (h : Due t pivot batch u) : t.schedule? pivot = some (batch, u) := by
  have fresh : t.refreshes = [] → t.nextRefresh? pivot = none := nextRefresh?_eq_none_iff.mpr
  have full : t.refreshes = [] → ¬t.TakesAccounts → t.nextAccountRange? pivot = none :=
    fun fresh => (nextAccountRange?_eq_none_iff_of_fresh fresh).mpr
  simp only [schedule?, Option.orElse_eq_orElse, Option.orElse_eq_or]
  cases h with
  | refresh waiting =>
    simp [nextRefresh?, waiting, dispatched]
  | accountRange rested takes =>
    rw [fresh rested, nextAccountRange?_of_takesAccounts rested takes]
    rfl
  | retry rested held waiting =>
    simp [fresh rested, full rested held, nextRetry?, waiting, dispatched]
  | storage rested held ranges waiting =>
    simp [fresh rested, full rested held, nextRetry?, ranges, nextStorage?, waiting, dispatched,
      storageBatchSize]
  | codes rested held ranges accounts waiting =>
    simp [fresh rested, full rested held, nextRetry?, ranges, nextStorage?, accounts, nextCodes?,
      waiting, dispatched, codesBatchSize]

/-- Something is due unless nothing waits and no account range may be asked for. -/
theorem exists_due_or_none (t : Tracker π) (pivot : Header) :
    (∃ batch u, Due t pivot batch u) ∨ t.schedule? pivot = none := by
  by_cases fresh : t.refreshes = []
  · by_cases takes : t.TakesAccounts
    · exact .inl ⟨_, _, .accountRange fresh takes⟩
    · cases ranges : t.ranges with
      | cons range rest => exact .inl ⟨_, _, .retry fresh takes ranges⟩
      | nil =>
        by_cases accounts : t.accounts = []
        · by_cases codes : t.codes = []
          · right
            refine schedule?_eq_none_iff.mpr ⟨fresh, ranges, accounts, codes, ?_⟩
            have held : t.nextAccountRange? pivot = none :=
              (nextAccountRange?_eq_none_iff_of_fresh fresh).mpr takes
            rw [nextAccountRange?_eq_none_iff, not_isBackedUp fresh ranges accounts codes] at held
            exact held.imp_right fun busy => busy.resolve_left Bool.false_ne_true
          · exact .inl ⟨_, _, .codes fresh takes ranges accounts codes⟩
        · exact .inl ⟨_, _, .storage fresh takes ranges accounts⟩
  · exact .inl ⟨_, _, .refresh fresh⟩

theorem schedule?_eq_some_iff : t.schedule? pivot = some (batch, u) ↔ Due t pivot batch u := by
  refine ⟨fun scheduled => ?_, schedule?_of_due⟩
  rcases t.exists_due_or_none pivot with ⟨other, left, due⟩ | none
  · cases (schedule?_of_due due).symm.trans scheduled
    exact due
  · cases none.symm.trans scheduled

theorem Agrees.takesAccounts_iff (same : t.Agrees u) : u.TakesAccounts ↔ t.TakesAccounts := by
  simp only [Tracker.takesAccounts_iff, same.moreAccounts, same.inFlight, same.ranges,
    same.accounts, same.codes]

theorem Agrees.exists_eq (same : t.Agrees u) :
    ∃ pivot metrics started log, u = { t with pivot, metrics, started, log } := by
  obtain ⟨⟨⟨ranges, accounts, codes, refreshes⟩, inFlight⟩,
    ⟨backend, next, moreAccounts, announced, finish⟩⟩ := same
  refine ⟨u.pivot, u.metrics, u.started, u.log, ?_⟩
  rw [← ranges, ← accounts, ← codes, ← refreshes, ← inFlight, ← backend, ← next, ← moreAccounts,
    ← announced, ← finish]

/-- The same is due where at most the pivot, the counts and the log differ. -/
theorem Due.of_agrees {s : Tracker π} (h : Due t pivot batch u) (same : t.Agrees s) :
    ∃ v, Due s pivot batch v ∧ u.Agrees v := by
  have takes := same.takesAccounts_iff
  obtain ⟨held, metrics, started, log, rfl⟩ := same.exists_eq
  have again : u.Agrees { u with pivot := held, metrics, started, log } :=
    ⟨⟨⟨rfl, rfl, rfl, rfl⟩, rfl⟩, ⟨rfl, rfl, rfl, rfl, rfl⟩⟩
  refine ⟨_, ?_, again⟩
  cases h with
  | refresh waiting => exact .refresh waiting
  | accountRange fresh takesNow => exact .accountRange fresh (takes.mpr takesNow)
  | retry fresh full waiting => exact .retry fresh (mt takes.mp full) waiting
  | storage fresh full ranges waiting => exact .storage fresh (mt takes.mp full) ranges waiting
  | codes fresh full ranges accounts waiting =>
    exact .codes fresh (mt takes.mp full) ranges accounts waiting

variable [PivotSource π]

/-- What is due is handed out, and nothing else is touched. -/
theorem nextRequest_of_due (read : t.readPivot.1 = some pivot) (now : UInt64)
    (due : Due t pivot batch u) :
    (t.nextRequest now).1 = .ok (some batch, false) ∧ u.Agrees (t.nextRequest now).2 := by
  obtain ⟨left, dueNow, same⟩ := due.of_agrees (t.asked_agrees now)
  rw [nextRequest_of_pivot read, requestAt_of_scheduled (schedule?_eq_some_iff.mpr dueNow)]
  exact ⟨rfl, same.trans (logged_agrees _ _)⟩

/-- A call for which nothing is due hands out nothing, and moves no work. -/
theorem nextRequest_of_none_due (read : t.readPivot.1 = some pivot) (now : UInt64)
    (undue : ∀ batch left, ¬Due t pivot batch left) :
    ((t.nextRequest now).1 = .ok (none, t.rangesFinished) ∨
      t.rangesFinished = true ∧ ∃ e, (t.nextRequest now).1 = .error e) ∧
    t.SameWork (t.nextRequest now).2 := by
  have same := t.asked_agrees now
  have idle : t.schedule? pivot = none :=
    (t.exists_due_or_none pivot).resolve_left fun ⟨batch, left, due⟩ => undue batch left due
  have idle : (t.asked now).schedule? pivot = none := by
    rw [schedule?_eq_none_iff] at idle ⊢
    rwa [same.refreshes, same.ranges, same.accounts, same.codes, same.moreAccounts, same.inFlight]
  have kept := same.toSameWork.trans (t.asked now).finishRanges_work
  rw [nextRequest_of_pivot read, ← same.rangesFinished]
  cases done : (t.asked now).rangesFinished with
  | false =>
    rw [requestAt_of_idle idle done]
    exact ⟨.inl rfl, same.toSameWork.trans (logged_agrees _ _).toSameWork⟩
  | true =>
    rw [requestAt_of_finished idle done]
    split
    · next ended =>
      rw [ended] at kept
      exact ⟨.inl rfl, kept.trans (logged_agrees _ _).toSameWork⟩
    · next ended =>
      rw [ended] at kept
      exact ⟨.inr ⟨rfl, _, rfl⟩, kept⟩

/--
A request with a pivot hands out exactly the batch that is due, and leaves the tracker without it:
nothing but that batch leaves a queue, and nothing but its kind is counted as one more in flight.
With nothing due no work moves.
-/
theorem nextRequest_exact (read : t.readPivot.1 = some pivot) (now : UInt64) :
    (∀ batch left, Due t pivot batch left →
      (t.nextRequest now).1 = .ok (some batch, false) ∧ left.Agrees (t.nextRequest now).2) ∧
    ((∀ batch left, ¬Due t pivot batch left) →
      ((t.nextRequest now).1 = .ok (none, t.rangesFinished) ∨
        t.rangesFinished = true ∧ ∃ e, (t.nextRequest now).1 = .error e) ∧
      t.SameWork (t.nextRequest now).2) :=
  ⟨fun _ _ => nextRequest_of_due read now, nextRequest_of_none_due read now⟩

/-- A sync with accounts left in which this many ranges came back unfinished. -/
def rangesWaiting (n : Nat) : Tracker FixedPivot where
  pivot := { header := some { number := 7, stateRoot := .ofNat 1 } }
  backend := {}
  next := .ofNat 5
  moreAccounts := true
  ranges := (List.range n).map fun i => ⟨.zero, 3, [], .ofNat i, .greatest, 2⟩

/-- Nine ranges do not hold an account range back, ten do: the first of them goes out again. -/
theorem nextRequest_exact_rangesWaiting :
    ((rangesWaiting 9).nextRequest 0).1 =
        .ok (some (.accountRange ⟨.ofNat 1, 7, .ofNat 5, .greatest⟩), false) ∧
      ((rangesWaiting 9).nextRequest 0).2.ranges.length = 9 ∧
      ((rangesWaiting 10).nextRequest 0).1 =
        .ok (some (.storageRange ⟨.ofNat 1, 7, [], .ofNat 0, .greatest, 2⟩), false) ∧
      ((rangesWaiting 10).nextRequest 0).2.ranges.length = 9 ∧
      ((rangesWaiting 10).nextRequest 0).2.inFlight = { storage := 1 } := by
  have takes : (rangesWaiting 9).TakesAccounts := ⟨rfl, rfl, by decide, by decide, by decide⟩
  have full : ¬(rangesWaiting 10).TakesAccounts := fun takes => absurd takes.ranges (by decide)
  obtain ⟨account, left⟩ := (nextRequest_exact rfl 0).1 _ _ (.accountRange rfl takes)
  obtain ⟨retry, rest⟩ := (nextRequest_exact rfl 0).1 _ _ (.retry rfl full rfl)
  exact ⟨account, congrArg List.length left.ranges, retry, congrArg List.length rest.ranges,
    rest.inFlight⟩

end StateSync.Sync.Tracker
