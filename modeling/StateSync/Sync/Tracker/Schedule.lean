import StateSync.Sync.Tracker

/-!
The schedule of the tracker: what it hands out next follows from the queues and the requests in
flight, tried in this order:

1. the accounts to refresh, all at once;
2. the next account range, while nothing behind it is backed up;
3. one storage range that came back unfinished;
4. accounts whose storage was not requested yet;
5. codes.
-/

namespace StateSync.Sync

/-- The most accounts whose storage one batch requests. -/
def storageBatchSize : Nat := 1200

/-- The most codes that one batch requests. -/
def codesBatchSize : Nat := 1000

/-- No account range is requested while this many storage ranges wait. -/
def maxWaitingRanges : Nat := 10

/-- No account range is requested while this many full batches of accounts or codes wait. -/
def backlogBatches : Nat := 5

namespace Tracker

variable {π : Type}

/-- Something behind the account ranges is backed up. -/
def isBackedUp (t : Tracker π) : Bool :=
  !t.refreshes.isEmpty || maxWaitingRanges ≤ t.ranges.length ||
    backlogBatches * storageBatchSize ≤ t.accounts.length ||
    backlogBatches * codesBatchSize ≤ t.codes.length

def dispatched (t : Tracker π) (kind : RequestKind) : Tracker π :=
  { t with inFlight := t.inFlight.add kind }

def nextRefresh? (t : Tracker π) (pivot : Header) : Option (Batch × Tracker π) :=
  if t.refreshes.isEmpty then none
  else some (.refresh { root := pivot.stateRoot, block := pivot.number, items := t.refreshes },
    { t.dispatched .refresh with refreshes := [] })

/-- At most one account range is in flight. -/
def nextAccountRange? (t : Tracker π) (pivot : Header) : Option (Batch × Tracker π) :=
  if !t.moreAccounts || t.isBackedUp || t.inFlight.account != 0 then none
  else some (.accountRange
      { root := pivot.stateRoot, block := pivot.number, start := t.next, limit := .greatest },
    t.dispatched .account)

/-- A storage range is requested again against the present pivot. -/
def nextRetry? (t : Tracker π) (pivot : Header) : Option (Batch × Tracker π) :=
  match t.ranges with
  | [] => none
  | range :: ranges =>
    some (.storageRange { range with root := pivot.stateRoot, block := pivot.number },
      { t.dispatched .storage with ranges })

def nextStorage? (t : Tracker π) (pivot : Header) : Option (Batch × Tracker π) :=
  if t.accounts.isEmpty then none
  else some (.storageRange
      { root := pivot.stateRoot, block := pivot.number, start := .zero, limit := .greatest,
        accounts := t.accounts.take storageBatchSize, attempts := 0 },
    { t.dispatched .storage with accounts := t.accounts.drop storageBatchSize })

def nextCodes? (t : Tracker π) (pivot : Header) : Option (Batch × Tracker π) :=
  if t.codes.isEmpty then none
  else some (.codes { root := pivot.stateRoot, block := pivot.number,
                      hashes := t.codes.take codesBatchSize },
    { t.dispatched .code with codes := t.codes.drop codesBatchSize })

/-- The next batch against a pivot, if there is anything to hand out. -/
def schedule? (t : Tracker π) (pivot : Header) : Option (Batch × Tracker π) :=
  t.nextRefresh? pivot <|> t.nextAccountRange? pivot <|> t.nextRetry? pivot <|>
    t.nextStorage? pivot <|> t.nextCodes? pivot

end Tracker

end StateSync.Sync
