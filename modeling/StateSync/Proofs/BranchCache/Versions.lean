import StateSync.Proofs.BranchCache.Retention

/-!
Versions. An insert puts its branch in before it moves the base, and so before the last step that
could fail. That step never does: a call that is refused or ignored leaves the cache as it was, and
every other call counts the version up. Two caches of one run have the same version exactly if
nothing has changed in between.
-/

namespace StateSync.Store.BranchCache

variable {φ : Type} {c after : BranchCache φ} {base parent : Nat} {branch : Branch}
  {state : BlockState} {block : UInt64} {root parentRoot : Hash}

/-- The tracked state of a root, the base included. -/
def tracked? (c : BranchCache φ) (root : Hash) : Option BlockState :=
  c.roots[root]?.bind c.state?

theorem Indexed.contains_eq (hc : c.Indexed) (root : Hash) :
    c.contains root = (c.tracked? root).isSome := by
  rw [contains, Std.TreeMap.contains_eq_isSome_getElem?, tracked?]
  cases known : c.roots[root]? with
  | none => rfl
  | some slot =>
    obtain ⟨branch, live, -⟩ := (hc.roots root slot).mp known
    rw [Option.bind_some, state?_eq live]
    rfl

theorem Indexed.exists_of_tracked? (hc : c.Indexed) {up : BlockState}
    (h : c.tracked? root = some up) : ∃ slot branch, c.roots[root]? = some slot ∧
      c.branches.get? slot = some branch ∧ branch.state = up ∧ branch.state.root = root := by
  obtain ⟨slot, known, same⟩ := Option.bind_eq_some_iff.mp h
  obtain ⟨branch, live, hroot⟩ := (hc.roots root slot).mp known
  rw [state?_eq live] at same
  exact ⟨slot, branch, known, live, Option.some.inj same, hroot⟩

variable [KeyFilter φ]

section InPlace

/--
An insert that changes the cache as it goes. When the move of the base fails, the new branch has
been put in already.
-/
def insertInPlace (c : BranchCache φ) (state : BlockState) (parentRoot : Hash) :
    Except BranchError (Option BlockState) × BranchCache φ :=
  match c.base with
  | none => (.error .notInitialized, c)
  | some base =>
    if c.contains state.root then (.ok none, c)
    else match c.roots[parentRoot]? with
      | none => (.error (.unknownParent parentRoot), c)
      | some parent =>
        match c.state? parent with
        | none => (.error (.danglingLink parent), c)
        | some up =>
          if state.block ≤ up.block then (.error (.notNewer state.block up.block), c)
          else
            let (slot, c) := c.track { state, parent := some parent }
            if c.withinSpan state.block then (.ok none, c)
            else match c.flatten base slot with
              | .error e => (.error e, c)
              | .ok (flat, after) => (.ok flat, after)

/-- What an insert comes to, by what is tracked. -/
inductive Answered (c : BranchCache φ) (state : BlockState) (parentRoot : Hash) :
    Except BranchError (Option BlockState) → BranchCache φ → Prop
  | uninitialized (unset : c.base = none) :
      Answered c state parentRoot (.error .notInitialized) c
  | ignored {base : Nat} (set : c.base = some base) (known : c.contains state.root = true) :
      Answered c state parentRoot (.ok none) c
  | unknownParent {base : Nat} (set : c.base = some base)
      (fresh : c.contains state.root = false) (untracked : c.tracked? parentRoot = none) :
      Answered c state parentRoot (.error (.unknownParent parentRoot)) c
  | notNewer {base : Nat} {up : BlockState} (set : c.base = some base)
      (fresh : c.contains state.root = false) (onto : c.tracked? parentRoot = some up)
      (old : state.block ≤ up.block) :
      Answered c state parentRoot (.error (.notNewer state.block up.block)) c
  | accepted {base : Nat} {up : BlockState} {flat : Option BlockState} {after : BranchCache φ}
      (set : c.base = some base) (fresh : c.contains state.root = false)
      (onto : c.tracked? parentRoot = some up) (newer : up.block < state.block)
      (inserted : Inserted c base state parentRoot flat after) :
      Answered c state parentRoot (.ok flat) after

/-- Nothing fails once the new branch is in, so an insert that fails has changed nothing. -/
theorem insertInPlace_eq (hc : c.WellFormed) (state : BlockState) (parentRoot : Hash) :
    c.insertInPlace state parentRoot =
      match c.insert state.block state.root state.delta parentRoot with
      | .ok (flat, after) => (.ok flat, after)
      | .error e => (.error e, c) := by
  unfold insertInPlace insert
  cases hb : c.base with
  | none => rfl
  | some base =>
    dsimp only
    split
    · rfl
    · next fresh =>
      cases onto : c.roots[parentRoot]? with
      | none => rfl
      | some parent =>
        obtain ⟨up, live, hroot⟩ := (hc.roots parentRoot parent).mp onto
        simp only [state?_eq live]
        split
        · rfl
        · next newer =>
          have fits : c.Fits state parentRoot parent :=
            ⟨by simpa using fresh, up, live, hroot, UInt64.not_le.mp newer⟩
          have new : (c.track ⟨state, some parent⟩).2.branches.get?
              (c.track ⟨state, some parent⟩).1 = some ⟨state, some parent⟩ := by
            rw [get?_track hc.arena, if_pos rfl]
          split
          · rfl
          · rcases flatten_cases (fits.wellFormed hc) hb new rfl with
              ⟨-, stays⟩ | ⟨_, _, _, -, -, moves⟩
            · rw [stays]
            · rw [moves]

theorem insert_eq_inPlace (hc : c.WellFormed) (state : BlockState) (parentRoot : Hash) :
    (c.insert state.block state.root state.delta parentRoot).map Prod.fst =
        (c.insertInPlace state parentRoot).1 ∧
      (Call.insert state parentRoot).run c = (c.insertInPlace state parentRoot).2 := by
  rw [insertInPlace_eq hc, Call.run]
  cases c.insert state.block state.root state.delta parentRoot <;> exact ⟨rfl, rfl⟩

theorem answered (hc : c.WellFormed) (state : BlockState) (parentRoot : Hash) :
    Answered c state parentRoot (c.insertInPlace state parentRoot).1
      (c.insertInPlace state parentRoot).2 := by
  cases hb : c.base with
  | none =>
    have refused : c.insertInPlace state parentRoot = (.error .notInitialized, c) := by
      simp [insertInPlace, hb]
    rw [refused]
    exact .uninitialized hb
  | some base =>
    cases fresh : c.contains state.root with
    | true =>
      have passed : c.insertInPlace state parentRoot = (.ok none, c) := by
        simp [insertInPlace, hb, fresh]
      rw [passed]
      exact .ignored hb fresh
    | false =>
      cases onto : c.tracked? parentRoot with
      | none =>
        have untracked : c.roots[parentRoot]? = none := by
          cases known : c.roots[parentRoot]? with
          | none => rfl
          | some slot =>
            obtain ⟨branch, live, -⟩ := (hc.roots parentRoot slot).mp known
            simp [tracked?, known, state?_eq live] at onto
        have refused : c.insertInPlace state parentRoot =
            (.error (.unknownParent parentRoot), c) := by
          simp [insertInPlace, hb, fresh, untracked]
        rw [refused]
        exact .unknownParent hb fresh onto
      | some up =>
        obtain ⟨parent, branch, known, live, rfl, hroot⟩ := hc.exists_of_tracked? onto
        by_cases newer : branch.state.block < state.block
        · have fits : c.Fits state parentRoot parent := ⟨fresh, branch, live, hroot, newer⟩
          obtain ⟨flat, after, done, inserted⟩ := fits.inserted hc hb
          rw [insertInPlace_eq hc, done]
          exact .accepted hb fresh onto newer inserted
        · have old := UInt64.not_lt.mp newer
          have refused : c.insertInPlace state parentRoot =
              (.error (.notNewer state.block branch.state.block), c) := by
            simp [insertInPlace, hb, fresh, known, state?_eq live, old]
          rw [refused]
          exact .notNewer hb fresh onto old

/-- An accepted state counts the version up, and once more if the base moves. -/
theorem Inserted.version_eq {flat : Option BlockState}
    (h : Inserted c base state parentRoot flat after) (fresh : c.contains state.root = false) :
    after.version = c.version + if flat.isSome then 2 else 1 := by
  cases h with
  | ignored known => cases fresh.symm.trans known
  | tracked => rfl
  | moved _ _ _ shift => exact shift.version

theorem Inserted.contains_root {flat : Option BlockState}
    (h : Inserted c base state parentRoot flat after) (hc : c.WellFormed) :
    after.contains state.root = true := by
  have new : ∀ parent, (c.track ⟨state, some parent⟩).2.branches.get?
      (c.track ⟨state, some parent⟩).1 = some ⟨state, some parent⟩ := fun parent => by
    rw [get?_track hc.arena, if_pos rfl]
  cases h with
  | ignored known => exact known
  | tracked fits => exact ((fits.wellFormed hc).contains_iff _).mpr ⟨_, _, new _, rfl⟩
  | moved fits _ leads shift =>
    have grown := fits.wellFormed hc
    exact (shift.contains_iff grown _).mpr ((grown.mem_chain_iff shift.live (new _)).mpr leads)

/-- How an insert is answered, and what it leaves. -/
structure InsertLaw (c : BranchCache φ) (state : BlockState) (parentRoot : Hash)
    (answer : Except BranchError (Option BlockState)) (after : BranchCache φ) : Prop where
  notInitialized : answer = .error .notInitialized ↔ c.isInitialized = false
  ignored : c.isInitialized = true →
    (answer = .ok none ∧ after = c ↔ c.contains state.root = true)
  unknownParent : c.isInitialized = true → c.contains state.root = false →
    (answer = .error (.unknownParent parentRoot) ↔ c.contains parentRoot = false)
  notNewer : c.isInitialized = true → c.contains state.root = false →
    ∀ up, c.tracked? parentRoot = some up →
      (answer = .error (.notNewer state.block up.block) ↔ state.block ≤ up.block)
  accepted : c.isInitialized = true → c.contains state.root = false →
    ∀ up, c.tracked? parentRoot = some up → up.block < state.block →
      ∃ flat, answer = .ok flat ∧ after.contains state.root = true ∧
        after.version = c.version + if flat.isSome then 2 else 1
  failed : ∀ e, answer = .error e → after = c

theorem Answered.law {answer : Except BranchError (Option BlockState)}
    (h : Answered c state parentRoot answer after) (hc : c.WellFormed) :
    c.InsertLaw state parentRoot answer after := by
  have tracked := hc.contains_eq parentRoot
  cases h with
  | uninitialized unset => constructor <;> simp [isInitialized, unset]
  | ignored set known => constructor <;> simp [isInitialized, set, known]
  | unknownParent set fresh untracked =>
    constructor <;> simp [isInitialized, set, fresh, untracked, tracked]
  | notNewer set fresh onto old =>
    constructor <;> simp [isInitialized, set, fresh, onto, tracked, old]
  | accepted set fresh onto newer inserted =>
    have version := inserted.version_eq fresh
    have changed : after ≠ c := by
      rintro rfl
      split at version <;> omega
    constructor <;>
      simp [isInitialized, set, fresh, onto, tracked, newer, changed, version,
        inserted.contains_root hc]

end InPlace

section Init

/-- How the installation of a base is answered, and what it leaves. -/
structure InitLaw (c : BranchCache φ) (block : UInt64) (root : Hash) : Prop where
  again : c.isInitialized = true →
    c.init block root = .error .alreadyInitialized ∧ (Call.init block root).run c = c
  first : c.isInitialized = false → ∃ after, c.init block root = .ok after ∧
    after.contains root = true ∧ after.version = c.version + 1

theorem initLaw (hc : c.WellFormed) (block : UInt64) (root : Hash) : c.InitLaw block root := by
  constructor
  · intro taken
    obtain ⟨base, hb⟩ := Option.isSome_iff_exists.mp taken
    have refused : c.init block root = .error .alreadyInitialized := by simp [init, hb]
    exact ⟨refused, by simp only [Call.run, refused]⟩
  · intro free
    have hb : c.base = none := Option.isNone_iff_eq_none.mp (by simpa [isInitialized] using free)
    obtain ⟨after, done⟩ : ∃ after, c.init block root = .ok after := by simp [init, hb]
    obtain ⟨-, rfl⟩ := init_eq done
    refine ⟨_, done, ?_, rfl⟩
    rw [(wellFormed_init hc done).contains_iff]
    exact ⟨_, ⟨⟨block, root, none⟩, none⟩, (get?_track hc.arena _ _).trans (if_pos rfl), rfl⟩

end Init

section Runs

/-- No call of a run changes the cache. -/
def Idle : BranchCache φ → List Call → Prop
  | _, [] => True
  | c, call :: calls => call.run c = c ∧ Idle (call.run c) calls

theorem Idle.foldl_eq {calls : List Call} (h : c.Idle calls) :
    calls.foldl (fun c call => call.run c) c = c := by
  induction calls with
  | nil => rfl
  | cons call calls ih =>
    obtain ⟨same, rest⟩ := h
    rw [same] at rest
    rw [List.foldl_cons, same]
    exact ih rest

/-- A call that changes a cache counts its version up, by no more than two. -/
theorem run_eq_or_version_lt (hc : c.WellFormed) (call : Call) : call.run c = c ∨
    c.version < (call.run c).version ∧ (call.run c).version ≤ c.version + 2 := by
  cases call with
  | init block root =>
    have law := initLaw hc block root
    cases initialized : c.isInitialized with
    | true => exact .inl (law.again initialized).2
    | false =>
      obtain ⟨after, done, -, version⟩ := law.first initialized
      right
      simp only [Call.run, done]
      omega
  | insert state parentRoot =>
    rw [(insert_eq_inPlace hc state parentRoot).2]
    have step := answered hc state parentRoot
    generalize (c.insertInPlace state parentRoot).1 = answer at step
    generalize (c.insertInPlace state parentRoot).2 = after at step ⊢
    cases step with
    | uninitialized | ignored | unknownParent | notNewer => exact .inl rfl
    | accepted _ fresh _ _ inserted =>
      have version := inserted.version_eq fresh
      split at version <;> omega

theorem version_foldl_bounds (h : Reachable c) (calls : List Call) :
    c.version ≤ (calls.foldl (fun c call => call.run c) c).version ∧
      (calls.foldl (fun c call => call.run c) c).version ≤ c.version + 2 * calls.length := by
  induction calls generalizing c with
  | nil => exact ⟨le_rfl, le_rfl⟩
  | cons call calls ih =>
    obtain ⟨least, most⟩ := ih (h.run call)
    have step : c.version ≤ (call.run c).version ∧ (call.run c).version ≤ c.version + 2 := by
      rcases run_eq_or_version_lt (wellFormed_reachable h) call with same | ⟨more, bounded⟩
      · rw [same]
        exact ⟨le_rfl, Nat.le_add_right _ _⟩
      · exact ⟨more.le, bounded⟩
    rw [List.foldl_cons, List.length_cons]
    omega

theorem version_foldl_eq_iff (h : Reachable c) (calls : List Call) :
    (calls.foldl (fun c call => call.run c) c).version = c.version ↔ c.Idle calls := by
  refine ⟨fun same => ?_, fun idle => congrArg version idle.foldl_eq⟩
  induction calls generalizing c with
  | nil => trivial
  | cons call calls ih =>
    rw [List.foldl_cons] at same
    rcases run_eq_or_version_lt (wellFormed_reachable h) call with stays | ⟨more, -⟩
    · exact ⟨stays, ih (h.run call) (same.trans (congrArg version stays.symm))⟩
    · obtain ⟨rest, -⟩ := version_foldl_bounds (h.run call) calls
      omega

/--
In every state of a run, an insert is refused or ignored for its first reason in order and leaves
the cache as it was; without a reason it is accepted, and the version is higher. So the version is
the same again later in the run exactly if no call has changed the cache. No call adds more than two
to it, so 64 bits are enough for it in a run of fewer than 2 ^ 63 calls.
-/
theorem version_tells_changes (span : Nat) (calls : List Call) :
    let c : BranchCache φ := ofCalls span calls
    (∀ root, c.contains root = (c.tracked? root).isSome) ∧
    (∀ block root, c.InitLaw block root) ∧
    (∀ state parentRoot,
      (c.insert state.block state.root state.delta parentRoot).map Prod.fst =
        (c.insertInPlace state parentRoot).1 ∧
      (Call.insert state parentRoot).run c = (c.insertInPlace state parentRoot).2 ∧
      c.InsertLaw state parentRoot (c.insertInPlace state parentRoot).1
        (c.insertInPlace state parentRoot).2) ∧
    (∀ more, (ofCalls span (calls ++ more) : BranchCache φ).version = c.version ↔ c.Idle more) ∧
    c.version ≤ 2 * calls.length := by
  intro c
  have hr : Reachable c := reachable_ofCalls span calls
  have hc : c.WellFormed := wellFormed_reachable hr
  refine ⟨hc.contains_eq, initLaw hc, fun state parentRoot => ?_, fun more => ?_, ?_⟩
  · obtain ⟨answer, left⟩ := insert_eq_inPlace hc state parentRoot
    exact ⟨answer, left, (answered hc state parentRoot).law hc⟩
  · have longer : (ofCalls span (calls ++ more) : BranchCache φ) =
        more.foldl (fun c call => call.run c) c := List.foldl_append
    rw [longer]
    exact version_foldl_eq_iff hr more
  · have new : Reachable (ofSpan span : BranchCache φ) := reachable_ofCalls span []
    have bound := (version_foldl_bounds new calls).2
    exact bound.trans_eq (Nat.zero_add _)

end Runs

end StateSync.Store.BranchCache
