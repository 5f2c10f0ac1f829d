import Mathlib
import StateSync.Proofs.BranchCache.Lookup
import StateSync.Store.BranchCursor

/-!
Lines of states. The states that a cache flattened and those that a cursor still shows above the
base make up, without gap or repetition, the line on which a tracked root was accepted.
-/

namespace StateSync.Store

/-- A state as the base keeps it. -/
def BlockState.withoutChanges (s : BlockState) : BlockState := { s with delta := none }

/-- What a cursor has still to show: the states on the walk from its slot, without the base. -/
def BranchCursor.remaining {φ : Type} (cursor : BranchCursor) (c : BranchCache φ) :
    List BlockState :=
  match cursor.next with
  | some slot => ((Branch.ancestry c.branches slot).map fun entry => entry.2.state).dropLast
  | none => []

namespace BranchCache

variable {φ : Type} {c moved : BranchCache φ} {base next slot parent : Nat}
  {branch above : Branch} {state : BlockState} {parentRoot : Hash}
  {line extended : Hash → List BlockState}

section Walk

/-- A step shows the next of the states that remain, and none when there are no more. -/
theorem WellFormed.advance_eq (hc : c.WellFormed) {cursor : BranchCursor}
    (current : cursor.version = c.version) :
    (cursor.advance c).1 = .ok (cursor.remaining c).head? ∧
      (cursor.advance c).2.remaining c = (cursor.remaining c).tail ∧
      (cursor.advance c).2.version = c.version := by
  obtain ⟨next, version⟩ := cursor
  obtain rfl : version = c.version := current
  cases next with
  | none => simp [BranchCursor.advance, BranchCursor.remaining]
  | some slot =>
    cases live : c.branches.get? slot with
    | none =>
      have ends : Branch.ancestry c.branches slot = [] := by
        rw [Branch.ancestry]
        simp [live]
      simp [BranchCursor.advance, BranchCursor.remaining, live, ends]
    | some branch =>
      cases hp : branch.parent with
      | none =>
        simp [BranchCursor.advance, BranchCursor.remaining, live, hp, Branch.ancestry_root live hp]
      | some parent =>
        obtain ⟨up, hup, hlt⟩ := hc.linked slot branch parent live hp
        have above : Branch.ancestry c.branches parent ≠ [] := Branch.ancestry_ne_nil hup
        simp [BranchCursor.advance, BranchCursor.remaining, live, hp,
          Branch.ancestry_link live hp hup hlt, List.dropLast_cons_of_ne_nil, above]

/-- Step by step, a cursor shows the states that remain. -/
theorem WellFormed.states_eq (hc : c.WellFormed) (steps : Nat) {cursor : BranchCursor}
    (current : cursor.version = c.version) :
    BranchCursor.states c steps cursor = (cursor.remaining c).take steps := by
  induction steps generalizing cursor with
  | zero => rfl
  | succ steps ih =>
    obtain ⟨shown, rest, still⟩ := hc.advance_eq current
    have later := ih still
    rw [BranchCursor.states]
    revert shown rest later
    generalize cursor.advance c = result
    obtain ⟨answer, cursor'⟩ := result
    rintro rfl rest later
    cases line : cursor.remaining c with
    | nil => rfl
    | cons state line =>
      rw [line] at rest
      rw [rest] at later
      simp only [List.head?_cons, List.take_succ_cons]
      rw [later]
      rfl

theorem WellFormed.walk_eq (hc : c.WellFormed) (h : c.branches.get? slot = some branch) :
    c.walk branch.state.root =
      ((Branch.ancestry c.branches slot).map fun entry => entry.2.state).dropLast := by
  have hroot := (hc.roots branch.state.root slot).mpr ⟨branch, h, rfl⟩
  have le := Branch.length_ancestry_le c.branches slot
  rw [walk, BranchCursor.ofRoot, hroot, hc.states_eq c.size rfl, BranchCursor.remaining,
    List.take_of_length_le]
  rw [List.length_dropLast, List.length_map]
  exact (Nat.sub_le _ _).trans le

end Walk

section Lines

/-- The line to a branch is its own state on top of the line to its parent. -/
def Follows (c : BranchCache φ) (line : Hash → List BlockState) : Prop :=
  ∀ slot branch parent up, c.branches.get? slot = some branch → branch.parent = some parent →
    c.branches.get? parent = some up →
    line branch.state.root = branch.state :: line up.state.root

theorem Follows.track [KeyFilter φ] (hl : c.Follows line) (hc : c.WellFormed)
    (hf : c.Fits state parentRoot parent)
    (kept : ∀ slot branch, c.branches.get? slot = some branch →
      extended branch.state.root = line branch.state.root)
    (new : extended state.root = state :: line parentRoot) :
    (c.track ⟨state, some parent⟩).2.Follows extended := by
  intro slot branch target up hlive hlink hup
  rcases hf.link hc hlive hlink hup with ⟨rfl, honto, rfl⟩ | ⟨hslot, htarget⟩
  · rw [new, kept parent up honto]
  · rw [kept slot branch hslot, kept target up htarget]
    exact hl slot branch target up hslot hlink htarget

theorem Moved.follows [KeyFilter φ] (hm : Moved c moved base next above) (hl : c.Follows line) :
    moved.Follows line := by
  intro slot branch parent up hlive hp hup
  obtain ⟨old, hslot, hold, hroot, _⟩ := hm.link hlive hp hup
  rw [hl slot branch parent old hslot hp hold, hroot]

end Lines

/-- A state that a cache accepted, and the root it was accepted on. -/
structure Accepted where
  state : BlockState
  parentRoot : Hash

/--
The states on the line to a root, newest first, by what was accepted, newest first. A root may
have been accepted more than once: what counts is the last time before its child was accepted.
-/
def ancestors : List Accepted → Hash → List BlockState
  | [], _ => []
  | a :: earlier, root =>
    if a.state.root = root then a.state :: ancestors earlier a.parentRoot
    else ancestors earlier root

/-- A cache, and what its calls accepted and handed out. -/
structure History (φ : Type) where
  cache : BranchCache φ
  /-- The base that was installed first. -/
  first : Option BlockState := none
  /-- What was accepted, newest first. -/
  accepted : List Accepted := []
  /-- What was flattened, oldest first. -/
  flattened : List BlockState := []

namespace History

variable [KeyFilter φ] {h : History φ}

/-- The history after a call. -/
def call (h : History φ) : Call → History φ
  | .init block root =>
    match h.cache.init block root with
    | .ok cache => { h with cache, first := some ⟨block, root, none⟩ }
    | .error _ => h
  | .insert state parentRoot =>
    match h.cache.insert state.block state.root state.delta parentRoot with
    | .ok (flat, cache) =>
      { cache
        first := h.first
        accepted :=
          if h.cache.contains state.root then h.accepted else ⟨state, parentRoot⟩ :: h.accepted
        flattened := h.flattened ++ flat.toList }
    | .error _ => h

/-- The history of calls on a new cache. -/
def ofCalls (span : Nat) (calls : List Call) : History φ :=
  calls.foldl call { cache := .ofSpan span }

/-- Links extend lines, and the line to the base is what was flattened. -/
structure Sound (h : History φ) : Prop where
  wellFormed : h.cache.WellFormed
  unused : h.cache.base = none → h.accepted = [] ∧ h.flattened = []
  follows : h.cache.Follows (ancestors h.accepted)
  line : ∀ base branch, h.cache.base = some base → h.cache.branches.get? base = some branch →
    (ancestors h.accepted branch.state.root).reverse = h.flattened
  last : h.cache.baseState? = (h.flattened.getLast?.or h.first).map BlockState.withoutChanges

theorem sound_ofSpan (span : Nat) : Sound ({ cache := .ofSpan span } : History φ) := by
  refine ⟨wellFormed_ofSpan span, fun _ => ⟨rfl, rfl⟩, ?_, ?_, rfl⟩
  · intro slot branch parent up hlive
    cases hlive
  · intro base branch hb
    cases hb

theorem sound_init (hh : h.Sound) {block : UInt64} {root : Hash} {cache : BranchCache φ}
    (done : h.cache.init block root = .ok cache) :
    Sound { h with cache, first := some ⟨block, root, none⟩ } := by
  have hc := hh.wellFormed
  obtain ⟨hb, heq⟩ := init_eq done
  obtain ⟨accepted, flattened⟩ := hh.unused hb
  have only : ∀ slot branch, cache.branches.get? slot = some branch →
      cache.base = some slot ∧ branch = ⟨⟨block, root, none⟩, none⟩ := by
    intro slot branch hlive
    rw [heq] at hlive ⊢
    rw [get?_track hc.arena, hc.get?_of_base_none hb] at hlive
    split at hlive
    · next same => exact ⟨congrArg some same.symm, (Option.some.inj hlive).symm⟩
    · cases hlive
  have hafter := wellFormed_init hc done
  refine ⟨hafter, fun unset => ?_, ?_, ?_, ?_⟩
  · rw [heq] at unset
    cases unset
  · intro slot branch parent up hlive hp
    obtain ⟨_, rfl⟩ := only slot branch hlive
    cases hp
  · intro base branch _ _
    simp [accepted, flattened, ancestors]
  · have hbase : cache.base = some (h.cache.track ⟨⟨block, root, none⟩, none⟩).1 := by rw [heq]
    obtain ⟨branch, hlive⟩ := hafter.base_live _ hbase
    obtain ⟨_, rfl⟩ := only _ _ hlive
    rw [baseState?_eq hbase hlive, flattened]
    rfl

theorem sound_track (hh : h.Sound) {state : BlockState} {parentRoot : Hash} {base parent : Nat}
    (hb : h.cache.base = some base) (hf : h.cache.Fits state parentRoot parent) :
    Sound { h with
      cache := (h.cache.track ⟨state, some parent⟩).2
      accepted := ⟨state, parentRoot⟩ :: h.accepted } := by
  have hc := hh.wellFormed
  obtain ⟨root, hroot⟩ := hc.base_live base hb
  have still := get?_track_of_get? hc.arena ⟨state, some parent⟩ hroot
  have kept : ∀ slot branch, h.cache.branches.get? slot = some branch →
      ancestors (⟨state, parentRoot⟩ :: h.accepted) branch.state.root =
        ancestors h.accepted branch.state.root := by
    intro slot branch hlive
    exact if_neg (hc.root_ne hf.fresh hlive).symm
  refine ⟨hf.wellFormed hc, fun unset => ?_, ?_, ?_, ?_⟩
  · cases hb.symm.trans unset
  · exact hh.follows.track hc hf kept (if_pos rfl)
  · intro same branch hsame hlive
    obtain rfl := Option.some.inj (hb.symm.trans hsame)
    obtain rfl := Option.some.inj (still.symm.trans hlive)
    exact (congrArg List.reverse (kept base root hroot)).trans (hh.line base root hb hroot)
  · have same := baseState?_eq (c := (h.cache.track ⟨state, some parent⟩).2) hb still
    exact same.trans ((baseState?_eq hb hroot).symm.trans hh.last)

theorem sound_moved (hh : h.Sound) {moved : BranchCache φ} {base next : Nat} {above : Branch}
    (hb : h.cache.base = some base) (hm : h.cache.Moved moved base next above) :
    Sound { h with cache := moved, flattened := h.flattened ++ [above.state] } := by
  have hc := hh.wellFormed
  obtain ⟨root, hroot⟩ := hc.base_live base hb
  refine ⟨hm.wellFormed hc hb, fun unset => ?_, hm.follows hh.follows, ?_, ?_⟩
  · cases hm.base.symm.trans unset
  · intro newBase branch hnew hlive
    obtain rfl := Option.some.inj (hm.base.symm.trans hnew)
    obtain rfl := Option.some.inj (hm.get?_next.symm.trans hlive)
    rw [Branch.asBase_root, hh.follows next above base root hm.live hm.parent hroot,
      List.reverse_cons, hh.line base root hb hroot]
  · rw [baseState?_eq hm.base hm.get?_next, List.getLast?_append]
    rfl

theorem sound_call (hh : h.Sound) (call : Call) : (h.call call).Sound := by
  cases call with
  | init block root =>
    simp only [History.call]
    split
    · next done => exact sound_init hh done
    · exact hh
  | insert state parentRoot =>
    simp only [History.call]
    cases done : h.cache.insert state.block state.root state.delta parentRoot with
    | error e => exact hh
    | ok result =>
      obtain ⟨flat, cache⟩ := result
      obtain ⟨base, hb⟩ := base_of_insert done
      cases inserted_of_insert hh.wellFormed hb done with
      | ignored known => simpa [known] using hh
      | tracked fits _ => simpa [fits.fresh] using sound_track hh hb fits
      | moved fits _ _ shift =>
        simpa [fits.fresh] using sound_moved (sound_track hh hb fits) hb shift

theorem sound_ofCalls (span : Nat) (calls : List Call) : Sound (ofCalls span calls : History φ) :=
  List.foldlRecOn calls _ (sound_ofSpan span) fun _ hh call _ => sound_call hh call

omit [KeyFilter φ] in
/-- The states above the base complete what was flattened to the line of a branch. -/
theorem Sound.flattened_append (hh : h.Sound) {slot : Nat} {branch : Branch}
    (hlive : h.cache.branches.get? slot = some branch) :
    h.flattened ++ ((Branch.ancestry h.cache.branches slot).map
        fun entry => entry.2.state).dropLast.reverse =
      (ancestors h.accepted branch.state.root).reverse := by
  have hc := hh.wellFormed
  refine hc.induction (motive := fun slot branch =>
    h.flattened ++ ((Branch.ancestry h.cache.branches slot).map
        fun entry => entry.2.state).dropLast.reverse =
      (ancestors h.accepted branch.state.root).reverse) ?_ ?_ slot branch hlive
  · intro base branch hb hlive hp
    rw [Branch.ancestry_root hlive hp, hh.line base branch hb hlive]
    simp
  · intro slot branch parent up hlive hp hup hlt ih
    have above : Branch.ancestry h.cache.branches parent ≠ [] := Branch.ancestry_ne_nil hup
    rw [Branch.ancestry_link hlive hp hup hlt, List.map_cons,
      List.dropLast_cons_of_ne_nil (by simpa using above), List.reverse_cons, ← List.append_assoc,
      ih, hh.follows slot branch parent up hlive hp hup, List.reverse_cons]

/--
What was flattened, followed by what a cursor shows at a tracked root in reverse, is the line on
which the root was accepted, oldest first. The base is the state that was flattened last.
-/
theorem flattened_append_walk (span : Nat) (calls : List Call) :
    let h : History φ := ofCalls span calls
    (∀ root, h.cache.contains root = true →
      h.flattened ++ (h.cache.walk root).reverse = (ancestors h.accepted root).reverse) ∧
    h.cache.baseState? = (h.flattened.getLast?.or h.first).map BlockState.withoutChanges := by
  intro h
  have hh : h.Sound := sound_ofCalls span calls
  refine ⟨fun root known => ?_, hh.last⟩
  obtain ⟨slot, branch, hlive, rfl⟩ := (hh.wellFormed.contains_iff root).mp known
  rw [hh.wellFormed.walk_eq hlive]
  exact hh.flattened_append hlive

/-- A fork that the base leaves behind, and its root once more on top of the flattened states. -/
def acceptedAgain : History BloomFilter :=
  ofCalls 1 [.init 0 .zero, .insert ⟨1, .ofNat 9, none⟩ .zero, .insert ⟨1, .ofNat 1, none⟩ .zero,
    .insert ⟨2, .ofNat 2, none⟩ (.ofNat 1), .insert ⟨3, .ofNat 3, none⟩ (.ofNat 2),
    .insert ⟨4, .ofNat 9, none⟩ (.ofNat 3)]

/-- The line to the root is the one on which it was accepted last. -/
theorem flattened_append_walk_acceptedAgain :
    acceptedAgain.cache.contains (.ofNat 9) = true ∧
      acceptedAgain.flattened ++ (acceptedAgain.cache.walk (.ofNat 9)).reverse =
        (ancestors acceptedAgain.accepted (.ofNat 9)).reverse ∧
      (ancestors acceptedAgain.accepted (.ofNat 9)).reverse.map BlockState.block = [1, 2, 3, 4] := by
  have known : acceptedAgain.cache.contains (.ofNat 9) = true := by decide +kernel
  exact ⟨known, (flattened_append_walk 1 _).1 (.ofNat 9) known, by decide +kernel⟩

end History

end BranchCache

end StateSync.Store
