import StateSync.Proofs.BranchCache.Lookup

/-!
Honest filters. Keys are put into the filter with every insert, and the filter is made anew when the
base moves; a filter that claims the keys that were put into it claims every key that is tracked. So
a lookup finds what the links alone lead to.
-/

namespace StateSync.Store.BranchCache

variable {φ : Type} {c : BranchCache φ} {key : Bytes}

/-- The states that the bare links show from a slot on, whatever their blocks are. -/
inductive Shows (branches : Arena Branch) : Option Nat → List BlockState → Prop
  | ended : Shows branches none []
  | vacant {slot : Nat} (gone : branches.get? slot = none) : Shows branches (some slot) []
  | linked {slot : Nat} {branch : Branch} {states : List BlockState}
      (live : branches.get? slot = some branch) (rest : Shows branches branch.parent states) :
      Shows branches (some slot) (branch.state :: states)

/-- The links show one list of states at most. -/
theorem Shows.unique {branches : Arena Branch} {slot : Option Nat} {states others : List BlockState}
    (h : Shows branches slot states) (h' : Shows branches slot others) : states = others := by
  induction h generalizing others with
  | ended =>
    cases h'
    rfl
  | vacant gone =>
    cases h' with
    | vacant _ => rfl
    | linked live _ => cases gone.symm.trans live
  | linked live _ ih =>
    cases h' with
    | vacant gone => cases gone.symm.trans live
    | linked live' rest' =>
      obtain rfl := Option.some.inj (live.symm.trans live')
      rw [ih rest']

/-- Links lead to older blocks, so a walk that looks at the blocks stops no earlier than they do. -/
theorem WellFormed.shows_chain (hc : c.WellFormed) (root : Hash) :
    Shows c.branches c.roots[root]? (c.chain root) := by
  cases known : c.roots[root]? with
  | none =>
    have empty : c.chain root = [] := by
      simp only [chain, known]
    rw [empty]
    exact .ended
  | some slot =>
    obtain ⟨branch, hlive, rfl⟩ := (hc.roots root slot).mp known
    rw [chain_eq hc.toIndexed hlive]
    refine hc.induction (motive := fun slot _ => Shows c.branches (some slot)
      ((Branch.ancestry c.branches slot).map fun entry => entry.2.state)) ?_ ?_ slot branch hlive
    · intro slot branch _ hslot hp
      rw [Branch.ancestry_root hslot hp]
      refine .linked hslot ?_
      rw [hp]
      exact .ended
    · intro slot branch parent up hslot hp hup hlt ih
      rw [Branch.ancestry_link hslot hp hup hlt]
      refine .linked hslot ?_
      rw [hp]
      exact ih

theorem mem_keys {delta : Delta} : key ∈ delta.keys ↔ key ∈ delta.leaves ∨ key ∈ delta.nodes := by
  rw [Delta.keys, List.mem_append, Std.TreeMap.mem_keys, Std.TreeMap.mem_keys]

/--
Whatever was inserted and however often the base moved, an honest filter claims the keys of all
tracked changes, and a lookup finds the newest change on the walk along the links.
-/
theorem filter_hides_nothing [KeyFilter φ] [HonestKeyFilter φ] (h : Reachable c) :
    (∀ slot branch delta, c.branches.get? slot = some branch → branch.state.delta = some delta →
      ∀ key, key ∈ delta.leaves ∨ key ∈ delta.nodes → KeyFilter.contains c.filter key = true) ∧
    ∀ root, ∃ line, (∀ states, Shows c.branches c.roots[root]? states ↔ states = line) ∧
      ∀ kind key, c.lookup kind key root = line.findSome? fun state => state.change? kind key := by
  have covers := covers_reachable h
  constructor
  · intro slot branch delta live changed key mem
    exact covers key (mem_trackedKeys.mpr ⟨slot, branch, delta, live, changed, mem_keys.mpr mem⟩)
  · intro root
    have shown := (wellFormed_reachable h).shows_chain root
    refine ⟨c.chain root, fun states => ⟨fun other => other.unique shown, ?_⟩, fun kind key => ?_⟩
    · rintro rfl
      exact shown
    · exact lookup_eq_chainLookup covers kind key root

/-- A fork that is left behind and a line on which the base moves twice. -/
def movedTwice : List Call :=
  [.init 0 .zero,
    .insert ⟨1, .ofNat 1, some { leaves := (∅ : Rows).insert [1] [0x11] }⟩ .zero,
    .insert ⟨1, .ofNat 9, some { nodes := (∅ : Rows).insert [9] [0x99] }⟩ .zero,
    .insert ⟨2, .ofNat 2, some { nodes := (∅ : Rows).insert [2] [0x22] }⟩ (.ofNat 1),
    .insert ⟨3, .ofNat 3, some { leaves := (∅ : Rows).insert [3] [0x33] }⟩ (.ofNat 2)]

/-- The filter was made anew without the keys that are gone, and claims the one that is tracked. -/
theorem filter_hides_nothing_movedTwice :
    let c : BranchCache BloomFilter := ofCalls 1 movedTwice
    KeyFilter.contains c.filter [3] = true ∧ KeyFilter.contains c.filter [1] = false ∧
      ∃ line, Shows c.branches c.roots[Hash.ofNat 3]? line ∧
        line.map BlockState.block = [3, 2] ∧
        line.findSome? (fun state => state.change? .leaves [3]) = some [0x33] := by
  intro c
  have reached : Reachable c := reachable_ofCalls 1 movedTwice
  obtain ⟨claimed, shown⟩ := filter_hides_nothing reached
  have tip : (c.branches.get? 2).any (fun branch =>
      branch.state.delta.any fun delta => delta.leaves.contains [3]) = true := by decide +kernel
  obtain ⟨branch, live, changed⟩ := (Option.any_eq_true _ _).mp tip
  obtain ⟨delta, changed, listed⟩ := (Option.any_eq_true _ _).mp changed
  have claims := claimed 2 branch delta live changed [3] (.inl listed)
  obtain ⟨line, only, found⟩ := shown (.ofNat 3)
  have walked := (only _).mp ((wellFormed_reachable reached).shows_chain (.ofNat 3))
  refine ⟨claims, by decide +kernel, line, (only line).mpr rfl, ?_, ?_⟩
  · rw [← walked]
    decide +kernel
  · rw [← found .leaves [3]]
    decide +kernel

end StateSync.Store.BranchCache
