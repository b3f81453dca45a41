import AstraKV.ZSet.Run

/-!
# AstraKV.ZSet.Index

The ordered index of a sorted set: the keys of its tree in their order, each
with the member that its hash leads to.  Ranges and ranks are read off it.

A sorted set whose structures are in step is told by its scores alone: the
keys are those of the members, and there is one order for them.  So a sorted
set that is built again from the members and scores of another one, in
whatever order they come, has the same index.  Without the invariant it need
not: a NaN is not inserted beside another key, so the index is a matter of
which member came first.
-/

universe u

namespace AstraKV

open Cut BPTree

namespace ZSetBPlus

variable {M : Type u} {hash : M → UInt64} {z z' : ZSetBPlus M} {m : M} {s : Binary64}

/-- The keys in their order, with the members that they lead to. -/
def index (z : ZSetBPlus M) : List (ScoredMemberCompact × Option M) :=
  z.orderedSet.inOrder.map fun key => (key, z.findMemberByHash key.memberHash)

/-- The same sorted set: the members with their scores, and the ordered index. -/
structure Same [DecidableEq M] (z z' : ZSetBPlus M) : Prop where
  score : ∀ m, z.getScore m = z'.getScore m
  index : z.index = z'.index

variable [DecidableEq M]

/-! ## one index for the scores -/

/-- Score maps that agree on every member have the same entries, in some order. -/
theorem perm_entries_of_score (hscore : ∀ m, z.getScore m = z'.getScore m) :
    z.memberToScore.entries.Perm z'.memberToScore.entries := by
  refine List.lookup_ext z.memberToScore.nodupKeys z'.memberToScore.nodupKeys fun m s => ?_
  have hlookup : z.memberToScore.entries.dlookup m = z'.memberToScore.entries.dlookup m := hscore m
  rw [hlookup]

/-- Both trees hold one key for each entry, and in strictly increasing order. -/
theorem InStep.inOrder_eq (h : InStep hash z) (h' : InStep hash z')
    (hscore : ∀ m, z.getScore m = z'.getScore m) :
    z.orderedSet.inOrder = z'.orderedSet.inOrder := by
  have hperm : z.orderedSet.inOrder.Perm z'.orderedSet.inOrder :=
    h.stores.perm.trans <| ((perm_entries_of_score hscore).map _).trans h'.stores.perm.symm
  exact hperm.eq_of_pairwise (fun a b _ _ hlt hgt => (ScoredMemberCompact.lt_asymm hlt hgt).elim)
    h.stores.sorted h'.stores.sorted

/-- A key of the tree leads to the member it was made for. -/
theorem InStep.findMemberByHash_of_mem (h : InStep hash z) {key : ScoredMemberCompact}
    (hkey : key ∈ z.orderedSet.inOrder) :
    ∃ m s, z.getScore m = some s ∧ key = makeElement hash m s ∧
      z.findMemberByHash key.memberHash = some m := by
  obtain ⟨⟨m, s⟩, hentry, rfl⟩ := List.mem_map.mp (h.stores.perm.mem_iff.mp hkey)
  have hscore : z.getScore m = some s := Dict.mem_entries.mp hentry
  exact ⟨m, s, hscore, rfl, h.back m (Dict.mem_of_lookup hscore)⟩

/-- **Scores tell the index** of sorted sets in step. -/
theorem InStep.same (h : InStep hash z) (h' : InStep hash z')
    (hscore : ∀ m, z.getScore m = z'.getScore m) : Same z z' := by
  refine ⟨hscore, ?_⟩
  unfold index
  rw [← h.inOrder_eq h' hscore]
  refine List.map_congr_left fun key hkey => ?_
  obtain ⟨m, s, hm, rfl, hfind⟩ := h.findMemberByHash_of_mem hkey
  have hm' : m ∈ z'.memberToScore := Dict.mem_of_lookup ((hscore m).symm.trans hm)
  exact congrArg (Prod.mk _) (hfind.trans (h'.back m hm').symm)

/-! ## built again -/

/-- A new member is the first of the entries, and the others stay. -/
theorem entries_add_of_none (hash : M → UInt64) (hnone : z.getScore m = none) (s : Binary64) :
    (z.add hash m s).2.memberToScore.entries = ⟨m, s⟩ :: z.memberToScore.entries := by
  have hlookup : z.memberToScore.lookup m = none := hnone
  have hsame : (z.memberToScore.erase m).entries = z.memberToScore.entries :=
    List.kerase_of_notMem_keys (AList.lookup_eq_none.mp hlookup)
  unfold add
  rw [hlookup, ← hsame]
  exact Dict.entries_insert

/-- Members that can be told from each other and from those that are there may be added in any
order: each is new when its turn comes, and stays apart from the ones before it. -/
theorem InStep.foldl_add {es : List (Sigma fun _ : M => Binary64)} (h : InStep hash z)
    (hnodup : es.NodupKeys) (hnew : ∀ m ∈ es.keys, z.getScore m = none)
    (hapart : es.Pairwise (Apart hash))
    (hothers : ∀ e ∈ es, ∀ e' ∈ z.memberToScore.entries, Apart hash e e') :
    InStep hash (es.foldl (fun z e => (z.add hash e.1 e.2).2) z) := by
  induction es generalizing z with
  | nil => exact h
  | cons e es ih =>
      obtain ⟨m, s⟩ := e
      obtain ⟨hfresh, hrest⟩ := List.nodupKeys_cons.mp hnodup
      obtain ⟨hfirst, hlater⟩ := List.pairwise_cons.mp hapart
      have hadm : Admits hash z m s := fun e' he' _ => hothers _ List.mem_cons_self e' he'
      have hentries := entries_add_of_none hash (hnew m (by simp)) s
      refine ih (inStep_add h hadm) hrest (fun m' hm' => ?_) hlater fun e he e' he' => ?_
      · have hne : m' ≠ m := ne_of_mem_of_not_mem hm' hfresh
        rw [getScore_add, if_neg fun hand => hne hand.1]
        exact hnew m' (by simp [hm'])
      · rw [hentries] at he'
        obtain rfl | he' := List.mem_cons.mp he'
        · exact (hfirst e he).symm
        · exact hothers e (List.mem_cons_of_mem _ he) e' he'

/-- A sorted set in step that is built again from its own members is in step. -/
theorem InStep.rebuilt (h : InStep hash z) :
    InStep hash (z.memberToScore.entries.foldl (fun z e => (z.add hash e.1 e.2).2) empty) :=
  inStep_empty.foldl_add z.memberToScore.nodupKeys (fun _ _ => rfl) h.stores.apart
    fun _ _ _ he' => absurd he' List.not_mem_nil

end ZSetBPlus

end AstraKV
