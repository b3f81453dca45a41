import AstraKV.BPTree.Delete
import AstraKV.ZSet.ZSetBPlus

/-!
# AstraKV.ZSet.InStep

The invariant that ties the three structures of a sorted set together, and
its preservation by `Add`, `Remove` and `Clear`.

The tree knows a member by its score and hash only, so the invariant asks
that no two members share a hash and that a NaN, which the tree takes for
equal to every key, is only ever stored alone.

`Stores` is the half about the tree: it holds a sorted list of keys, one for
each entry. With entries that are `Apart` the keys form a strict order, so the
results on trees apply although the order of keys is no linear one; in
particular the key to be deleted is found, since the search meets only keys it
can tell from it. `InStep` adds the map from hashes back to members.
-/

universe u

namespace AstraKV

open Cut BPTree

namespace ZSetBPlus

variable {M : Type u} {hash : M → UInt64}

/-- Two entries of the score map that the tree can tell apart. -/
structure Apart (hash : M → UInt64) (e e' : Sigma fun _ : M => Binary64) : Prop where
  hash : hash e.1 ≠ hash e'.1
  left : e.2.isNaN = false
  right : e'.2.isNaN = false

/-- Being apart has no direction. -/
theorem Apart.symm {e e' : Sigma fun _ : M => Binary64} (h : Apart hash e e') : Apart hash e' e :=
  ⟨h.hash.symm, h.right, h.left⟩

/-- The key of an entry. -/
def elementOf (hash : M → UInt64) (e : Sigma fun _ : M => Binary64) : ScoredMemberCompact :=
  makeElement hash e.1 e.2

/-- `t` holds one key for each of the entries `es`. -/
structure Stores (hash : M → UInt64) (t : BPTree ScoredMemberCompact)
    (es : List (Sigma fun _ : M => Binary64)) : Prop where
  holds : Holds t t.inOrder
  sorted : t.inOrder.Pairwise (· < ·)
  perm : t.inOrder.Perm (es.map (elementOf hash))
  apart : es.Pairwise (Apart hash)

section Stores

variable {t : BPTree ScoredMemberCompact} {e e' : Sigma fun _ : M => Binary64}
  {es es' : List (Sigma fun _ : M => Binary64)}

/-- A sorted list of the keys of entries apart stores them. -/
theorem Stores.of_holds {L : List ScoredMemberCompact} (hT : Holds t L)
    (hsorted : L.Pairwise (· < ·)) (hperm : L.Perm (es.map (elementOf hash)))
    (hapart : es.Pairwise (Apart hash)) : Stores hash t es := by
  have hL := hT.inOrder_eq
  exact ⟨by rw [hL]; exact hT, by rw [hL]; exact hsorted, by rw [hL]; exact hperm, hapart⟩

/-- The empty tree stores none. -/
theorem stores_empty : Stores hash (BPTree.empty) [] :=
  .of_holds holds_empty List.Pairwise.nil (List.Perm.refl _) List.Pairwise.nil

/-- The order of the entries does not matter. -/
theorem Stores.perm_entries (h : Stores hash t es) (hperm : es.Perm es') : Stores hash t es' :=
  ⟨h.holds, h.sorted, h.perm.trans (hperm.map _),
    (hperm.pairwise_iff fun hab => hab.symm).mp h.apart⟩

/-- The tree has as many keys as there are entries. -/
theorem Stores.length (h : Stores hash t es) : t.inOrder.length = es.length := by
  rw [h.perm.length_eq, List.length_map]

/-- An entry that is apart from all others finds its place among their keys. -/
theorem Stores.cuts (h : Stores hash t es) (hapart : ∀ e' ∈ es, Apart hash e e') :
    Cuts (elementOf hash e) t.inOrder := by
  cases es with
  | nil =>
      refine ScoredMemberCompact.cuts_of_short ?_ _
      rw [h.length]
      exact Nat.zero_le _
  | cons e' es => exact ScoredMemberCompact.cuts_of_sorted h.sorted (hapart e' (by simp)).left

/-- The key of an entry cuts the tree's list at itself. -/
theorem Stores.cuts_self (h : Stores hash t (e :: es)) : Cuts (elementOf hash e) t.inOrder := by
  have hapart := (List.pairwise_cons.mp h.apart).1
  cases es with
  | nil =>
      refine ScoredMemberCompact.cuts_of_short ?_ _
      rw [h.length]
      exact Nat.le_refl _
  | cons e' es => exact ScoredMemberCompact.cuts_of_sorted h.sorted (hapart e' (by simp)).left

/-- Keys of entries apart are ordered one way or the other. -/
theorem Apart.ne (h : Apart hash e e') :
    elementOf hash e < elementOf hash e' ∨ elementOf hash e' < elementOf hash e := by
  by_contra hne
  rw [not_or] at hne
  exact h.hash ((ScoredMemberCompact.equiv_iff h.left h.right).mp hne).2

/-- Inserting the key of an entry apart from all stores it. -/
theorem Stores.insert (h : Stores hash t es) (hapart : ∀ e' ∈ es, Apart hash e e') :
    Stores hash (t.insert (elementOf hash e)).2 (e :: es) := by
  have hspec := insert_spec h.holds (h.cuts hapart)
  have hsorted := h.sorted
  have hperm := h.perm
  generalize t.insert (elementOf hash e) = res at hspec
  cases hspec with
  | @skipped L₁ L₂ k list equiv =>
      have hk : k ∈ es.map (elementOf hash) := hperm.mem_iff.mp (by rw [list]; simp)
      obtain ⟨e', he', rfl⟩ := List.mem_map.mp hk
      have hne := (hapart e' he').ne
      tauto
  | @added L₁ L₂ t' list below above holds =>
      rw [list] at hsorted hperm
      refine .of_holds holds (pairwise_insert hsorted below above) ?_
        (List.pairwise_cons.mpr ⟨hapart, h.apart⟩)
      exact List.perm_middle.trans (hperm.cons _)

/-- The tree has only its own key for an entry. -/
theorem Stores.eq_of_equiv (h : Stores hash t (e :: es)) {k : ScoredMemberCompact}
    (hk : k ∈ t.inOrder) (hequiv : ¬ elementOf hash e < k ∧ ¬ k < elementOf hash e) :
    k = elementOf hash e := by
  obtain ⟨e', he', rfl⟩ := List.mem_map.mp (h.perm.mem_iff.mp hk)
  cases List.mem_cons.mp he' with
  | inl he' => rw [he']
  | inr he' =>
      have hne := ((List.pairwise_cons.mp h.apart).1 e' he').ne
      tauto

/-- Deleting the key of an entry takes it out. -/
theorem Stores.delete (h : Stores hash t (e :: es)) :
    Stores hash (t.delete (elementOf hash e)).2 es := by
  have hspec := delete_spec h.holds h.cuts_self
  have hsorted := h.sorted
  have hperm := h.perm
  have hapart := List.pairwise_cons.mp h.apart
  generalize t.delete (elementOf hash e) = res at hspec
  cases hspec with
  | @missing L₁ L₂ list below above =>
      have hself : elementOf hash e ∈ t.inOrder := hperm.mem_iff.mpr (by simp)
      rw [list, List.mem_append] at hself
      cases hself with
      | inl hself => exact (ScoredMemberCompact.lt_irrefl _ (below _ hself)).elim
      | inr hself => exact (ScoredMemberCompact.lt_irrefl _ (above _ hself)).elim
  | @removed L₁ L₂ k t' list equiv holds =>
      obtain rfl := h.eq_of_equiv (by rw [list]; simp) equiv
      rw [list] at hsorted hperm
      refine .of_holds holds
        (hsorted.sublist ((List.sublist_cons_self _ L₂).append_left L₁)) ?_ hapart.2
      exact (List.perm_middle.symm.trans hperm).cons_inv

end Stores

/-! ## the sorted set -/

variable {z : ZSetBPlus M} {m m' : M} {s : Binary64}

/-- The tree and the reverse map agree with the score map. -/
structure InStep (hash : M → UInt64) (z : ZSetBPlus M) : Prop where
  stores : Stores hash z.orderedSet z.memberToScore.entries
  back : ∀ m ∈ z.memberToScore, z.findMemberByHash (hash m) = some m
  forth : ∀ h m, z.findMemberByHash h = some m → h = hash m

/-- The empty sorted set is in step. -/
theorem inStep_empty : InStep hash (empty : ZSetBPlus M) :=
  ⟨stores_empty, fun m hm => (AList.notMem_empty m hm).elim, fun h m hm => by
    rw [findMemberByHash, empty, AList.lookup_empty] at hm
    contradiction⟩

/-- After `Clear` a sorted set is in step. -/
theorem inStep_clear (h : InStep hash z) : InStep hash z.clear :=
  ⟨.of_holds (clear_spec h.stores.holds) List.Pairwise.nil (List.Perm.refl _) List.Pairwise.nil,
    fun m hm => (AList.notMem_empty m hm).elim, fun h m hm => by
      rw [findMemberByHash, clear, AList.lookup_empty] at hm
      contradiction⟩

/-- Score `s` for `m` keeps it apart from the other members. -/
def Admits (hash : M → UInt64) (z : ZSetBPlus M) (m : M) (s : Binary64) : Prop :=
  ∀ e ∈ z.memberToScore.entries, e.1 ≠ m → Apart hash ⟨m, s⟩ e

/-- Members of one sorted set have different hashes. -/
theorem InStep.hash_ne (h : InStep hash z) (hm : m ∈ z.memberToScore) (hm' : m' ∈ z.memberToScore)
    (hne : m ≠ m') : hash m ≠ hash m' := by
  intro heq
  have hback := h.back m hm
  rw [heq, h.back m' hm'] at hback
  exact hne (Option.some.inj hback).symm

/-- The reverse map leads from a hash to its own member. -/
theorem InStep.forth_insert (h : InStep hash z) (m : M) (x : UInt64) (m' : M)
    (hx : (z.hashToMember.insert (hash m) m).lookup x = some m') : x = hash m' := by
  rw [Dict.lookup_insert_ite] at hx
  by_cases heq : x = hash m
  · rw [if_pos heq] at hx
    rw [heq, Option.some.inj hx]
  · rw [if_neg heq] at hx
    exact h.forth x m' hx

variable [DecidableEq M]

/-- A score admitted is apart from those of the others. -/
theorem Admits.erase (h : Admits hash z m s) :
    ∀ e ∈ (z.memberToScore.erase m).entries, Apart hash ⟨m, s⟩ e := by
  intro e he
  have hlookup := Dict.mem_entries.mp he
  rw [Dict.lookup_erase_ite] at hlookup
  by_cases hem : e.1 = m
  · rw [if_pos hem] at hlookup
    contradiction
  · rw [if_neg hem] at hlookup
    exact h e (Dict.mem_entries.mpr hlookup) hem

/-- The reverse map after a member was added or given a new score. -/
theorem InStep.back_insert (h : InStep hash z) (hadm : Admits hash z m s) :
    ∀ m' ∈ z.memberToScore.insert m s,
      (z.hashToMember.insert (hash m) m).lookup (hash m') = some m' := by
  intro m' hm'
  by_cases heq : m' = m
  · rw [heq, AList.lookup_insert]
  · have hold := ((AList.mem_insert _).mp hm').resolve_left heq
    obtain ⟨s', hs'⟩ := Dict.exists_lookup hold
    have hapart := hadm ⟨m', s'⟩ (Dict.mem_entries.mpr hs') heq
    exact (AList.lookup_insert_ne hapart.hash.symm).trans (h.back m' hold)

/-- `Add` changes nothing, or inserts into a tree that stores the other members. -/
theorem InStep.add_cases (h : InStep hash z) (m : M) (s : Binary64) :
    (∃ old, z.getScore m = some old ∧ old.Equal s ∧ (z.add hash m s).2 = z) ∨
    ((∀ old, z.getScore m = some old → ¬ old.Equal s) ∧
      ∃ t, Stores hash t (z.memberToScore.erase m).entries ∧
        (z.add hash m s).2 =
          ⟨(t.insert (elementOf hash ⟨m, s⟩)).2, z.memberToScore.insert m s,
            z.hashToMember.insert (hash m) m⟩) := by
  unfold add getScore
  cases hlookup : z.memberToScore.lookup m with
  | none =>
      refine Or.inr ⟨by simp, z.orderedSet, ?_, rfl⟩
      have hnot : m ∉ z.memberToScore := AList.lookup_eq_none.mp hlookup
      have hsame : (z.memberToScore.erase m).entries = z.memberToScore.entries :=
        List.kerase_of_notMem_keys hnot
      rw [hsame]
      exact h.stores
  | some oldScore =>
      dsimp only
      by_cases heq : oldScore.Equal s
      · rw [if_neg (not_not_intro heq)]
        exact Or.inl ⟨oldScore, rfl, heq, rfl⟩
      · rw [if_pos heq]
        refine Or.inr ⟨fun old hold => Option.some.inj hold ▸ heq, _, ?_, rfl⟩
        exact (h.stores.perm_entries (Dict.perm_cons_erase hlookup)).delete

/-- An addition admitted keeps the sorted set in step. -/
theorem inStep_add (h : InStep hash z) (hadm : Admits hash z m s) :
    InStep hash (z.add hash m s).2 := by
  obtain ⟨old, -, -, hsame⟩ | ⟨-, t, hstores, hadd⟩ := h.add_cases m s
  · rw [hsame]
    exact h
  · rw [hadd]
    refine ⟨?_, h.back_insert hadm, h.forth_insert m⟩
    have hins := hstores.insert hadm.erase
    rwa [← Dict.entries_insert] at hins

/-- A removal keeps it in step. -/
theorem inStep_remove (h : InStep hash z) (m : M) : InStep hash (z.remove hash m).2 := by
  unfold remove
  cases hlookup : z.memberToScore.lookup m with
  | none => exact h
  | some score =>
      refine ⟨(h.stores.perm_entries (Dict.perm_cons_erase hlookup)).delete, ?_, ?_⟩
      · intro m' hm'
        obtain ⟨hne, hold⟩ := AList.mem_erase.mp hm'
        have hhash := h.hash_ne hold (Dict.mem_of_lookup hlookup) hne
        exact (AList.lookup_erase_ne hhash).trans (h.back m' hold)
      · intro x m' hx
        have hx' : (z.hashToMember.erase (hash m)).lookup x = some m' := hx
        rw [Dict.lookup_erase_ite] at hx'
        by_cases heq : x = hash m
        · rw [if_pos heq] at hx'
          contradiction
        · rw [if_neg heq] at hx'
          exact h.forth x m' hx'

end ZSetBPlus

end AstraKV
