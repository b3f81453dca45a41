import AstraKV.ZSet.Run

/-!
# AstraKV.ZSet.Exact

Exactly which runs keep the sorted set's size and ranges in agreement with
its members.

The tree tells two keys apart only when their hashes differ and neither
score is a NaN, and its counter has 32 bits.  A run that respects this at
every addition stays exact; the first addition that does not makes a member
vanish from the size or from the ranges.

`Accounted` is the agreement: the size is the number of members and a range
over all ranks lists each of them once with its score. `Clean` is the
condition on one addition, `Tidy` what a clean run keeps. The converse needs
every way in which an addition can fail to be clean, each of which is shown to
spoil the size or the range right away, so the condition is exact.
-/

universe u

namespace AstraKV

open Cut BPTree BPTreePath Machine

namespace ZSetBPlus

variable {M : Type u} {hash : M → UInt64}

/-- The size is a 32-bit number. -/
theorem size_lt (z : ZSetBPlus M) : z.size.toNat < 2 ^ 32 := by
  unfold ZSetBPlus.size
  rw [UInt32.toNat_toUInt64]
  exact z.orderedSet.size.toNat_lt

/-- A NaN is not inserted next to another key, nor another key next to a NaN. -/
theorem Stores.insert_isNaN {t : BPTree ScoredMemberCompact} {e e' : Sigma fun _ : M => Binary64}
    {es : List (Sigma fun _ : M => Binary64)} (ht : Stores hash t es) (he' : e' ∈ es)
    (hnan : e.2.isNaN = true ∨ e'.2.isNaN = true) : (t.insert (elementOf hash e)).2 = t := by
  have hlen := ht.length
  by_cases he : e.2.isNaN = true
  · have hne : t.inOrder ≠ [] := by
      refine List.ne_nil_of_length_pos ?_
      rw [hlen]
      exact List.length_pos_of_mem he'
    rw [insert_unordered ht.holds hne]
    intro k
    constructor
    · intro hlt
      rw [show e.2.isNaN = false from (ScoredMemberCompact.isNaN_of_lt hlt).1] at he
      contradiction
    · intro hlt
      rw [show e.2.isNaN = false from (ScoredMemberCompact.isNaN_of_lt hlt).2] at he
      contradiction
  · -- the stored NaN is alone
    have hnan' := hnan.resolve_left he
    have hsingle : t.inOrder = [elementOf hash e'] := by
      obtain ⟨es₁, es₂, rfl⟩ := List.append_of_mem he'
      have hapart := (ht.perm_entries List.perm_middle).apart
      have hnil : es₁ ++ es₂ = [] := by
        refine List.eq_nil_iff_forall_not_mem.mpr fun e'' he'' => ?_
        rw [((List.pairwise_cons.mp hapart).1 e'' he'').left] at hnan'
        contradiction
      obtain ⟨rfl, rfl⟩ := List.append_eq_nil_iff.mp hnil
      exact List.perm_singleton.mp ht.perm
    have hspec := insert_spec ht.holds (ScoredMemberCompact.cuts_of_short
      (by rw [hsingle]; exact Nat.le_refl 1) (elementOf hash e))
    generalize t.insert (elementOf hash e) = res at hspec
    cases hspec with
    | skipped list equiv => rfl
    | @added L₁ L₂ t' list below above holds =>
        have hmem : elementOf hash e' ∈ L₁ ++ L₂ := by
          rw [← list, hsingle]
          simp
        have hfalse : e'.2.isNaN = false := by
          cases List.mem_append.mp hmem with
          | inl hmem => exact (ScoredMemberCompact.isNaN_of_lt (below _ hmem)).1
          | inr hmem => exact (ScoredMemberCompact.isNaN_of_lt (above _ hmem)).2
        rw [hfalse] at hnan'
        contradiction

/-- What holds of every entry a key can lead to holds of a range of ranks. -/
theorem rankLoop_forall {z : ZSetBPlus M} {P : M × Binary64 → Prop} {reverse withScores : Bool}
    {n : Nat} {i : UInt64} {result range : List (M × Binary64)}
    (hentry : ∀ elem, ∀ p ∈ z.rangeEntry withScores elem, P p) (hresult : ∀ p ∈ result, P p)
    (hrange : z.rankLoop reverse withScores n i result = some range) : ∀ p ∈ range, P p := by
  induction n generalizing i result with
  | zero =>
      obtain rfl : result = range := Option.some.inj hrange
      exact hresult
  | succ n ih =>
      unfold rankLoop at hrange
      dsimp only at hrange
      cases hpath : z.orderedSet.fromRank
          (if reverse then (z.size - 1 - i).toUInt32 else i.toUInt32) with
      | none =>
          rw [hpath] at hrange
          contradiction
      | some path =>
          rw [hpath] at hrange
          cases path with
          | nil => exact ih hresult hrange
          | cons rec rest =>
              dsimp only at hrange
              cases hkey : terminal? (rec :: rest) with
              | none =>
                  rw [hkey] at hrange
                  contradiction
              | some elem =>
                  rw [hkey] at hrange
                  refine ih (fun p hp => ?_) hrange
                  cases List.mem_append.mp hp with
                  | inl hp => exact hresult p hp
                  | inr hp => exact hentry elem p hp

variable [DecidableEq M] {z : ZSetBPlus M} {m : M} {s : Binary64}

/-- The size is the number of members with a score, and each of them is listed once, with its
score, among all ranks. -/
structure Accounted (z : ZSetBPlus M) : Prop where
  size : z.size.toNat = (present z.getScore).ncard
  listed : ∃ range, z.getRangeByRank 0 (z.size - 1) false true = some range ∧
    ∀ m s, z.getScore m = some s → range.count (m, s) = 1

/-- An added member's score is apart from those of all other members, and there is room for it in
a 32-bit count. -/
def Clean (hash : M → UInt64) (z : ZSetBPlus M) : ZSetOp M → Prop
  | .add m s => Admits hash z m s ∧ (z.memberToScore.erase m).entries.length + 1 < 2 ^ 32
  | _ => True

/-! ## clean runs are exact -/

/-- Taking a member out shortens the map by one, or not at all. -/
theorem length_erase (z : ZSetBPlus M) (m : M) :
    z.memberToScore.entries.length ≤ (z.memberToScore.erase m).entries.length + 1 ∧
    (z.memberToScore.erase m).entries.length ≤ z.memberToScore.entries.length := by
  cases hscore : z.memberToScore.lookup m with
  | none =>
      have hsame : (z.memberToScore.erase m).entries = z.memberToScore.entries :=
        List.kerase_of_notMem_keys (AList.lookup_eq_none.mp hscore)
      rw [hsame]
      omega
  | some s =>
      have hlen := (Dict.perm_cons_erase hscore).length_eq
      rw [List.length_cons] at hlen
      omega

/-- Setting its score puts it back. -/
theorem length_insert (z : ZSetBPlus M) (m : M) (s : Binary64) :
    (z.memberToScore.insert m s).entries.length =
      (z.memberToScore.erase m).entries.length + 1 := by
  rw [Dict.entries_insert, List.length_cons]

/-- In step, and small enough to be counted. -/
def Tidy (hash : M → UInt64) (z : ZSetBPlus M) : Prop :=
  InStep hash z ∧ z.memberToScore.entries.length < 2 ^ 32

/-- A clean call keeps the sorted set tidy. -/
theorem tidy_step (z : ZSetBPlus M) (op : ZSetOp M) (h : Tidy hash z) (hop : Clean hash z op) :
    Tidy hash (step hash z op).2 := by
  obtain ⟨hz, hsmall⟩ := h
  cases op with
  | add m s =>
      obtain ⟨hadm, hroom⟩ := hop
      refine ⟨inStep_add hz hadm, ?_⟩
      show (z.add hash m s).2.memberToScore.entries.length < 2 ^ 32
      obtain ⟨old, -, -, hsame⟩ | ⟨-, t, -, hadd⟩ := hz.add_cases m s
      · rw [hsame]
        exact hsmall
      · rw [hadd, length_insert]
        exact hroom
  | remove m =>
      refine ⟨inStep_remove hz m, ?_⟩
      show (z.remove hash m).2.memberToScore.entries.length < 2 ^ 32
      have hlen := (length_erase z m).2
      unfold remove
      cases z.memberToScore.lookup m with
      | none => exact hsmall
      | some score => exact Nat.lt_of_le_of_lt hlen hsmall
  | clear => exact ⟨inStep_clear hz, Nat.two_pow_pos 32⟩

/-- A tidy sorted set accounts for its members. -/
theorem Tidy.accounted (h : Tidy hash z) : Accounted z := by
  obtain ⟨hz, hsmall⟩ := h
  obtain ⟨asc, hasc⟩ := hz.exists_ascends
  have hlen := hasc.length
  have hsize := hz.size hsmall
  refine ⟨by rw [ncard_present, hsize], asc, ?_, fun m s hscore => ?_⟩
  · rw [hasc.getRangeByRank hz (by omega) 0 _ false]
    refine congrArg some (List.take_of_length_le ?_)
    show asc.length ≤ min (z.size - 1).toNat (asc.length - 1) + 1
    by_cases hempty : asc.length = 0
    · omega
    · have hone : (1 : UInt64) ≤ z.size := by
        rw [UInt64.le_iff_toNat_le, hsize, ← hlen]
        exact Nat.one_le_iff_ne_zero.mpr hempty
      rw [UInt64.toNat_sub_of_le _ _ hone, hsize, ← hlen, show (1 : UInt64).toNat = 1 from rfl]
      omega
  · exact List.count_eq_one_of_mem (hasc.nodup hz) (hasc.mem.mpr hscore)

/-! ## the first addition that is not clean -/

/-- A member whose hash was taken over by another is in no range. -/
theorem not_accounted_of_taken {m' : M} {s' : Binary64} (hscore : z.getScore m' = some s')
    (htaken : ∀ h, z.findMemberByHash h ≠ some m') : ¬ Accounted z := by
  rintro ⟨-, range, hrange, hcount⟩
  have hone : 0 < range.count (m', s') := by
    rw [hcount m' s' hscore]
    exact Nat.one_pos
  have hmem : (m', s') ∈ range := List.count_pos_iff.mp hone
  unfold getRangeByRank at hrange
  by_cases hout : z.size ≤ 0
  · rw [if_pos hout] at hrange
    obtain rfl := Option.some.inj hrange
    contradiction
  · rw [if_neg hout] at hrange
    have hall := rankLoop_forall (P := fun p => p.1 ≠ m') (fun elem p hp heq => ?_) (by simp) hrange
    · exact hall _ hmem rfl
    · unfold rangeEntry at hp
      cases hfind : z.findMemberByHash elem.memberHash with
      | none => simp [hfind] at hp
      | some member =>
          rw [hfind] at hp
          obtain rfl := List.mem_singleton.mp hp
          obtain rfl : member = m' := heq
          exact htaken _ hfind

/-- A member that the tree skipped is not counted. -/
theorem not_accounted_of_skipped {t : BPTree ScoredMemberCompact} {d : Dict M Binary64}
    {r : Dict UInt64 M} {es : List (Sigma fun _ : M => Binary64)} (ht : Stores hash t es)
    (hd : d.entries.length = es.length + 1) : ¬ Accounted ⟨t, d, r⟩ := by
  rintro ⟨hsize, -⟩
  rw [ncard_present] at hsize
  have hcount : (ZSetBPlus.mk t d r).size.toNat = es.length % 2 ^ 32 := by
    unfold ZSetBPlus.size BPTree.size
    rw [ht.holds.count, ht.length, UInt32.toNat_toUInt64]
    exact UInt32.toNat_ofNat'
  have hle := Nat.mod_le es.length (2 ^ 32)
  have hnum : d.entries.length = es.length % 2 ^ 32 := hsize.symm.trans hcount
  omega

/-- An addition that is not clean leaves one that does not. -/
theorem not_accounted_add (h : Tidy hash z) (hbad : ¬ Clean hash z (.add m s)) :
    ¬ Accounted (z.add hash m s).2 := by
  obtain ⟨hz, hsmall⟩ := h
  obtain ⟨old, hold, hequal, hsame⟩ | ⟨hdiff, t, ht, hadd⟩ := hz.add_cases m s
  · -- nothing was added, so nothing could go wrong
    have hperm := Dict.perm_cons_erase hold
    refine (hbad ⟨fun e he hne => ?_, ?_⟩).elim
    · have hrest : e ∈ (z.memberToScore.erase m).entries := by
        have hmem := hperm.mem_iff.mp he
        cases List.mem_cons.mp hmem with
        | inl heq => exact (hne (by rw [heq])).elim
        | inr hmem => exact hmem
      have hapart := (List.pairwise_cons.mp (hz.stores.perm_entries hperm).apart).1 e hrest
      exact ⟨hapart.hash, hequal.2.1, hapart.right⟩
    · rw [← List.length_cons (a := ⟨m, old⟩), ← hperm.length_eq]
      exact hsmall
  · rw [hadd]
    by_cases hroom : (z.memberToScore.erase m).entries.length + 1 < 2 ^ 32
    · have hadm : ¬ Admits hash z m s := fun hadm => hbad ⟨hadm, hroom⟩
      unfold Admits at hadm
      push Not at hadm
      obtain ⟨e, he, hne, hnot⟩ := hadm
      have hscore := Dict.mem_entries.mp he
      have hrest : e ∈ (z.memberToScore.erase m).entries := by
        refine Dict.mem_entries.mpr ?_
        rw [Dict.lookup_erase_ite, if_neg hne]
        exact hscore
      by_cases hhash : hash m = hash e.1
      · have hscore' : (z.memberToScore.insert m s).lookup e.1 = some e.2 :=
          (AList.lookup_insert_ne hne).trans hscore
        refine not_accounted_of_taken hscore' fun x hx => ?_
        have hlookup : (z.hashToMember.insert (hash m) m).lookup x = some e.1 := hx
        rw [Dict.lookup_insert_ite] at hlookup
        by_cases heq : x = hash m
        · rw [if_pos heq] at hlookup
          exact hne (Option.some.inj hlookup).symm
        · rw [if_neg heq] at hlookup
          exact heq ((hz.forth x e.1 hlookup).trans hhash.symm)
      · have hnan : s.isNaN = true ∨ e.2.isNaN = true := by
          by_contra hnum
          rw [not_or, Bool.not_eq_true, Bool.not_eq_true] at hnum
          exact hnot ⟨hhash, hnum.1, hnum.2⟩
        rw [ht.insert_isNaN (e := ⟨m, s⟩) hrest hnan]
        exact not_accounted_of_skipped ht (length_insert z m s)
    · rintro ⟨hsize, -⟩
      rw [ncard_present] at hsize
      have hlt := size_lt (⟨(t.insert (elementOf hash ⟨m, s⟩)).2, z.memberToScore.insert m s,
        z.hashToMember.insert (hash m) m⟩ : ZSetBPlus M)
      rw [hsize] at hlt
      exact hroom ((length_insert z m s) ▸ hlt)

/-- A run is exact in every state exactly when every addition is clean. -/
theorem reach_accounted_iff (hash : M → UInt64) (ops : List (ZSetOp M)) :
    (∀ pre, pre <+: ops → Accounted (reach hash pre)) ↔
      Along (step hash) (Clean hash) empty ops := by
  have htidy : Tidy hash (empty : ZSetBPlus M) := ⟨inStep_empty, Nat.two_pow_pos 32⟩
  constructor
  · intro hall
    induction ops using List.reverseRecOn with
    | nil => trivial
    | append_singleton ops op ih =>
        have hpre := ih fun pre hpre => hall pre (hpre.trans (List.prefix_append ops [op]))
        have hreach : Tidy hash (reach hash ops) := invariant_along tidy_step htidy hpre
        refine along_append.mpr ⟨hpre, ?_, trivial⟩
        cases op with
        | add m s =>
            by_contra hbad
            have hacc := hall _ (List.prefix_refl _)
            unfold reach at hacc
            rw [final_append] at hacc
            exact not_accounted_add hreach hbad hacc
        | remove m => trivial
        | clear => trivial
  · rintro hclean pre ⟨rest, rfl⟩
    exact Tidy.accounted (invariant_along tidy_step htidy (along_append.mp hclean).1)

/-- A NaN is taken for equal to the 1 that is there already, although the hashes differ. -/
theorem reach_loses_nan :
    ¬ Accounted (reach numeralHash
      [.add [97] ⟨0x3FF0000000000000⟩, .add [98] ⟨0x7FF8000000000000⟩]) := by
  rintro ⟨hsize, -⟩
  rw [ncard_present] at hsize
  revert hsize
  show ¬ (1 = 2)
  decide

end ZSetBPlus

end AstraKV
