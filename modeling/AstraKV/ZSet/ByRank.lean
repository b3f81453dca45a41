import AstraKV.ZSet.Run

/-!
# AstraKV.ZSet.ByRank

Members and scores by rank, against the ranks of members.

`GetRank` counts from the end when `reverse` says so.  `GetByRank` and
`GetScoreByRank` take the same flag and do not look at it.

So of the four combinations of the two directions two fit together: from the
front, a rank leads to the member it is the rank of, and backwards it leads to
the member as far from the other end, which is the same only in the middle. A
rank past the end leads nowhere in either direction. The condition of the
result says this of one member at a time, in sorted sets that are in step.
-/

universe u

namespace AstraKV

open Cut BPTree BPTreePath

namespace ZSetBPlus

variable {M : Type u}

/-- The member at a rank; the flag is not used. -/
def getByRank (z : ZSetBPlus M) (rank : UInt64) (_reverse : Bool) : Option (Option M) :=
  if z.size ≤ rank then some none
  else
    match z.orderedSet.fromRank rank.toUInt32 with
    | none => none
    | some [] => some none
    | some path => (terminal? path).map fun elem => z.findMemberByHash elem.memberHash

/-- The score at a rank; the flag is not used. -/
def getScoreByRank (z : ZSetBPlus M) (rank : UInt64) (_reverse : Bool) :
    Option (Option Binary64) :=
  if z.size ≤ rank then some none
  else
    match z.orderedSet.fromRank rank.toUInt32 with
    | none => none
    | some [] => some none
    | some path => (terminal? path).map fun elem => some elem.score

variable {hash : M → UInt64} {z : ZSetBPlus M} {asc : List (M × Binary64)}

/-- Ranks count from the smallest, whatever the flag says. -/
theorem Ascends.getByRank (h : Ascends hash z asc) (hz : InStep hash z)
    (hsmall : asc.length < 2 ^ 32) {rank : UInt64} {p : M × Binary64}
    (hp : asc[rank.toNat]? = some p) (reverse : Bool) :
    z.getByRank rank reverse = some (some p.1) ∧
      z.getScoreByRank rank reverse = some (some p.2) := by
  obtain ⟨hrank, -⟩ := List.getElem?_eq_some_iff.mp hp
  obtain ⟨p', path, hget, hmem, hne, hpath, hkey⟩ := h.lookupRank hz hsmall hrank false
  obtain rfl : p = p' := Option.some.inj (hp.symm.trans hget)
  have hsize := hz.size (by rw [← h.length]; exact hsmall)
  have hin : ¬ z.size ≤ rank := by
    rw [UInt64.le_iff_toNat_le, hsize, ← h.length]
    omega
  have hstored : p.1 ∈ z.memberToScore := by
    obtain ⟨e, he, rfl⟩ := List.mem_map.mp (h.perm.mem_iff.mp hmem)
    exact List.mem_map.mpr ⟨e, he, rfl⟩
  have hback : z.findMemberByHash (keyOf hash p).memberHash = some p.1 := hz.back p.1 hstored
  rw [if_neg Bool.false_ne_true] at hpath
  unfold ZSetBPlus.getByRank ZSetBPlus.getScoreByRank
  rw [if_neg hin, if_neg hin, hpath]
  cases path with
  | nil => contradiction
  | cons rec rest =>
      dsimp only
      rw [hkey, Option.map_some, Option.map_some, hback]
      exact ⟨rfl, rfl⟩

variable [DecidableEq M]

/-- The rank of a member leads back to it and to its score, and a rank that is too big leads
nowhere. -/
structure RankInverts (hash : M → UInt64) (z : ZSetBPlus M) (m : M) (reverse : Bool) : Prop where
  rank : ∃ r, z.getRank hash m reverse = some r ∧ z.getByRank r reverse = some (some m) ∧
    z.getScoreByRank r reverse = some (z.getScore m)
  outside : ∀ r, z.size ≤ r →
    z.getByRank r reverse = some none ∧ z.getScoreByRank r reverse = some none

variable {m : M} {s : Binary64} {reverse : Bool}

/-- The place of a member in the ascending list is the number of members below it. -/
theorem Ascends.split (h : Ascends hash z asc) (hz : InStep hash z)
    (hscore : z.getScore m = some s) :
    ∃ A B, asc = A ++ (m, s) :: B ∧
      (z.getAll.countP fun p => keyOf hash p < keyOf hash (m, s)) = A.length ∧
      (z.getAll.countP fun p => keyOf hash (m, s) < keyOf hash p) = B.length := by
  obtain ⟨A, B, rfl⟩ := List.append_of_mem (h.mem.mpr hscore)
  have hsorted := hz.stores.sorted
  rw [h.keys, List.map_append, List.map_cons] at hsorted
  have hcount (p : ScoredMemberCompact → Bool) :
      (z.getAll.countP fun q => p (keyOf hash q)) =
        (A.map (keyOf hash) ++ keyOf hash (m, s) :: B.map (keyOf hash)).countP p := by
    rw [← h.perm.countP_eq, ← List.map_cons, ← List.map_append, List.countP_map]
    rfl
  refine ⟨A, B, rfl, ?_, ?_⟩
  · exact (hcount _).trans ((countP_below hsorted).trans (List.length_map _))
  · exact (hcount _).trans ((countP_above hsorted).trans (List.length_map _))

/-- No member stands at two places. -/
theorem Ascends.place_unique (h : Ascends hash z asc) (hz : InStep hash z) {i j : Nat}
    {p q : M × Binary64} (hi : asc[i]? = some p) (hj : asc[j]? = some q) (heq : p.1 = q.1) :
    i = j := by
  have hp : z.getScore p.1 = some p.2 := h.mem.mp (List.mem_of_getElem? hi)
  have hq : z.getScore q.1 = some q.2 := h.mem.mp (List.mem_of_getElem? hj)
  rw [heq, hq, Option.some_inj] at hp
  obtain rfl : p = q := Prod.ext heq hp.symm
  obtain ⟨hlt, -⟩ := List.getElem?_eq_some_iff.mp hi
  exact (List.getElem?_inj hlt (h.nodup hz)).mp (hi.trans hj.symm)

/-- Rank and member lead to each other if and only if the rank is not counted from the end, or the
member is in the middle. -/
theorem rankInverts_iff (hz : InStep hash z) (hsmall : z.memberToScore.entries.length < 2 ^ 32)
    (hscore : z.getScore m = some s) :
    RankInverts hash z m reverse ↔
      reverse = false ∨
        (z.getAll.countP fun p => keyOf hash p < keyOf hash (m, s)) =
          z.getAll.countP fun p => keyOf hash (m, s) < keyOf hash p := by
  obtain ⟨asc, hasc⟩ := hz.exists_ascends
  obtain ⟨A, B, hlist, hbelow, habove⟩ := hasc.split hz hscore
  have hself : asc[A.length]? = some (m, s) := by simp [hlist]
  have hlen : asc.length = A.length + (B.length + 1) := by
    rw [hlist, List.length_append, List.length_cons]
  rw [← hasc.length] at hsmall
  obtain ⟨r, hr, hnat⟩ := hasc.getRank hz hsmall hscore reverse
  rw [hasc.perm.countP_eq, hasc.perm.countP_eq, habove, hbelow] at hnat
  rw [hbelow, habove]
  constructor
  · intro h
    obtain ⟨r', hr', hget, -⟩ := h.rank
    obtain rfl : r = r' := Option.some.inj (hr.symm.trans hr')
    obtain ⟨p, hp⟩ : ∃ p, asc[r.toNat]? = some p := by
      refine ⟨_, List.getElem?_eq_getElem ?_⟩
      rw [hnat]
      split <;> omega
    obtain ⟨hmember, -⟩ := hasc.getByRank hz hsmall hp reverse
    rw [hget, Option.some_inj, Option.some_inj] at hmember
    have hplace := hasc.place_unique hz hself hp hmember
    cases reverse with
    | false => exact .inl rfl
    | true => exact .inr (hplace.trans hnat)
  · intro h
    have hplace : r.toNat = A.length := by
      cases reverse with
      | false => exact hnat
      | true => exact hnat.trans (h.resolve_left (by simp)).symm
    rw [← hplace] at hself
    obtain ⟨hmember, hvalue⟩ := hasc.getByRank hz hsmall hself reverse
    refine ⟨⟨r, hr, hmember, hvalue.trans (congrArg some hscore.symm)⟩, fun r hout => ?_⟩
    unfold ZSetBPlus.getByRank ZSetBPlus.getScoreByRank
    rw [if_pos hout, if_pos hout]
    exact ⟨rfl, rfl⟩

/-- Two members with the scores 100 and 200. -/
def twoScores (hash : List UInt8 → UInt64) : ZSetBPlus (List UInt8) :=
  reach hash [.add [97] ⟨0x4059000000000000⟩, .add [98] ⟨0x4069000000000000⟩]

/-- The sorted set of the example is in step. -/
theorem inStep_twoScores {hash : List UInt8 → UInt64} (hne : hash [98] ≠ hash [97]) :
    InStep hash (twoScores hash) := by
  refine inStep_add (inStep_add inStep_empty fun entry hentry => ?_) fun entry hentry _ => ?_
  · simp [empty] at hentry
  · obtain rfl : entry = ⟨[97], ⟨0x4059000000000000⟩⟩ := List.mem_singleton.mp hentry
    exact ⟨hne, by decide, by decide⟩

theorem rankInverts_iff_two : RankInverts numeralHash (twoScores numeralHash) [97] false :=
  (rankInverts_iff (inStep_twoScores (by decide)) (by decide +kernel)
    (show (twoScores numeralHash).getScore [97] = some ⟨0x4059000000000000⟩ by decide +kernel)).mpr
    (.inl rfl)

/-- The smaller of two has the rank 1 from the end, and the member at rank 1 is the other. -/
theorem getByRank_reverse :
    (twoScores numeralHash).getRank numeralHash [97] true = some 1 ∧
      (twoScores numeralHash).getByRank 1 true = some (some [98]) ∧
      ¬ RankInverts numeralHash (twoScores numeralHash) [97] true := by
  have hrank : (twoScores numeralHash).getRank numeralHash [97] true = some 1 := by decide +kernel
  have hget : (twoScores numeralHash).getByRank 1 true = some (some [98]) := by decide +kernel
  refine ⟨hrank, hget, fun h => ?_⟩
  obtain ⟨r, hr, hself, -⟩ := h.rank
  obtain rfl : 1 = r := Option.some.inj (hrank.symm.trans hr)
  exact absurd (hget.symm.trans hself) (by decide)

end ZSetBPlus

end AstraKV
