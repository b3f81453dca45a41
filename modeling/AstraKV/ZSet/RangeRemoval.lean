import AstraKV.Lib.Mutex
import AstraKV.ZSet.ByRank

/-!
# AstraKV.ZSet.RangeRemoval

`RemoveRangeByScore` and its lock.

It takes the lock, collects the members in the range, and calls `Remove` for
each of them, which takes the lock again.

The lock is an `absl::Mutex`, which does not let the thread that holds it in a
second time. So a removal with at least one member in the range never returns,
and one with none does what it should. Methods are written over
`AstraKV.Lib.Mutex`, where a call made with the lock held has no result.
-/

universe u

namespace AstraKV

namespace ZSetBPlus

variable {M : Type u} [DecidableEq M] {hash : M → UInt64} {z : ZSetBPlus M} {min max : Binary64}

/-- `Remove`, with its lock. -/
def removeLocked (hash : M → UInt64) (member : M) : Method (ZSetBPlus M) Bool :=
  Method.locked fun _ z => some (z.remove hash member)

/-- The members that `RemoveRangeByScore` collects. -/
def toRemove (z : ZSetBPlus M) (min max : Binary64) : List M :=
  (z.getAll.filter fun entry => min ≤ entry.2 ∧ entry.2 ≤ max).map Prod.fst

/-- `RemoveRangeByScore`, with its lock. -/
def removeRangeByScore (hash : M → UInt64) (min max : Binary64) : Method (ZSetBPlus M) UInt64 :=
  Method.locked fun held z =>
    Method.forEach (removeLocked hash) (fun removed found => if found then removed + 1 else removed)
      (z.toRemove min max) 0 held z

/-- The call returns the number of members in the range, and leaves the others as they were. -/
def RemovesRange (hash : M → UInt64) (z : ZSetBPlus M) (min max : Binary64) : Prop :=
  ∃ removed z', removeRangeByScore hash min max false z = some (removed, z') ∧
    removed.toNat = (z.toRemove min max).length ∧
    (∀ m s, z'.getScore m = some s ↔ z.getScore m = some s ∧ within min max s = false) ∧
    InStep hash z'

/-- Nothing is to be removed if no score is in the range. -/
theorem toRemove_eq_nil_iff :
    z.toRemove min max = [] ↔ ∀ m s, z.getScore m = some s → within min max s = false := by
  rw [toRemove, List.map_eq_nil_iff, List.filter_eq_nil_iff]
  constructor
  · intro h m s hs
    have hentry : (m, s) ∈ z.getAll :=
      List.mem_map.mpr ⟨⟨m, s⟩, Dict.mem_entries.mpr hs, rfl⟩
    simpa [within] using h (m, s) hentry
  · intro h entry hentry
    obtain ⟨e, he, rfl⟩ := List.mem_map.mp hentry
    simpa [within] using h e.1 e.2 (Dict.mem_entries.mp he)

/-- The call returns if and only if there is nothing to remove. -/
theorem removeRangeByScore_isSome_iff :
    (removeRangeByScore hash min max false z).isSome ↔ z.toRemove min max = [] :=
  Method.forEach_locked_held fun _ _ => rfl

/-- The call does its work if and only if there is none to do. -/
theorem removesRange_iff (hz : InStep hash z) :
    RemovesRange hash z min max ↔ ∀ m s, z.getScore m = some s → within min max s = false := by
  rw [← toRemove_eq_nil_iff]
  constructor
  · rintro ⟨removed, z', hcall, -⟩
    have hsome : (removeRangeByScore hash min max false z).isSome := by
      rw [hcall]
      rfl
    exact removeRangeByScore_isSome_iff.mp hsome
  · intro hnil
    have hcall : removeRangeByScore hash min max false z = some (0, z) := by
      rw [removeRangeByScore, Method.locked_free, hnil]
      rfl
    refine ⟨0, z, hcall, by simp [hnil], fun m s => ?_, hz⟩
    exact ⟨fun hs => ⟨hs, toRemove_eq_nil_iff.mp hnil m s hs⟩, And.left⟩

/-- No score between 0 and 1. -/
theorem removesRange_iff_none :
    RemovesRange numeralHash (twoScores numeralHash) ⟨0⟩ ⟨0x3FF0000000000000⟩ := by
  have hnil : (twoScores numeralHash).toRemove ⟨0⟩ ⟨0x3FF0000000000000⟩ = [] := by decide +kernel
  exact (removesRange_iff (inStep_twoScores (by decide))).mpr (toRemove_eq_nil_iff.mp hnil)

/-- To remove the member with the score 100 takes for ever. -/
theorem removeRangeByScore_hangs :
    (twoScores numeralHash).toRemove ⟨0x4059000000000000⟩ ⟨0x4059000000000000⟩ = [[97]] ∧
      removeRangeByScore numeralHash ⟨0x4059000000000000⟩ ⟨0x4059000000000000⟩ false
        (twoScores numeralHash) = none ∧
      ¬ RemovesRange numeralHash (twoScores numeralHash) ⟨0x4059000000000000⟩
        ⟨0x4059000000000000⟩ := by
  have hcollect : (twoScores numeralHash).toRemove ⟨0x4059000000000000⟩ ⟨0x4059000000000000⟩ =
      [[97]] := by decide +kernel
  have hcall : removeRangeByScore numeralHash ⟨0x4059000000000000⟩ ⟨0x4059000000000000⟩ false
      (twoScores numeralHash) = none := by
    rw [removeRangeByScore, Method.locked_free, hcollect]
    rfl
  refine ⟨hcollect, hcall, ?_⟩
  rintro ⟨removed, z', hsome, -⟩
  exact absurd (hcall.symm.trans hsome) (by simp)

end ZSetBPlus

end AstraKV
