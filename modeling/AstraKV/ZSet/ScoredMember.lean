import AstraKV.Lib.Binary64
import AstraKV.Lib.Cut

/-!
# AstraKV.ZSet.ScoredMember

The keys of the sorted set's tree (`ScoredMemberCompact` of
`zset/bplustree_zset.hpp`): a score and the hash of a member, ordered by
score first.

On keys with a number for a score this is a strict weak order, in which
only the two zeros of one hash are equivalent without being equal.  A key
with a NaN for a score is equivalent to every key.

The comparison is the source's: unequal scores decide, equal ones leave it to
the hash. Doubles are their bits (`Binary64`), with the IEEE comparisons on
top, so a negative and a positive zero are equal scores and a NaN is neither
below nor above nor equal to anything. The lemmas say which of the usual laws
of an order survive that, with no assumption where none is needed.
-/

namespace AstraKV

open Cut

structure ScoredMemberCompact where
  score : Binary64
  memberHash : UInt64
deriving DecidableEq, Inhabited

namespace ScoredMemberCompact

/-- `operator<`. -/
instance : LT ScoredMemberCompact :=
  ⟨fun a b => if ¬ a.score.Equal b.score then a.score < b.score else a.memberHash < b.memberHash⟩

/-- The comparison, spelled out. -/
theorem lt_def {a b : ScoredMemberCompact} :
    a < b ↔ if ¬ a.score.Equal b.score then a.score < b.score else a.memberHash < b.memberHash :=
  Iff.rfl

instance : DecidableLT ScoredMemberCompact := fun _ _ => decidable_of_iff' _ lt_def

variable {a b c q : ScoredMemberCompact} {L : List ScoredMemberCompact}

/-- Between keys with numbers: by score, then by hash. -/
theorem lt_iff (ha : a.score.isNaN = false) (hb : b.score.isNaN = false) :
    a < b ↔ a.score.order < b.score.order ∨
      a.score.order = b.score.order ∧ a.memberHash < b.memberHash := by
  have heq := Binary64.equal_iff ha hb
  rw [lt_def]
  by_cases h : a.score.Equal b.score
  · rw [if_neg (not_not_intro h)]
    simp [heq.mp h]
  · have hne : a.score.order ≠ b.score.order := fun h' => h (heq.mpr h')
    rw [if_pos h, Binary64.lt_iff ha hb]
    simp [hne]

/-- Only keys with numbers are below or above anything. -/
theorem isNaN_of_lt (h : a < b) : a.score.isNaN = false ∧ b.score.isNaN = false := by
  rw [lt_def] at h
  by_cases heq : a.score.Equal b.score
  · exact ⟨heq.1, heq.2.1⟩
  · rw [if_pos heq] at h
    exact ⟨h.1, h.2.1⟩

/-- No key is below one that is below it. -/
theorem lt_asymm (h : a < b) : ¬ b < a := by
  obtain ⟨ha, hb⟩ := isNaN_of_lt h
  rw [lt_iff ha hb] at h
  rw [lt_iff hb ha]
  rcases h with hlt | ⟨heq, hlt⟩
  · omega
  · rw [UInt64.lt_iff_toNat_lt] at hlt ⊢
    omega

/-- No key is below itself. -/
theorem lt_irrefl (a : ScoredMemberCompact) : ¬ a < a := fun h => lt_asymm h h

/-- What lies between two keys in order is above the first or below the second. -/
theorem lt_or_lt (hq : q.score.isNaN = false) (h : a < b) : a < q ∨ q < b := by
  obtain ⟨ha, hb⟩ := isNaN_of_lt h
  rw [lt_iff ha hb] at h
  rw [lt_iff ha hq, lt_iff hq hb]
  rw [UInt64.lt_iff_toNat_lt] at h ⊢
  rw [UInt64.lt_iff_toNat_lt]
  omega

/-- Equivalent keys with numbers have equal scores and the same hash. -/
theorem equiv_iff (ha : a.score.isNaN = false) (hb : b.score.isNaN = false) :
    ¬ a < b ∧ ¬ b < a ↔ a.score.order = b.score.order ∧ a.memberHash = b.memberHash := by
  rw [lt_iff ha hb, lt_iff hb ha, ← UInt64.toNat_inj]
  simp only [UInt64.lt_iff_toNat_lt]
  omega

/-- A number finds its place in every sorted list. -/
theorem cuts_of_sorted (h : L.Pairwise (· < ·)) (hq : q.score.isNaN = false) : Cuts q L where
  sep := h.imp fun hlt => lt_or_lt hq hlt
  asymm := fun _ _ hlt => lt_asymm hlt

/-- Anything finds its place in a list of at most one key. -/
theorem cuts_of_short (h : L.length ≤ 1) (q : ScoredMemberCompact) : Cuts q L where
  sep := by
    match L, h with
    | [], _ => exact List.Pairwise.nil
    | [x], _ => exact List.pairwise_singleton _ x
  asymm := fun _ _ hlt => lt_asymm hlt

end ScoredMemberCompact

end AstraKV
