import AstraKV.Data.ListIndex
import AstraKV.Engine.Reply
import AstraKV.ZSet.ByRank
import AstraKV.ZSet.Exact

/-!
# AstraKV.Engine.IndexRange

The signed indices of `zrange`, against those of `LinkedList::Range`.

A list counts a negative index from the end.  `zrange` casts its indices to
`uint64_t`, where a negative one is beyond every size: as a start it leaves
nothing, and as a stop it is the last position.

The span of a list is the reference (`span`): both ends counted from the right
when negative, clamped, and empty if they cross. The cast agrees with it for
indices from zero on, and for a start of zero with a stop of -1, the call
everybody makes; `rangesBySpan_iff` says exactly where else.
-/

namespace AstraKV

open Span Machine

namespace Engine

variable {E : Env} {e : Engine E} {k : Bytes} {start stop : Int} {reverse : Bool}

/-- The number of members under the key. -/
def members (e : Engine E) (key : Bytes) : Nat :=
  (e.getOrCreateZset key).1.elim 0 fun z => z.memberToScore.entries.length

/-- `zrange` returns the part between the two positions of the members under the key, in ascending
or descending order. -/
def RangesBySpan (e : Engine E) (key : Bytes) (start stop : Int) (reverse : Bool) : Prop :=
  match (e.getOrCreateZset key).1 with
  | none => (e.zrange key start stop reverse).1 = some []
  | some z => ∀ asc, ZSetBPlus.Ascends E.memberHash z asc →
      (e.zrange key start stop reverse).1 =
        some (span start stop (ZSetBPlus.directed reverse asc))

/-- An index from zero on is cast to itself. -/
theorem toNat_ofInt_of_nonneg {i : Int} (h : 0 ≤ i) (hmax : i < 2 ^ 63) :
    (UInt64.ofInt i).toNat = i.toNat := by
  rw [UInt64.ofInt, UInt64.toNat_ofNat']
  omega

/-- A negative one is cast beyond every size. -/
theorem toNat_ofInt_of_neg {i : Int} (h : i < 0) (hmin : -2 ^ 63 ≤ i) :
    2 ^ 63 ≤ (UInt64.ofInt i).toNat := by
  rw [UInt64.ofInt, UInt64.toNat_ofNat']
  omega

/-- The signs of the two indices do no harm: none is negative but a stop of -1, unless nothing is
asked for. -/
def SignsFit (n : Nat) (start stop : Int) : Prop :=
  0 ≤ start ∧ (-1 ≤ stop ∨ n ≤ start) ∨ start < 0 ∧ last n stop < first n start

section Cast

variable {α : Type*} {l : List α}

/-- The part of a list between the casts of the indices. -/
def castSpan (start stop : Int) (l : List α) : List α :=
  (l.drop (UInt64.ofInt start).toNat).take
    (min (UInt64.ofInt stop).toNat (l.length - 1) + 1 - (UInt64.ofInt start).toNat)

/-- A negative start is past every list. -/
theorem castSpan_of_start_neg (hl : l.length < 2 ^ 32) (hneg : start < 0)
    (hmin : -2 ^ 63 ≤ start) : castSpan start stop l = [] := by
  have hcast := toNat_ofInt_of_neg hneg hmin
  rw [castSpan, List.drop_eq_nil_of_le (by omega), List.take_nil]

/-- A start beyond the end leaves nothing. -/
theorem castSpan_of_start_past (hpast : l.length ≤ start) (hmax : start < 2 ^ 63) :
    castSpan start stop l = [] := by
  have hcast := toNat_ofInt_of_nonneg (show 0 ≤ start by omega) hmax
  rw [castSpan, hcast, List.drop_eq_nil_of_le (by omega), List.take_nil]

/-- A negative stop is the last position. -/
theorem castSpan_of_stop_neg (hl : l.length < 2 ^ 32) (hstart : 0 ≤ start) (hmax : start < 2 ^ 63)
    (hneg : stop < 0) (hmin : -2 ^ 63 ≤ stop) (hin : start < l.length) :
    castSpan start stop l = span start (-1) l := by
  have hcast := toNat_ofInt_of_neg hneg hmin
  rw [castSpan, span, toNat_ofInt_of_nonneg hstart hmax, first_of_nonneg l.length hstart]
  congr 1
  unfold last position
  omega

/-- Indices from zero on give the span. -/
theorem castSpan_of_nonneg (hstart : 0 ≤ start) (hmax : start < 2 ^ 63) (hstop : 0 ≤ stop)
    (hmax' : stop < 2 ^ 63) (hin : start < l.length) :
    castSpan start stop l = span start stop l := by
  rw [castSpan, span, toNat_ofInt_of_nonneg hstart hmax, toNat_ofInt_of_nonneg hstop hmax',
    first_of_nonneg l.length hstart]
  congr 1
  unfold last position
  omega

/-- The casts give the part that is asked for if and only if the signs do no harm. -/
theorem castSpan_eq_span_iff (hl : l.length < 2 ^ 32)
    (hstart : -2 ^ 63 ≤ start ∧ start < 2 ^ 63) (hstop : -2 ^ 63 ≤ stop ∧ stop < 2 ^ 63) :
    castSpan start stop l = span start stop l ↔ SignsFit l.length start stop := by
  unfold SignsFit
  by_cases hneg : start < 0
  · rw [castSpan_of_start_neg hl hneg hstart.1, eq_comm, span_eq_nil_iff]
    omega
  · have hnonneg : 0 ≤ start := not_lt.mp hneg
    by_cases hpast : l.length ≤ start
    · rw [castSpan_of_start_past hpast hstart.2, eq_comm, span_eq_nil_iff]
      unfold first last position
      omega
    · by_cases hback : stop < 0
      · rw [castSpan_of_stop_neg hl hnonneg hstart.2 hback hstop.1 (by omega)]
        constructor
        · intro h
          have hlength := congrArg List.length h
          rw [length_span, length_span, first_of_nonneg l.length hnonneg] at hlength
          unfold last position at hlength
          omega
        · intro h
          rw [show stop = -1 by omega]
      · rw [castSpan_of_nonneg hnonneg hstart.2 (not_lt.mp hback) hstop.2 (by omega)]
        simp only [true_iff]
        omega

end Cast

/-- `zrange` is right about the members under the key, if the sorted set is in step, if and only if
the signs of the indices do no harm. -/
theorem rangesBySpan_iff
    (hzset : ∀ z, (e.getOrCreateZset k).1 = some z → ZSetBPlus.Tidy E.memberHash z)
    (hstart : -2 ^ 63 ≤ start ∧ start < 2 ^ 63) (hstop : -2 ^ 63 ≤ stop ∧ stop < 2 ^ 63) :
    e.RangesBySpan k start stop reverse ↔ SignsFit (e.members k) start stop := by
  unfold RangesBySpan members zrange answer
  cases hfound : (e.getOrCreateZset k).1 with
  | none =>
      simp only [Option.elim_none, true_iff]
      unfold SignsFit last first position
      omega
  | some z =>
      obtain ⟨hz, hsmall⟩ := hzset z hfound
      have hslice : ∀ asc, ZSetBPlus.Ascends E.memberHash z asc →
          (z.getRangeByRank (UInt64.ofInt start) (UInt64.ofInt stop) reverse true =
              some (span start stop (ZSetBPlus.directed reverse asc)) ↔
            SignsFit z.memberToScore.entries.length start stop) := by
        intro asc hasc
        have hdirected : (ZSetBPlus.directed reverse asc).length = asc.length :=
          ZSetBPlus.length_directed reverse
        have hlen := hasc.length
        rw [hasc.getRangeByRank hz (by omega), Option.some_inj, ← hlen, ← hdirected]
        exact castSpan_eq_span_iff (by omega) hstart hstop
      dsimp only [Option.elim_some]
      constructor
      · intro h
        obtain ⟨asc, hasc⟩ := hz.exists_ascends
        exact (hslice asc hasc).mp (h asc hasc)
      · intro h asc hasc
        exact (hslice asc hasc).mpr h

/-- The sorted set with the scores 100 and 200. -/
def twoScores : Engine Env.bare :=
  final step (new Env.bare ⟨[], 0, .k2Q⟩ none)
    [(.ofNow 5, .zadd [107] [97] ⟨0x4059000000000000⟩),
      (.ofNow 5, .zadd [107] [98] ⟨0x4069000000000000⟩)]

/-- The sorted set of the example is found. -/
theorem getOrCreateZset_twoScores :
    (twoScores.getOrCreateZset [107]).1 = some (ZSetBPlus.twoScores Env.bare.memberHash) := rfl

theorem rangesBySpan_iff_all : twoScores.RangesBySpan [107] 0 (-1) false := by
  refine (rangesBySpan_iff (fun z hz => ?_) (by decide) (by decide)).mpr
    (.inl ⟨le_rfl, .inl le_rfl⟩)
  obtain rfl := Option.some.inj (getOrCreateZset_twoScores.symm.trans hz)
  exact ⟨ZSetBPlus.inStep_twoScores (by decide), by decide +kernel⟩

/-- All but the last are asked for and all are returned, and the last alone is not returned. -/
theorem zrange_negative :
    (twoScores.zrange [107] 0 (-2) false).1 =
        some [([97], ⟨0x4059000000000000⟩), ([98], ⟨0x4069000000000000⟩)] ∧
      (twoScores.zrange [107] (-1) (-1) false).1 = some [] ∧
      ¬ twoScores.RangesBySpan [107] 0 (-2) false ∧
      ¬ twoScores.RangesBySpan [107] (-1) (-1) false := by
  have hasc : ZSetBPlus.Ascends Env.bare.memberHash (ZSetBPlus.twoScores Env.bare.memberHash)
      [([97], ⟨0x4059000000000000⟩), ([98], ⟨0x4069000000000000⟩)] :=
    ⟨by decide +kernel, by decide +kernel⟩
  have hall : (twoScores.zrange [107] 0 (-2) false).1 =
      some [([97], ⟨0x4059000000000000⟩), ([98], ⟨0x4069000000000000⟩)] := by decide +kernel
  have hnone : (twoScores.zrange [107] (-1) (-1) false).1 = some [] := by decide +kernel
  refine ⟨hall, hnone, fun h => ?_, fun h => ?_⟩
  · unfold RangesBySpan at h
    rw [getOrCreateZset_twoScores] at h
    exact absurd (hall.symm.trans (h _ hasc)) (by decide)
  · unfold RangesBySpan at h
    rw [getOrCreateZset_twoScores] at h
    exact absurd (hnone.symm.trans (h _ hasc)) (by decide)

end Engine

end AstraKV
