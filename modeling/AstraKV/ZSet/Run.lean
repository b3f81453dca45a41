import AstraKV.Lib.Machine
import AstraKV.ZSet.Range

/-!
# AstraKV.ZSet.Run

Runs of `Add`, `Remove` and `Clear` from the empty sorted set, against the
map from members to scores they stand for.

The map is a function from members to scores, updated in the obvious way, and
the tie to it is `Tracks`. It needs two things of the run: the members added
hash differently, and the scores are numbers. Under these the three structures
stay in step and every answer is that of the map; only the size is cut to 32
bits, as a run with more members than that shows.
-/

universe u

namespace AstraKV

open Cut BPTree BPTreePath Machine

inductive ZSetOp (M : Type u) where
  | add (member : M) (score : Binary64)
  | remove (member : M)
  | clear

namespace ZSetBPlus

variable {M : Type u} [DecidableEq M] {hash : M → UInt64} {z : ZSetBPlus M}
  {f : M → Option Binary64} {m : M} {s : Binary64}

/-- One call: its answer and the sorted set after it.  `Clear` answers nothing. -/
def step (hash : M → UInt64) (z : ZSetBPlus M) : ZSetOp M → Option Bool × ZSetBPlus M
  | .add m s => let res := z.add hash m s; (some res.1, res.2)
  | .remove m => let res := z.remove hash m; (some res.1, res.2)
  | .clear => (none, z.clear)

/-- The same call on a map from members to scores. -/
def mapStep (f : M → Option Binary64) : ZSetOp M → Option Bool × (M → Option Binary64)
  | .add m s => (some (f m).isNone, Function.update f m (some s))
  | .remove m => (some (f m).isSome, Function.update f m none)
  | .clear => (none, fun _ => none)

/-- The sorted set after a run from the empty one. -/
def reach (hash : M → UInt64) (ops : List (ZSetOp M)) : ZSetBPlus M := final (step hash) empty ops

/-- The map after the same run. -/
def scores (ops : List (ZSetOp M)) : M → Option Binary64 := final mapStep (fun _ => none) ops

/-- The members a run adds. -/
def added (ops : List (ZSetOp M)) : Set M := {m | ∃ s, .add m s ∈ ops}

/-- The members with a score. -/
def present (f : M → Option Binary64) : Set M := {m | (f m).isSome}

/-! ## one step -/

omit [DecidableEq M] in
/-- The empty sorted set has no scores. -/
theorem getScore_empty [DecidableEq M] (m : M) : (empty : ZSetBPlus M).getScore m = none :=
  AList.lookup_empty m

theorem getScore_clear (z : ZSetBPlus M) (m : M) : z.clear.getScore m = none :=
  AList.lookup_empty m

/-- A removal takes one score away. -/
theorem getScore_remove (z : ZSetBPlus M) (m m' : M) :
    (z.remove hash m).2.getScore m' = if m' = m then none else z.getScore m' := by
  unfold remove getScore
  cases hlookup : z.memberToScore.lookup m with
  | none =>
      by_cases heq : m' = m
      · rw [if_pos heq, heq]
        exact hlookup
      · rw [if_neg heq]
  | some score => exact Dict.lookup_erase_ite

/-- `Add` says whether the member is new. -/
theorem add_fst (z : ZSetBPlus M) (m : M) (s : Binary64) :
    (z.add hash m s).1 = (z.getScore m).isNone := by
  unfold add getScore
  cases z.memberToScore.lookup m with
  | none => rfl
  | some old => exact (apply_ite Prod.fst _ _ _).trans (ite_self _)

/-- `Remove` says whether it was there. -/
theorem remove_fst (z : ZSetBPlus M) (m : M) :
    (z.remove hash m).1 = (z.getScore m).isSome := by
  unfold remove getScore
  cases z.memberToScore.lookup m with
  | none => rfl
  | some old => rfl

/-- `Add` leaves an equal score as it is, be it the other zero. -/
theorem getScore_add (z : ZSetBPlus M) (m m' : M) (s : Binary64) :
    (z.add hash m s).2.getScore m' =
      if m' = m ∧ ∀ old, z.getScore m = some old → ¬ old.Equal s then some s
      else z.getScore m' := by
  unfold add getScore
  cases hlookup : z.memberToScore.lookup m with
  | none =>
      by_cases hm : m' = m
      · rw [if_pos ⟨hm, by simp⟩, hm]
        exact AList.lookup_insert _
      · rw [if_neg fun h => hm h.1]
        exact AList.lookup_insert_ne hm
  | some old =>
      dsimp only
      by_cases heq : old.Equal s
      · rw [if_neg (not_not_intro heq), if_neg fun h => h.2 old rfl heq]
      · have hall : ∀ old', some old = some old' → ¬ old'.Equal s :=
          fun old' hold => Option.some.inj hold ▸ heq
        rw [if_pos heq]
        by_cases hm : m' = m
        · rw [if_pos ⟨hm, hall⟩, hm]
          exact AList.lookup_insert _
        · rw [if_neg fun h => hm h.1]
          exact AList.lookup_insert_ne hm

/-- A member is one with a score. -/
theorem mem_iff_getScore : m ∈ z.memberToScore ↔ (z.getScore m).isSome = true :=
  AList.lookup_isSome.symm

/-- As many members have a score as the score map has entries. -/
theorem ncard_present (z : ZSetBPlus M) :
    (present z.getScore).ncard = z.memberToScore.entries.length := by
  have hset : present z.getScore = ↑z.memberToScore.keys.toFinset := by
    ext m
    rw [List.coe_toFinset]
    exact mem_iff_getScore.symm
  rw [hset, Set.ncard_coe_finset, List.toFinset_card_of_nodup z.memberToScore.keys_nodup]
  exact List.length_map _

/-! ## against the map -/

/-- What a run may add: members of `U`, whose hashes differ, with numbers for scores. -/
def Plain (U : Set M) : ZSetOp M → Prop
  | .add m s => m ∈ U ∧ s.isNaN = false
  | _ => True

/-- The sorted set is in step and its scores are those of the map `f`. -/
structure Tracks (hash : M → UInt64) (U : Set M) (z : ZSetBPlus M) (f : M → Option Binary64) :
    Prop where
  inStep : InStep hash z
  score : ∀ m, Option.Rel Binary64.Equal (z.getScore m) (f m)
  used : ∀ m ∈ z.memberToScore, m ∈ U

/-- A member is there if the map has it. -/
theorem Tracks.isSome {U : Set M} (h : Tracks hash U z f) (m : M) :
    (z.getScore m).isSome = (f m).isSome := by
  have hscore := h.score m
  generalize z.getScore m = a at hscore
  generalize f m = b at hscore
  cases hscore with
  | none => rfl
  | some _ => rfl

/-- The scores are numbers, as the map's are. -/
theorem Tracks.isNaN {U : Set M} (h : Tracks hash U z f) (hs : z.getScore m = some s) :
    s.isNaN = false := by
  have hscore := h.score m
  rw [hs] at hscore
  generalize f m = b at hscore
  cases hscore with
  | some heq => exact heq.1

/-- A plain addition is admitted. -/
theorem Tracks.admits {U : Set M} (h : Tracks hash U z f) (hinj : Set.InjOn hash U) (hm : m ∈ U)
    (hs : s.isNaN = false) : Admits hash z m s := by
  intro e he hne
  have hscore := Dict.mem_entries.mp he
  have hmem := h.used e.1 (Dict.mem_of_lookup hscore)
  exact ⟨fun heq => hne (hinj hmem hm heq.symm), hs, h.isNaN hscore⟩

/-- The empty sorted set tracks the empty map. -/
theorem tracks_empty (U : Set M) : Tracks hash U (empty : ZSetBPlus M) (fun _ => none) :=
  ⟨inStep_empty, fun _ => Option.Rel.none, fun m hm => (AList.notMem_empty m hm).elim⟩

/-- `Add` sets a score in the map. -/
theorem tracks_add {U : Set M} (h : Tracks hash U z f) (hinj : Set.InjOn hash U) (hm : m ∈ U)
    (hs : s.isNaN = false) : Tracks hash U (z.add hash m s).2 (Function.update f m (some s)) where
  inStep := inStep_add h.inStep (h.admits hinj hm hs)
  score := fun m' => by
    rw [getScore_add]
    by_cases heq : m' = m
    · subst heq
      rw [Function.update_self]
      by_cases hold : ∀ old, z.getScore m' = some old → ¬ old.Equal s
      · rw [if_pos ⟨rfl, hold⟩]
        exact .some (.refl hs)
      · rw [if_neg fun h => hold h.2]
        push Not at hold
        obtain ⟨old, hscore, hequal⟩ := hold
        rw [hscore]
        exact .some hequal
    · rw [if_neg fun h => heq h.1, Function.update_of_ne heq]
      exact h.score m'
  used := fun m' hm' => by
    rw [mem_iff_getScore, getScore_add] at hm'
    by_cases heq : m' = m
    · rwa [heq]
    · rw [if_neg fun h => heq h.1] at hm'
      exact h.used m' (mem_iff_getScore.mpr hm')

/-- `Remove` takes one away. -/
theorem tracks_remove {U : Set M} (h : Tracks hash U z f) (m : M) :
    Tracks hash U (z.remove hash m).2 (Function.update f m none) where
  inStep := inStep_remove h.inStep m
  score := fun m' => by
    rw [getScore_remove]
    by_cases heq : m' = m
    · rw [if_pos heq, heq, Function.update_self]
      exact .none
    · rw [if_neg heq, Function.update_of_ne heq]
      exact h.score m'
  used := fun m' hm' => by
    rw [mem_iff_getScore, getScore_remove] at hm'
    by_cases heq : m' = m
    · rw [if_pos heq] at hm'
      contradiction
    · rw [if_neg heq] at hm'
      exact h.used m' (mem_iff_getScore.mpr hm')

/-- `Clear` takes all away. -/
theorem tracks_clear {U : Set M} (h : Tracks hash U z f) : Tracks hash U z.clear fun _ => none :=
  ⟨inStep_clear h.inStep, fun m => by rw [getScore_clear]; exact .none,
    fun m hm => (AList.notMem_empty m hm).elim⟩

/-- A plain call simulates its step of the map. -/
theorem step_simulates {U : Set M} (hinj : Set.InjOn hash U) :
    Simulates (Plain U) (Tracks hash U) (step hash) mapStep where
  output := fun z f op hop h => by
    cases op with
    | add m s =>
        refine congrArg some ((add_fst z m s).trans ?_)
        rw [← Option.not_isSome, ← Option.not_isSome, h.isSome]
    | remove m => exact congrArg some ((remove_fst z m).trans (h.isSome m))
    | clear => rfl
  next := fun z f op hop h => by
    cases op with
    | add m s => exact tracks_add h hinj hop.1 hop.2
    | remove m => exact tracks_remove h m
    | clear => exact tracks_clear h

theorem reach_tracks {ops : List (ZSetOp M)} (hinj : Set.InjOn hash (added ops))
    (hnum : ∀ m s, ZSetOp.add m s ∈ ops → s.isNaN = false) :
    (run (step hash) empty ops).1 = (run mapStep (fun _ => none) ops).1 ∧
    Tracks hash (added ops) (reach hash ops) (scores ops) := by
  refine (step_simulates hinj).run (tracks_empty _) fun op hop => ?_
  cases op with
  | add m s => exact ⟨⟨s, hop⟩, hnum m s hop⟩
  | remove m => trivial
  | clear => trivial

/-- The members present are those of the map. -/
theorem Tracks.present {U : Set M} (h : Tracks hash U z f) : present z.getScore = present f := by
  ext m
  exact Bool.eq_iff_iff.mp (h.isSome m)

/-- A run of additions, removals and clears refines a map from members to scores, as long as the
hashes of the added members differ, their scores are numbers and fewer than `2 ^ 32` are left. -/
theorem reach_refines_map (hash : M → UInt64) (ops : List (ZSetOp M))
    (hinj : Set.InjOn hash (added ops)) (hnum : ∀ m s, ZSetOp.add m s ∈ ops → s.isNaN = false)
    (hsmall : (present (scores ops)).ncard < 2 ^ 32) :
    (run (step hash) empty ops).1 = (run mapStep (fun _ => none) ops).1 ∧
    (∀ m, Option.Rel Binary64.Equal ((reach hash ops).getScore m) (scores ops m)) ∧
    (∀ m, (reach hash ops).contains m = (scores ops m).isSome) ∧
    (reach hash ops).size.toNat = (present (scores ops)).ncard ∧
    ∃ asc : List (M × Binary64),
      (asc.Pairwise fun p q => keyOf hash p < keyOf hash q) ∧
      (∀ m s, (m, s) ∈ asc ↔ (reach hash ops).getScore m = some s) ∧
      (∀ m s, (m, s) ∈ asc → ∃ r, (reach hash ops).getRank hash m false = some r ∧
        r.toNat = asc.countP fun p => keyOf hash p < keyOf hash (m, s)) ∧
      (∀ m reverse, scores ops m = none → (reach hash ops).getRank hash m reverse = none) ∧
      (∀ min max, min.isNaN = false → max.isNaN = false →
        (reach hash ops).getRangeByScore min max true =
          some (asc.filter fun p => within min max p.2) ∧
        ∃ count, (reach hash ops).countRange min max = some count ∧
          count.toNat = (asc.filter fun p => within min max p.2).length) ∧
      ∀ start stop reverse, (reach hash ops).getRangeByRank start stop reverse true =
        some (((directed reverse asc).drop start.toNat).take
          (min stop.toNat ((reach hash ops).size.toNat - 1) + 1 - start.toNat)) := by
  obtain ⟨hout, htracks⟩ := reach_tracks hinj hnum
  have hz := htracks.inStep
  have hcard : (reach hash ops).memberToScore.entries.length = (present (scores ops)).ncard := by
    rw [← ncard_present, htracks.present]
  have hsize := hz.size (by omega)
  obtain ⟨asc, hasc⟩ := hz.exists_ascends
  have hlen := hasc.length
  refine ⟨hout, htracks.score, htracks.isSome, by omega, asc, hasc.sorted hz,
    fun m s => hasc.mem, fun m s hp => ?_, fun m reverse hnone => ?_, fun lo hi hlo hhi => ?_,
    fun start stop reverse => ?_⟩
  · exact hasc.getRank hz (by omega) (hasc.mem.mp hp) false
  · have hlookup : (reach hash ops).memberToScore.lookup m = none := by
      rw [← Option.isNone_iff_eq_none, ← Option.not_isSome]
      have hsome := htracks.isSome m
      rw [hnone] at hsome
      exact congrArg not hsome
    unfold getRank
    rw [hlookup]
  · exact hasc.scoreRange hz (by omega) (fun p hp => htracks.isNaN (hasc.mem.mp hp)) hlo hhi
  · rw [hasc.getRangeByRank hz (by omega), hlen, hsize]

/-! ## strings for members -/

/-- The string of `n` in base 256, least digit first. -/
def numeral (n : Nat) : List UInt8 := (Nat.digits 256 n).map UInt8.ofNat

/-- A hash of strings that reads them as numerals. -/
def numeralHash (m : List UInt8) : UInt64 := UInt64.ofNat (Nat.ofDigits 256 (m.map UInt8.toNat))

/-- A numeral hashes to its number. -/
theorem numeralHash_numeral (n : Nat) : numeralHash (numeral n) = UInt64.ofNat n := by
  have hdigits : ((Nat.digits 256 n).map UInt8.ofNat).map UInt8.toNat = Nat.digits 256 n := by
    rw [List.map_map]
    refine (List.map_congr_left fun d hd => ?_).trans (List.map_id _)
    exact UInt8.toNat_ofNat_of_lt' (Nat.digits_lt_base (by decide) hd)
  rw [numeralHash, numeral, hdigits, Nat.ofDigits_digits]

/-- Numerals below 2^64 are distinct. -/
theorem numeral_inj {a b : Nat} (h : numeral a = numeral b) (ha : a < 2 ^ 64) (hb : b < 2 ^ 64) :
    a = b := by
  have hhash := congrArg numeralHash h
  rw [numeralHash_numeral, numeralHash_numeral] at hhash
  have hnat := congrArg UInt64.toNat hhash
  rwa [UInt64.toNat_ofNat_of_lt' ha, UInt64.toNat_ofNat_of_lt' hb] at hnat

/-- Add the numerals below `n`, each with score 0. -/
def addNumerals (n : Nat) : List (ZSetOp (List UInt8)) :=
  (List.range n).map fun i => .add (numeral i) ⟨0⟩

/-- What the run adds. -/
theorem mem_addNumerals {n : Nat} {m : List UInt8} {s : Binary64}
    (h : ZSetOp.add m s ∈ addNumerals n) : (∃ i < n, numeral i = m) ∧ s = ⟨0⟩ := by
  obtain ⟨i, hi, heq⟩ := List.mem_map.mp h
  injection heq with hm hs
  exact ⟨⟨i, List.mem_range.mp hi, hm⟩, hs.symm⟩

/-- Its members hash differently. -/
theorem injOn_addNumerals {n : Nat} (hn : n ≤ 2 ^ 64) :
    Set.InjOn numeralHash (added (addNumerals n)) := by
  rintro a ⟨s, ha⟩ b ⟨s', hb⟩ heq
  obtain ⟨⟨i, hi, rfl⟩, -⟩ := mem_addNumerals ha
  obtain ⟨⟨j, hj, rfl⟩, -⟩ := mem_addNumerals hb
  rw [numeralHash_numeral, numeralHash_numeral] at heq
  have hnat := congrArg UInt64.toNat heq
  rw [UInt64.toNat_ofNat_of_lt' (Nat.lt_of_lt_of_le hi hn),
    UInt64.toNat_ofNat_of_lt' (Nat.lt_of_lt_of_le hj hn)] at hnat
  rw [hnat]

/-- Its scores are numbers. -/
theorem isNaN_addNumerals {n : Nat} {m : List UInt8} {s : Binary64}
    (h : ZSetOp.add m s ∈ addNumerals n) : s.isNaN = false := by
  rw [(mem_addNumerals h).2]
  decide

/-- Its members are the numerals. -/
theorem present_addNumerals (n : Nat) :
    present (scores (addNumerals n)) = ↑((Finset.range n).image numeral) := by
  induction n with
  | zero =>
      ext m
      simp [present, scores, addNumerals]
  | succ n ih =>
      have hlast : scores (addNumerals (n + 1)) =
          Function.update (scores (addNumerals n)) (numeral n) (some ⟨0⟩) := by
        unfold scores addNumerals
        rw [List.range_succ, List.map_append, final_append]
        rfl
      ext m
      have hm := Set.ext_iff.mp ih m
      rw [hlast, Finset.range_add_one, Finset.image_insert, Finset.coe_insert, Set.mem_insert_iff,
        ← hm]
      unfold present
      rw [Set.mem_ofPred_eq, Set.mem_ofPred_eq]
      by_cases heq : m = numeral n
      · simp [heq]
      · simp [heq]

/-- There are as many as asked for. -/
theorem ncard_addNumerals {n : Nat} (hn : n ≤ 2 ^ 64) :
    (present (scores (addNumerals n))).ncard = n := by
  rw [present_addNumerals, Set.ncard_coe_finset, Finset.card_image_of_injOn, Finset.card_range]
  intro a ha b hb heq
  simp only [Finset.coe_range, Set.mem_Iio] at ha hb
  exact numeral_inj heq (Nat.lt_of_lt_of_le ha hn) (Nat.lt_of_lt_of_le hb hn)

theorem reach_refines_map_two :
    (reach numeralHash (addNumerals 2)).size.toNat = (present (scores (addNumerals 2))).ncard :=
  (reach_refines_map numeralHash (addNumerals 2) (injOn_addNumerals (by decide))
    (fun _ _ => isNaN_addNumerals) (by rw [ncard_addNumerals (by decide)]; decide)).2.2.2.1

/-- Its size is their number, modulo 2^32. -/
theorem size_addNumerals {n : Nat} (hn : n ≤ 2 ^ 64) :
    (reach numeralHash (addNumerals n)).size.toNat = n % 2 ^ 32 := by
  obtain ⟨-, htracks⟩ := reach_tracks (injOn_addNumerals hn) fun _ _ => isNaN_addNumerals (n := n)
  rw [htracks.inStep.size_mod, ← ncard_present, htracks.present, ncard_addNumerals hn]

/-- With `2 ^ 32` members `Size()` is 0. -/
theorem members_wrap :
    Set.InjOn numeralHash (added (addNumerals (2 ^ 32))) ∧
    (∀ m s, ZSetOp.add m s ∈ addNumerals (2 ^ 32) → s.isNaN = false) ∧
    (reach numeralHash (addNumerals (2 ^ 32))).size.toNat ≠
      (present (scores (addNumerals (2 ^ 32)))).ncard := by
  have hle : 2 ^ 32 ≤ 2 ^ 64 := Nat.pow_le_pow_right (by decide) (by decide)
  refine ⟨injOn_addNumerals hle, fun _ _ => isNaN_addNumerals, ?_⟩
  rw [size_addNumerals hle, ncard_addNumerals hle, Nat.mod_self]
  exact (Nat.two_pow_pos 32).ne

end ZSetBPlus

end AstraKV
