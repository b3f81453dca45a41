import AstraKV.Data.HyperLogLog

/-!
# AstraKV.Data.SketchBits

The words a sketch is made of: the bits of a hash that `Add` counts, the
registers no hash has raised, and the bytes that a register is read from.

`Add` counts in 56 bits of the hash where 50 belong to the count, and the
loop stops at the highest of the 50 only.

Where the mask lets 56 bits through, a hash whose low 50 bits are zero but one
of the six above is not keeps the loop shifting for ever (`stray`). On every
other hash the loop finds the number of leading zeros among the 50. A hash
with none of them zero at the front has rank zero and leaves no mark, so an
untouched register and one touched by such hashes look alike. The last
register reads a byte that does not belong to the array.
-/

namespace AstraKV

open BitField

namespace HyperLogLog

/-! ## the loop of `CountLeadingZeros` -/

variable {hash : BitVec 64} {hashes : List (BitVec 64)}

/-- The zeros above the highest of the low 50 bits that is set. -/
def leadingZeros (hash : BitVec 64) : Nat := (hash.setWidth 50).clz.toNat

/-- The loop counts the zeros above the highest one it finds. -/
theorem countLoop_eq_some {fuel m : Nat} {count : BitVec 8} {value : BitVec 64} (hm : m < 50)
    (hone : value.getLsbD m = true) (hzero : ∀ k, m < k → k < 50 → value.getLsbD k = false)
    (hfuel : 50 - m ≤ fuel) :
    countLoop fuel count value = some (count + BitVec.ofNat 8 (49 - m)) := by
  induction fuel generalizing m count value with
  | zero => omega
  | succ fuel ih =>
      rw [countLoop]
      by_cases htop : m = 49
      · subst htop
        have hstop : ¬ value &&& ((1 : BitVec 64) <<< 49) = 0 := by
          rw [and_bit_eq_zero, hone]
          decide
        rw [if_neg hstop]
        simp
      · have hgo : value &&& ((1 : BitVec 64) <<< 49) = 0 :=
          and_bit_eq_zero.mpr (hzero 49 (by omega) (by omega))
        rw [if_pos hgo, ih (m := m + 1) (by omega)]
        · have hcount : 49 - m = 1 + (49 - (m + 1)) := by omega
          rw [hcount, BitVec.ofNat_add, BitVec.add_assoc]
          rfl
        · rw [BitVec.getLsbD_shiftLeft]
          simpa [show m + 1 < 64 by omega] using hone
        · intro k hmk hk
          have hbelow := hzero (k - 1) (by omega) (by omega)
          simp [hbelow]
        · omega

/-- With the 50 bits clear nothing that is shifted in stops the loop. -/
theorem countLoop_eq_none {fuel : Nat} {count : BitVec 8} {value : BitVec 64}
    (hzero : ∀ k < 50, value.getLsbD k = false) : countLoop fuel count value = none := by
  induction fuel generalizing count value with
  | zero => rfl
  | succ fuel ih =>
      rw [countLoop, if_pos (and_bit_eq_zero.mpr (hzero 49 (by omega)))]
      refine ih fun k hk => ?_
      have hbelow := hzero (k - 1) (by omega)
      simp [hbelow]

/-- The mask keeps 56 bits. -/
theorem getLsbD_counted (hash : BitVec 64) (k : Nat) :
    (hash &&& 0x00FFFFFFFFFFFFFF).getLsbD k = (decide (k < 56) && hash.getLsbD k) := by
  have hmask : ∀ k < 64, (0x00FFFFFFFFFFFFFF : BitVec 64).getLsbD k = decide (k < 56) := by decide
  rw [BitVec.getLsbD_and]
  by_cases hk : k < 64
  · rw [hmask k hk, Bool.and_comm]
  · rw [BitVec.getLsbD_of_ge hash k (by omega)]
    simp

/-- The low 50 bits of the hash. -/
theorem getLsbD_low {k : Nat} (hk : k < 50) : (hash.setWidth 50).getLsbD k = hash.getLsbD k := by
  simp [hk]

/-- If they are zero, so is each of them. -/
theorem getLsbD_eq_false_of_low (hlow : hash.setWidth 50 = 0) {k : Nat} (hk : k < 50) :
    hash.getLsbD k = false := by
  rw [← getLsbD_low hk, hlow]
  exact BitVec.getLsbD_zero

/-- With a one among the 50 there are fewer zeros than that. -/
theorem leadingZeros_lt (hlow : hash.setWidth 50 ≠ 0) : leadingZeros hash < 50 :=
  BitVec.clz_lt_iff_ne_zero.mpr hlow

/-- There are at most 50 zeros. -/
theorem leadingZeros_le (hash : BitVec 64) : leadingZeros hash ≤ 50 :=
  BitVec.clz_le (x := hash.setWidth 50)

/-- Where the highest of the 50 bits is that is set. -/
theorem getLsbD_leadingZeros (hlow : hash.setWidth 50 ≠ 0) :
    hash.getLsbD (49 - leadingZeros hash) = true := by
  have hbit := BitVec.getLsbD_true_clz_of_ne_zero (by decide) hlow
  rwa [getLsbD_low (by omega)] at hbit

/-- Above the highest one all bits are zero. -/
theorem getLsbD_above {k : Nat} (habove : 49 - leadingZeros hash < k) (hk : k < 50) :
    hash.getLsbD k = false := by
  have hlt := BitVec.toNat_lt_two_pow_sub_clz (x := hash.setWidth 50)
  have hle : 2 ^ (50 - leadingZeros hash) ≤ 2 ^ k := Nat.pow_le_pow_right (by decide) (by omega)
  rw [← getLsbD_low hk]
  exact BitVec.testBit_toNat _ ▸ Nat.testBit_eq_false_of_lt (hlt.trans_le hle)

/-- The bits that are counted and belong to the index. -/
def stray (hash : BitVec 64) : BitVec 6 := hash.extractLsb' 50 6

/-- The masked hash is zero if its 50 bits are and nothing strays. -/
theorem counted_eq_zero_iff :
    hash &&& 0x00FFFFFFFFFFFFFF = 0 ↔ hash.setWidth 50 = 0 ∧ stray hash = 0 := by
  constructor
  · intro hzero
    have hbit : ∀ k < 56, hash.getLsbD k = false := by
      intro k hk
      have hcounted := getLsbD_counted hash k
      rw [hzero] at hcounted
      simpa [hk] using hcounted.symm
    constructor
    · refine BitVec.eq_of_getLsbD_eq fun k hk => ?_
      rw [getLsbD_low hk, hbit k (by omega)]
      exact BitVec.getLsbD_zero.symm
    · refine BitVec.eq_of_getLsbD_eq fun k hk => ?_
      rw [stray, BitVec.getLsbD_extractLsb', hbit (50 + k) (by omega)]
      simp
  · rintro ⟨hlow, hstray⟩
    refine BitVec.eq_of_getLsbD_eq fun k hk => ?_
    have hzero : (0 : BitVec 64).getLsbD k = false := BitVec.getLsbD_zero
    rw [getLsbD_counted, hzero]
    by_cases hk50 : k < 50
    · rw [getLsbD_eq_false_of_low hlow hk50, Bool.and_false]
    by_cases hk56 : k < 56
    · have hbit : (stray hash).getLsbD (k - 50) = false := by
        rw [hstray]
        exact BitVec.getLsbD_zero
      have hindex : 50 + (k - 50) = k := by omega
      rw [stray, BitVec.getLsbD_extractLsb', hindex] at hbit
      have hwidth : k - 50 < 6 := by omega
      simpa [hwidth, hk56] using hbit
    · simp [hk56]

/-- Where the loop ends it has counted the leading zeros. -/
theorem countLeadingZeros_eq_some (h : hash.setWidth 50 ≠ 0 ∨ stray hash = 0) :
    countLeadingZeros 50 (hash &&& 0x00FFFFFFFFFFFFFF) =
      some (BitVec.ofNat 8 (leadingZeros hash)) := by
  unfold countLeadingZeros
  by_cases hlow : hash.setWidth 50 = 0
  · have hstray : stray hash = 0 := h.resolve_left (not_not.mpr hlow)
    have hcount : leadingZeros hash = 50 := by
      rw [leadingZeros, hlow]
      decide
    rw [if_pos (counted_eq_zero_iff.mpr ⟨hlow, hstray⟩), hcount]
    rfl
  · have hvalue : ¬ hash &&& 0x00FFFFFFFFFFFFFF = 0 := fun hzero =>
      hlow (counted_eq_zero_iff.mp hzero).1
    have hlt := leadingZeros_lt hlow
    have hone : (hash &&& 0x00FFFFFFFFFFFFFF).getLsbD (49 - leadingZeros hash) = true := by
      rw [getLsbD_counted, getLsbD_leadingZeros hlow]
      simp
      omega
    rw [if_neg hvalue, countLoop_eq_some (by omega) hone (fun k habove hk => by
      rw [getLsbD_counted, getLsbD_above habove hk, Bool.and_false]) (by omega)]
    have hcount : 49 - (49 - leadingZeros hash) = leadingZeros hash := by omega
    rw [hcount]
    exact congrArg some (BitVec.zero_add _)

/-- Where a bit strays above 50 zeros it never ends. -/
theorem countLeadingZeros_eq_none (hlow : hash.setWidth 50 = 0) (hstray : stray hash ≠ 0)
    (fuel : Nat) : countLeadingZeros fuel (hash &&& 0x00FFFFFFFFFFFFFF) = none := by
  unfold countLeadingZeros
  rw [if_neg fun hzero => hstray (counted_eq_zero_iff.mp hzero).2]
  refine countLoop_eq_none fun k hk => ?_
  rw [getLsbD_counted, getLsbD_eq_false_of_low hlow hk, Bool.and_false]

/-- **When `Add` comes to an end.**  It does, with the leading zeros of the low 50 bits, if one of
them is set or the six bits above are clear. -/
theorem add_terminates_iff (hash : BitVec 64) :
    (∀ h : HyperLogLog, ∃ fuel count,
        countLeadingZeros fuel (hash &&& 0x00FFFFFFFFFFFFFF) = some count ∧
          count.toNat = leadingZeros hash ∧
          h.add hash = some (if h.getRegister (hash >>> 50).toNat < count then
            h.setRegister (hash >>> 50).toNat count else h)) ↔
      hash.setWidth 50 ≠ 0 ∨ stray hash = 0 := by
  constructor
  · intro hadd
    obtain ⟨fuel, count, hsome, -, -⟩ := hadd (new 0)
    by_contra hnot
    obtain ⟨hlow, hstray⟩ := not_or.mp hnot
    rw [countLeadingZeros_eq_none (not_not.mp hlow) hstray] at hsome
    cases hsome
  · intro hbits h
    have hcount := countLeadingZeros_eq_some hbits
    have hle := leadingZeros_le hash
    refine ⟨50, _, hcount, ?_, ?_⟩
    · rw [BitVec.toNat_ofNat, Nat.mod_eq_of_lt (by omega)]
    · rw [add, zeros, hcount]
      rfl

/-- Bit 50 belongs to the index and is not one of those that stop the loop. -/
theorem add_never_returns :
    ¬ ∃ fuel count,
      countLeadingZeros fuel ((0x0004000000000000 : BitVec 64) &&& 0x00FFFFFFFFFFFFFF) =
        some count := by
  rintro ⟨fuel, count, hsome⟩
  rw [countLeadingZeros_eq_none (by decide) (by decide)] at hsome
  cases hsome

/-- On which hashes `Add` returns. -/
theorem returns_iff : Returns hash ↔ hash.setWidth 50 ≠ 0 ∨ stray hash = 0 := by
  constructor
  · rintro ⟨fuel, hsome⟩
    by_contra hnot
    obtain ⟨hlow, hstray⟩ := not_or.mp hnot
    exact hsome (countLeadingZeros_eq_none (not_not.mp hlow) hstray fuel)
  · intro hbits
    refine ⟨50, ?_⟩
    rw [countLeadingZeros_eq_some hbits]
    exact Option.some_ne_none _

/-- The rank of a hash is its number of leading zeros. -/
theorem rank_eq_leadingZeros (hreturns : Returns hash) : rank hash = leadingZeros hash := by
  have hle := leadingZeros_le hash
  rw [rank, zeros, countLeadingZeros_eq_some (returns_iff.mp hreturns)]
  exact Nat.mod_eq_of_lt (by omega)

/-- There are none if bit 49 is set. -/
theorem leadingZeros_eq_zero_iff : leadingZeros hash = 0 ↔ hash.getLsbD 49 = true := by
  constructor
  · intro hzero
    have hlow : hash.setWidth 50 ≠ 0 := by
      intro hlow
      rw [leadingZeros, hlow] at hzero
      exact absurd hzero (by decide)
    have hbit := getLsbD_leadingZeros hlow
    rwa [hzero] at hbit
  · intro hbit
    by_contra hpos
    rw [getLsbD_above (by omega) (by decide)] at hbit
    cases hbit

/-- So the rank is zero exactly then. -/
theorem rank_eq_zero_iff (hreturns : Returns hash) : rank hash = 0 ↔ hash.getLsbD 49 = true := by
  rw [rank_eq_leadingZeros hreturns, leadingZeros_eq_zero_iff]

/-! ## registers that are zero -/

/-- `zero_count` as the loop of `Estimate` comes to it. -/
def zeroCount (h : HyperLogLog) : Nat :=
  (List.range kNumRegisters).foldl (fun n i => if h.getRegister i = 0 then n + 1 else n) 0

/-- The loop counts the registers that are zero. -/
theorem zeroCount_eq_count (h : HyperLogLog) :
    h.zeroCount = Nat.count (fun i => h.getRegister i = 0) kNumRegisters := by
  unfold zeroCount
  induction kNumRegisters with
  | zero => rfl
  | succ n ih =>
      rw [List.range_succ, List.foldl_append, ih, Nat.count_succ, List.foldl_cons, List.foldl_nil]
      split <;> rfl

/-- The count is the number of indices whose register is zero. -/
theorem card_getRegister_eq_zero (h : HyperLogLog) :
    h.zeroCount = ((Finset.range kNumRegisters).filter fun j => h.getRegister j = 0).card := by
  rw [zeroCount_eq_count, Nat.count_eq_card_filter_range]

/-- A register is zero as bits if it is as a number. -/
theorem getRegister_eq_zero_iff {h : HyperLogLog} {j : Nat} :
    h.getRegister j = 0 ↔ h.register j = 0 :=
  BitVec.toNat_inj.symm

/-- A level is zero if all hashes for it have rank zero. -/
theorem level_eq_zero_iff {j : Nat} :
    level hashes j = 0 ↔ ∀ hash ∈ hashes, regIdx hash = j → rank hash = 0 := by
  unfold level
  rw [← Nat.bot_eq_zero, Finset.sup_eq_bot_iff]
  simp

/-- Only hashes with bit 49 clear raise a register of an empty sketch. -/
theorem addAll_new (beyond : BitVec 8) (hreturns : ∀ hash ∈ hashes, Returns hash) :
    ∃ s, (new beyond).addAll hashes = some s ∧ ∀ j < kNumRegisters,
      (s.getRegister j = 0 ↔ ∀ hash ∈ hashes, regIdx hash = j → hash.getLsbD 49 = true) := by
  obtain ⟨s, hs, hregister⟩ := register_addAll (new beyond) hreturns
  refine ⟨s, hs, fun j hj => ?_⟩
  rw [getRegister_eq_zero_iff, hregister, register_new beyond hj, Nat.zero_max, level_eq_zero_iff]
  refine forall₂_congr fun hash hmem => ?_
  rw [rank_eq_zero_iff (hreturns hash hmem)]

/-- A sketch agrees with a new one if all registers are zero. -/
theorem agree_new_iff {s : HyperLogLog} (beyond : BitVec 8) :
    s.Agree (new beyond) ↔ ∀ j < kNumRegisters, s.getRegister j = 0 := by
  refine forall₂_congr fun j hj => ?_
  have hnew : (new beyond).getRegister j = 0 :=
    getRegister_eq_zero_iff.mpr (register_new beyond hj)
  rw [hnew]

/-- A hash leaves a mark on a new sketch unless its bit 49 is set. -/
theorem add_new_changes_iff (beyond : BitVec 8) (hreturns : Returns hash) :
    (∃ s, (new beyond).add hash = some s ∧ ¬ s.Agree (new beyond)) ↔ hash.getLsbD 49 = false := by
  have hsingle : ∀ x ∈ [hash], Returns x := by simpa using hreturns
  obtain ⟨s, hs, hzero⟩ := addAll_new beyond hsingle
  have hadd : (new beyond).add hash = some s := by
    rw [addAll, List.foldlM_cons] at hs
    cases hnone : (new beyond).add hash with
    | none =>
        rw [hnone] at hs
        cases hs
    | some s' =>
        rw [hnone] at hs
        exact hs
  have hagree : s.Agree (new beyond) ↔ hash.getLsbD 49 = true := by
    rw [agree_new_iff]
    constructor
    · intro hall
      exact (hzero _ regIdx_lt).mp (hall _ regIdx_lt) hash (List.mem_singleton_self hash) rfl
    · intro hbit j hj
      refine (hzero j hj).mpr fun hash' hmem _ => ?_
      rw [List.mem_singleton.mp hmem, hbit]
  constructor
  · rintro ⟨s', hs', hnot⟩
    obtain rfl : s' = s := Option.some.inj (hs'.symm.trans hadd)
    rwa [hagree, Bool.not_eq_true] at hnot
  · intro hbit
    refine ⟨s, hadd, ?_⟩
    rw [hagree, hbit]
    decide

/-- **What a register that is zero says.**  The registers that are zero are those no hash selects,
`zero_count` counts them and the first hash changes the sketch, if each register that is selected
is so by a hash with bit 49 clear, and the first hash has it clear. -/
theorem zero_registers_iff (beyond : BitVec 8) (hreturns : ∀ hash ∈ hashes, Returns hash) :
    (∃ s, (new beyond).addAll hashes = some s ∧
        (∀ j < kNumRegisters, s.getRegister j = 0 ↔ ∀ hash ∈ hashes, regIdx hash ≠ j) ∧
        s.zeroCount =
          ((Finset.range kNumRegisters).filter fun j => ∀ hash ∈ hashes, regIdx hash ≠ j).card ∧
        ∀ first ∈ hashes.head?, ∃ s', (new beyond).add first = some s' ∧
          ¬ s'.Agree (new beyond)) ↔
      (∀ hash ∈ hashes, ∃ hash' ∈ hashes, regIdx hash' = regIdx hash ∧
        hash'.getLsbD 49 = false) ∧
      ∀ first ∈ hashes.head?, first.getLsbD 49 = false := by
  obtain ⟨s, hs, hzero⟩ := addAll_new beyond hreturns
  have hfirst : (∀ first ∈ hashes.head?, ∃ s', (new beyond).add first = some s' ∧
      ¬ s'.Agree (new beyond)) ↔ ∀ first ∈ hashes.head?, first.getLsbD 49 = false := by
    refine forall₂_congr fun first hmem => ?_
    exact add_new_changes_iff beyond (hreturns first (List.mem_of_mem_head? hmem))
  rw [← hfirst]
  constructor
  · rintro ⟨s', hs', hregisters, -, hchanges⟩
    obtain rfl : s' = s := Option.some.inj (hs'.symm.trans hs)
    refine ⟨fun hash hmem => ?_, hchanges⟩
    by_contra hnone
    have hall : s'.getRegister (regIdx hash) = 0 := by
      refine (hzero _ regIdx_lt).mpr fun hash' hmem' hidx => ?_
      by_contra hbit
      exact hnone ⟨hash', hmem', hidx, Bool.not_eq_true _ ▸ hbit⟩
    exact (hregisters _ regIdx_lt).mp hall hash hmem rfl
  · rintro ⟨hclear, hchanges⟩
    have hregisters : ∀ j < kNumRegisters,
        (s.getRegister j = 0 ↔ ∀ hash ∈ hashes, regIdx hash ≠ j) := by
      intro j hj
      rw [hzero j hj]
      constructor
      · rintro hall hash hmem rfl
        obtain ⟨hash', hmem', hidx, hbit⟩ := hclear hash hmem
        rw [hall hash' hmem' hidx] at hbit
        cases hbit
      · intro hnone hash hmem hidx
        exact absurd hidx (hnone hash hmem)
    refine ⟨s, hs, hregisters, ?_, hchanges⟩
    rw [card_getRegister_eq_zero]
    refine congrArg Finset.card (Finset.filter_congr fun j hj => ?_)
    exact hregisters j (Finset.mem_range.mp hj)

/-- A hash with bit 49 clear, and one with the bit set for the same register. -/
theorem zero_registers_two :
    ∃ s, (new 0).addAll [0x0001000000000000, 0x0002000000000000] = some s ∧
      s.zeroCount = ((Finset.range kNumRegisters).filter fun j =>
        ∀ hash ∈ [(0x0001000000000000 : BitVec 64), 0x0002000000000000], regIdx hash ≠ j).card := by
  have hclear : Returns 0x0001000000000000 := returns_iff.mpr (Or.inl (by decide))
  have hset : Returns 0x0002000000000000 := returns_iff.mpr (Or.inl (by decide))
  have hreturns : ∀ hash ∈ [(0x0001000000000000 : BitVec 64), 0x0002000000000000],
      Returns hash :=
    List.forall_mem_cons.mpr ⟨hclear, List.forall_mem_singleton.mpr hset⟩
  have hbits : (∀ hash ∈ [(0x0001000000000000 : BitVec 64), 0x0002000000000000],
      ∃ hash' ∈ [(0x0001000000000000 : BitVec 64), 0x0002000000000000],
        regIdx hash' = regIdx hash ∧ hash'.getLsbD 49 = false) ∧
      ∀ first ∈ [(0x0001000000000000 : BitVec 64), 0x0002000000000000].head?,
        first.getLsbD 49 = false := by
    simp [regIdx]
  obtain ⟨s, hs, -, hcount, -⟩ := (zero_registers_iff 0 hreturns).mpr hbits
  exact ⟨s, hs, hcount⟩

/-- A hash with bit 49 set is counted as none. -/
theorem zero_register_selected :
    Returns 0x0002000000000000 ∧
      ¬ ∃ s, (new 0).addAll [0x0002000000000000] = some s ∧ ∀ j < kNumRegisters,
        (s.getRegister j = 0 ↔ ∀ hash ∈ [(0x0002000000000000 : BitVec 64)], regIdx hash ≠ j) := by
  have hreturns : Returns 0x0002000000000000 := returns_iff.mpr (Or.inl (by decide))
  have hall : ∀ hash ∈ [(0x0002000000000000 : BitVec 64)], Returns hash := by simpa using hreturns
  refine ⟨hreturns, ?_⟩
  rintro ⟨s, hs, hregisters⟩
  obtain ⟨s', hs', hzero⟩ := addAll_new 0 hall
  obtain rfl : s = s' := Option.some.inj (hs.symm.trans hs')
  have hnone : s.getRegister 0 = 0 := (hzero 0 (by decide)).mpr (by simp)
  exact (hregisters 0 (by decide)).mp hnone _ (List.mem_singleton_self _) (by decide)

/-! ## the bytes of the array -/

variable {registers : Memory} {i j : Nat} {v : BitVec 8}

/-- `GetRegister` on the array alone: without a result if it reads a byte outside. -/
def getRegister? (registers : Memory) (idx : Nat) : Option (BitVec 8) := do
  let bitPos := idx * kBitsPerRegister
  let bytePos := bitPos / 8
  let bitOff := bitPos % 8
  let value ← read16? registers bytePos
  pure (((value >>> bitOff) &&& 0x3F).setWidth 8)

def setRegister? (registers : Memory) (idx : Nat) (val : BitVec 8) : Option Memory := do
  let bitPos := idx * kBitsPerRegister
  let bytePos := bitPos / 8
  let bitOff := bitPos % 8
  let mask := (0x3F : BitVec 16) <<< bitOff
  let newVal ← read16? registers bytePos
  let newVal := (newVal &&& ~~~mask) ||| ((val &&& 0x3F).setWidth 16 <<< bitOff)
  write16? registers bytePos newVal

/-- The array in memory, with a byte behind it. -/
def inMemory (registers : Memory) (hsize : registers.length = kNumRegisters * kBitsPerRegister / 8)
    (beyond : BitVec 8) : HyperLogLog :=
  ⟨registers ++ [beyond], by simp [hsize]⟩

/-- The two bytes of a register other than the last are in the array. -/
theorem bytes_of_register (hsize : registers.length = kNumRegisters * kBitsPerRegister / 8)
    (hi : i < kNumRegisters) (hlast : i ≠ 16383) :
    i * kBitsPerRegister / 8 + 1 < registers.length := by
  unfold kNumRegisters kBitsPerRegister at *
  omega

/-- The last register begins within the array. -/
theorem bytes_of_last (hsize : registers.length = kNumRegisters * kBitsPerRegister / 8) :
    registers.length ≤ 16383 * kBitsPerRegister / 8 + 1 := by
  rw [hsize]
  decide

/-- Every register but the last is read within the array. -/
theorem getRegister?_eq_some (hsize : registers.length = kNumRegisters * kBitsPerRegister / 8)
    (hi : i < kNumRegisters) (hlast : i ≠ 16383) (beyond : BitVec 8) :
    getRegister? registers i = some ((inMemory registers hsize beyond).getRegister i) := by
  have hin := bytes_of_register hsize hi hlast
  unfold getRegister? getRegister inMemory
  dsimp only
  rw [read16?_eq_some hin, read16_append hin]
  rfl

/-- The last one is not. -/
theorem getRegister?_last (hsize : registers.length = kNumRegisters * kBitsPerRegister / 8) :
    getRegister? registers 16383 = none := by
  unfold getRegister?
  dsimp only
  rw [read16?_eq_none (bytes_of_last hsize)]
  rfl

/-- Every register but the last is written within the array. -/
theorem setRegister?_eq_some (hsize : registers.length = kNumRegisters * kBitsPerRegister / 8)
    (hi : i < kNumRegisters) (hlast : i ≠ 16383) (v beyond : BitVec 8) :
    ∃ registers', setRegister? registers i v = some registers' ∧
      ∃ hsize' : registers'.length = kNumRegisters * kBitsPerRegister / 8,
        inMemory registers' hsize' beyond = (inMemory registers hsize beyond).setRegister i v := by
  have hin := bytes_of_register hsize hi hlast
  unfold setRegister? setRegister inMemory
  simp only [read16?_eq_some hin, read16_append hin, write16_append hin]
  refine ⟨_, if_pos hin, ?_, ?_⟩
  · rw [length_write16, hsize]
  · rfl

/-- The last one is not. -/
theorem setRegister?_last (hsize : registers.length = kNumRegisters * kBitsPerRegister / 8) :
    setRegister? registers 16383 v = none := by
  unfold setRegister?
  dsimp only
  rw [read16?_eq_none (bytes_of_last hsize)]
  rfl

/-- **Which registers are in the array.**  A register is read back as it was written, the others are
as before, and no byte outside is touched, if the last register is not among them: its window ends a
byte behind the array. -/
theorem registers_in_array_iff
    (hsize : registers.length = kNumRegisters * kBitsPerRegister / 8) (hi : i < kNumRegisters)
    (hj : j < kNumRegisters) (v : BitVec 8) :
    (∃ registers', setRegister? registers i v = some registers' ∧
        registers'.length = kNumRegisters * kBitsPerRegister / 8 ∧
        (getRegister? registers' i).map BitVec.toNat = some (v.toNat % 64) ∧
        (j ≠ i → ∃ r, getRegister? registers j = some r ∧ getRegister? registers' j = some r)) ↔
      i ≠ 16383 ∧ j ≠ 16383 := by
  constructor
  · rintro ⟨registers', hset, hsize', -, hothers⟩
    have hi' : i ≠ 16383 := by
      rintro rfl
      rw [setRegister?_last hsize] at hset
      cases hset
    refine ⟨hi', ?_⟩
    rintro rfl
    obtain ⟨r, hr, -⟩ := hothers (Ne.symm hi')
    rw [getRegister?_last hsize] at hr
    cases hr
  · rintro ⟨hi', hj'⟩
    obtain ⟨registers', hset, hsize', hmemory⟩ := setRegister?_eq_some hsize hi hi' v 0
    have hsix : (v &&& 0x3F).toNat = v.toNat % 64 := by
      rw [BitVec.toNat_and]
      exact Nat.and_two_pow_sub_one_eq_mod _ 6
    refine ⟨registers', hset, hsize', ?_, fun hji => ⟨_, getRegister?_eq_some hsize hj hj' 0, ?_⟩⟩
    · rw [getRegister?_eq_some hsize' hi hi' 0, hmemory, getRegister_setRegister hi, if_pos rfl]
      exact congrArg some hsix
    · rw [getRegister?_eq_some hsize' hj hj' 0, hmemory, getRegister_setRegister hi, if_neg hji]

theorem length_zeros :
    (List.replicate 12288 (0 : BitVec 8)).length = kNumRegisters * kBitsPerRegister / 8 :=
  List.length_replicate

/-- The first register and the one before the last, in an array of zeros. -/
theorem registers_in_array_zeros :
    ∃ registers', setRegister? (List.replicate 12288 0) 0 63 = some registers' ∧
      (getRegister? registers' 0).map BitVec.toNat = some (63 % 64) := by
  have hfirst : 0 < kNumRegisters := by decide
  have hother : 16382 < kNumRegisters := by decide
  obtain ⟨registers', hset, -, hget, -⟩ :=
    (registers_in_array_iff length_zeros hfirst hother 63).mpr ⟨by decide, by decide⟩
  exact ⟨registers', hset, hget⟩

/-- The last register is read and written across the end of the array. -/
theorem last_register_outside :
    getRegister? (List.replicate 12288 0) 16383 = none ∧
      setRegister? (List.replicate 12288 0) 16383 0 = none :=
  ⟨getRegister?_last length_zeros, setRegister?_last length_zeros⟩

end HyperLogLog

end AstraKV
