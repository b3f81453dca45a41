import AstraKV.Lib.BitField

/-!
# AstraKV.Data.HyperLogLog

The sketch of `hll.hpp`: 16384 registers of 6 bits, each the longest run of
zeros among the hashes that select it.

A register is read and written as 16 bits, and the last one reaches a byte
past the array, which is part of the memory here.  `CountLeadingZeros` does
not return for every hash.

A register straddles two bytes, so reading and writing one is a shift and a
mask over 16 bits of the array. All of it is done on single bits: `bit` reads
the array as one long word, register `i` is bits `6 i` to `6 i + 5` of it, and
writing changes these six and no other. Above that a sketch is a function from
indices to numbers, `Add` is a maximum at one index and `Merge` one at all of
them, so that order and repetition do not matter.
-/

namespace AstraKV

open BitField

def kNumRegisters : Nat := 16384

def kBitsPerRegister : Nat := 6

/-- `registers_` and the byte behind it. -/
structure HyperLogLog where
  registers : Memory
  size : registers.length = kNumRegisters * kBitsPerRegister / 8 + 1

namespace HyperLogLog

/-- A new array has its bytes and the one beyond. -/
theorem length_replicate_append (beyond : BitVec 8) :
    (List.replicate (kNumRegisters * kBitsPerRegister / 8) (0 : BitVec 8) ++ [beyond]).length =
      kNumRegisters * kBitsPerRegister / 8 + 1 := by
  simp

/-- The constructor sets the registers, and not the byte behind them. -/
def new (beyond : BitVec 8) : HyperLogLog :=
  ⟨List.replicate (kNumRegisters * kBitsPerRegister / 8) 0 ++ [beyond],
    length_replicate_append beyond⟩

def getRegister (h : HyperLogLog) (idx : Nat) : BitVec 8 :=
  let bitPos := idx * kBitsPerRegister
  let bytePos := bitPos / 8
  let bitOff := bitPos % 8
  let value := read16 h.registers bytePos
  ((value >>> bitOff) &&& 0x3F).setWidth 8

def setRegister (h : HyperLogLog) (idx : Nat) (val : BitVec 8) : HyperLogLog :=
  let bitPos := idx * kBitsPerRegister
  let bytePos := bitPos / 8
  let bitOff := bitPos % 8
  let mask := (0x3F : BitVec 16) <<< bitOff
  let newVal := read16 h.registers bytePos
  let newVal := (newVal &&& ~~~mask) ||| ((val &&& 0x3F).setWidth 16 <<< bitOff)
  ⟨write16 h.registers bytePos newVal, length_write16.trans h.size⟩

/-- The loop of `CountLeadingZeros`, as far as the fuel goes. -/
def countLoop : Nat → BitVec 8 → BitVec 64 → Option (BitVec 8)
  | 0, _, _ => none
  | fuel + 1, count, value =>
      if value &&& ((1 : BitVec 64) <<< 49) = 0 then countLoop fuel (count + 1) (value <<< 1)
      else some count

def countLeadingZeros (fuel : Nat) (value : BitVec 64) : Option (BitVec 8) :=
  if value = 0 then some 50 else countLoop fuel 0 value

/-- What `Add` counts in a hash. -/
def zeros (hash : BitVec 64) : Option (BitVec 8) :=
  countLeadingZeros 50 (hash &&& 0x00FFFFFFFFFFFFFF)

def add (h : HyperLogLog) (hash : BitVec 64) : Option HyperLogLog :=
  let regIdx := (hash >>> 50).toNat
  (zeros hash).map fun count =>
    let current := h.getRegister regIdx
    if current < count then h.setRegister regIdx count else h

/-- One turn of `Merge`. -/
def mergeRegister (other h : HyperLogLog) (i : Nat) : HyperLogLog :=
  let a := h.getRegister i
  let b := other.getRegister i
  if a < b then h.setRegister i b else h

def merge (h other : HyperLogLog) : HyperLogLog :=
  (List.range kNumRegisters).foldl (mergeRegister other) h

/-! ## registers -/

variable {h : HyperLogLog} {i j : Nat} {v : BitVec 8}

/-- The mask keeps the low six bits. -/
theorem getLsbD_field {n : Nat} (hn : n < 16) :
    (0x3F : BitVec 16).getLsbD n = decide (n < 6) := by
  revert n
  decide

/-- A register is six bits of the array. -/
theorem getLsbD_getRegister {n : Nat} (hn : n < 8) :
    (h.getRegister i).getLsbD n = (decide (n < 6) && bit h.registers (6 * i + n)) := by
  unfold getRegister kBitsPerRegister
  simp only [BitVec.getLsbD_setWidth, BitVec.getLsbD_and, BitVec.getLsbD_ushiftRight]
  rw [getLsbD_field (by omega)]
  by_cases hfield : n < 6
  · rw [getLsbD_read16 (by omega), show 8 * (i * 6 / 8) + (i * 6 % 8 + n) = 6 * i + n by omega]
    simp [hn, hfield]
  · simp [hfield]

/-- Six bits put in the place of others. -/
theorem getLsbD_splice (old : BitVec 16) {off n : Nat} (hn : n < 16) :
    ((old &&& ~~~((0x3F : BitVec 16) <<< off)) |||
        ((v &&& 0x3F).setWidth 16 <<< off)).getLsbD n =
      if off ≤ n ∧ n < off + 6 then v.getLsbD (n - off) else old.getLsbD n := by
  have hfield : (0x3F : BitVec 8).getLsbD (n - off) = decide (n - off < 6) := by
    have hall : ∀ k < 16, (0x3F : BitVec 8).getLsbD k = decide (k < 6) := by decide
    exact hall _ (by omega)
  simp only [BitVec.getLsbD_or, BitVec.getLsbD_and, BitVec.getLsbD_not, BitVec.getLsbD_shiftLeft,
    BitVec.getLsbD_setWidth]
  rw [getLsbD_field (by omega), hfield]
  by_cases hlow : n < off
  · have hout : ¬ (off ≤ n ∧ n < off + 6) := by omega
    rw [if_neg hout]
    simp [hn, hlow]
  by_cases hhigh : n < off + 6
  · have hin : off ≤ n ∧ n < off + 6 := by omega
    have hoffset : n - off < 6 := by omega
    have hwidth : n - off < 16 := by omega
    rw [if_pos hin]
    simp [hn, hlow, hoffset, hwidth]
  · have hout : ¬ (off ≤ n ∧ n < off + 6) := by omega
    have hoffset : ¬ n - off < 6 := by omega
    rw [if_neg hout]
    simp [hn, hlow, hoffset]

/-- Writing a register changes its six bits and no other. -/
theorem bit_setRegister (hi : i < kNumRegisters) {n : Nat} :
    bit (h.setRegister i v).registers n =
      if 6 * i ≤ n ∧ n < 6 * i + 6 then v.getLsbD (n - 6 * i) else bit h.registers n := by
  have hsize := h.size
  unfold kNumRegisters kBitsPerRegister at *
  unfold setRegister kBitsPerRegister
  dsimp only
  rw [bit_write16 (by omega)]
  by_cases hin : 8 * (i * 6 / 8) ≤ n ∧ n < 8 * (i * 6 / 8) + 16
  · have hoffset : i * 6 % 8 ≤ n - 8 * (i * 6 / 8) ∧ n - 8 * (i * 6 / 8) < i * 6 % 8 + 6 ↔
        6 * i ≤ n ∧ n < 6 * i + 6 := by omega
    have hindex : n - 8 * (i * 6 / 8) - i * 6 % 8 = n - 6 * i := by omega
    rw [if_pos hin, getLsbD_splice _ (by omega), getLsbD_read16 (by omega), hindex]
    simp only [hoffset]
    rw [Nat.add_sub_cancel' hin.1]
  · have hout : ¬ (6 * i ≤ n ∧ n < 6 * i + 6) := by omega
    rw [if_neg hin, if_neg hout]

/-- **No register disturbs another.** -/
theorem getRegister_setRegister (hi : i < kNumRegisters) :
    (h.setRegister i v).getRegister j = if j = i then v &&& 0x3F else h.getRegister j := by
  refine BitVec.eq_of_getLsbD_eq fun n hn => ?_
  have hfield : (0x3F : BitVec 8).getLsbD n = decide (n < 6) := by
    revert n
    decide
  rw [getLsbD_getRegister hn, bit_setRegister hi]
  by_cases hj : j = i
  · subst hj
    rw [if_pos rfl, BitVec.getLsbD_and, hfield]
    by_cases hlow : n < 6
    · have hin : 6 * j ≤ 6 * j + n ∧ 6 * j + n < 6 * j + 6 := by omega
      rw [if_pos hin]
      simp [hlow]
    · simp [hlow]
  · rw [if_neg hj, getLsbD_getRegister hn]
    by_cases hlow : n < 6
    · have hout : ¬ (6 * i ≤ 6 * j + n ∧ 6 * j + n < 6 * i + 6) := by omega
      rw [if_neg hout]
    · simp [hlow]

def register (h : HyperLogLog) (i : Nat) : Nat := (h.getRegister i).toNat

/-- A register holds less than 64. -/
theorem register_lt : h.register i < 64 := by
  unfold register getRegister
  simp only [BitVec.toNat_setWidth, BitVec.toNat_and]
  refine (Nat.mod_le _ _).trans_lt ?_
  exact Nat.and_lt_two_pow (n := 6) _ (by decide)

/-- Writing a register leaves the others. -/
theorem register_setRegister (hi : i < kNumRegisters) (hv : v.toNat < 64) :
    (h.setRegister i v).register j = if j = i then v.toNat else h.register j := by
  have hfield : (v &&& 0x3F).toNat = v.toNat := by
    rw [BitVec.toNat_and]
    exact (Nat.and_two_pow_sub_one_eq_mod _ 6).trans (Nat.mod_eq_of_lt hv)
  unfold register
  rw [getRegister_setRegister hi]
  split
  · exact hfield
  · rfl

/-- A register is raised, or it is as high already. -/
theorem register_raise (hi : i < kNumRegisters) (hv : v.toNat < 64) :
    (if h.getRegister i < v then h.setRegister i v else h).register j =
      if j = i then max (h.register i) v.toNat else h.register j := by
  split
  · rename_i hlt
    have hlt' : h.register i < v.toNat := hlt
    rw [register_setRegister hi hv, Nat.max_eq_right hlt'.le]
  · rename_i hge
    have hge' : v.toNat ≤ h.register i := not_lt.mp hge
    rw [Nat.max_eq_left hge']
    split
    · rename_i hj
      rw [hj]
    · rfl

/-- Merging one register takes the greater value. -/
theorem register_mergeRegister (other : HyperLogLog) (hi : i < kNumRegisters) :
    (mergeRegister other h i).register j =
      if j = i then max (h.register i) (other.register i) else h.register j :=
  register_raise hi register_lt

/-- `Merge` takes the higher of two registers. -/
theorem register_merge (h other : HyperLogLog) (hj : j < kNumRegisters) :
    (h.merge other).register j = max (h.register j) (other.register j) := by
  have hturns : ∀ n ≤ kNumRegisters, ∀ j,
      ((List.range n).foldl (mergeRegister other) h).register j =
        if j < n then max (h.register j) (other.register j) else h.register j := by
    intro n hn
    induction n with
    | zero => exact fun j => rfl
    | succ n ih =>
        intro j
        have ih := ih (Nat.le_of_succ_le hn)
        rw [List.range_succ, List.foldl_append, List.foldl_cons, List.foldl_nil,
          register_mergeRegister other hn, ih, ih, if_neg (lt_irrefl n)]
        by_cases hj : j = n
        · rw [if_pos hj, if_pos (by omega), hj]
        · have hlt : j < n + 1 ↔ j < n := by omega
          rw [if_neg hj]
          simp only [hlt]
  exact (hturns kNumRegisters le_rfl j).trans (if_pos hj)

/-- The registers of a new sketch are zero. -/
theorem register_new (beyond : BitVec 8) (hj : j < kNumRegisters) :
    (new beyond).register j = 0 := by
  have hbyte : ∀ i < kNumRegisters * kBitsPerRegister / 8, (new beyond).registers.getD i 0 = 0 := by
    intro i hi
    unfold new
    rw [List.getD_append _ _ _ _ (by simpa using hi), List.getD_eq_getElem _ _ (by simpa using hi)]
    exact List.getElem_replicate _
  have hzero : (new beyond).getRegister j = 0 := by
    refine BitVec.eq_of_getLsbD_eq fun n hn => ?_
    rw [getLsbD_getRegister hn]
    by_cases hlow : n < 6
    · have hi : (6 * j + n) / 8 < kNumRegisters * kBitsPerRegister / 8 := by
        unfold kNumRegisters kBitsPerRegister at *
        omega
      rw [bit, hbyte _ hi]
      simp
    · simp [hlow]
  rw [register, hzero]
  rfl

/-! ## counting zeros -/

/-- The hash is one for which `CountLeadingZeros` returns. -/
def Returns (hash : BitVec 64) : Prop :=
  ∃ fuel, countLeadingZeros fuel (hash &&& 0x00FFFFFFFFFFFFFF) ≠ none

/-- The loop looks at bit 49. -/
theorem and_bit_eq_zero {value : BitVec 64} :
    value &&& ((1 : BitVec 64) <<< 49) = 0 ↔ value.getLsbD 49 = false := by
  constructor
  · intro hzero
    have hbit : (value &&& ((1 : BitVec 64) <<< 49)).getLsbD 49 = false := by
      rw [hzero]
      rfl
    simpa using hbit
  · intro hbit
    refine BitVec.eq_of_getLsbD_eq fun n hn => ?_
    have hother : ∀ k < 64, k ≠ 49 → ((1 : BitVec 64) <<< 49).getLsbD k = false := by decide
    have hzero : (0 : BitVec 64).getLsbD n = false := BitVec.getLsbD_zero
    rw [BitVec.getLsbD_and, hzero]
    by_cases heq : n = 49
    · rw [heq, hbit, Bool.false_and]
    · rw [hother n hn heq, Bool.and_false]

/-- As many turns are enough as there are bits that may be set, from bit 49 down. -/
theorem countLoop_of_high {n fuel : Nat} {count r : BitVec 8} {value : BitVec 64}
    (hhigh : ∀ k < 50, value.getLsbD k = true → 50 ≤ k + n)
    (hr : countLoop fuel count value = some r) : countLoop n count value = some r := by
  induction fuel generalizing n count value with
  | zero => cases hr
  | succ fuel ih =>
      unfold countLoop at hr
      split at hr
      · rename_i hzero
        have hshift : ∀ k < 50, (value <<< 1).getLsbD k = true → 50 ≤ k - 1 + n ∧ 0 < k := by
          intro k hk hbit
          obtain ⟨⟨-, hpos⟩, hbit⟩ : (k < 64 ∧ ¬ k = 0) ∧ value.getLsbD (k - 1) = true := by
            simpa [BitVec.getLsbD_shiftLeft] using hbit
          exact ⟨hhigh (k - 1) (by omega) hbit, Nat.pos_of_ne_zero hpos⟩
        cases n with
        | zero =>
            have hnone : countLoop 0 (count + 1) (value <<< 1) = some r :=
              ih (fun k hk hbit => by
                obtain ⟨hle, hpos⟩ := hshift k hk hbit
                omega) hr
            cases hnone
        | succ n =>
            rw [countLoop, if_pos hzero]
            refine ih (fun k hk hbit => ?_) hr
            obtain ⟨hle, hpos⟩ := hshift k hk hbit
            omega
      · rename_i hone
        have hbit : value.getLsbD 49 = true := by
          rwa [and_bit_eq_zero, Bool.not_eq_false] at hone
        have hn := hhigh 49 (by omega) hbit
        obtain ⟨n, rfl⟩ : ∃ m, n = m + 1 := ⟨n - 1, by omega⟩
        rw [countLoop, if_neg hone]
        exact hr

/-- The loop counts no further than it has turns. -/
theorem countLoop_lt {fuel : Nat} {count r : BitVec 8} {value : BitVec 64}
    (hr : countLoop fuel count value = some r) (hfuel : count.toNat + fuel < 256) :
    r.toNat < count.toNat + fuel := by
  induction fuel generalizing count value with
  | zero => cases hr
  | succ fuel ih =>
      unfold countLoop at hr
      split at hr
      · have hcount : (count + 1).toNat = count.toNat + 1 := by
          rw [BitVec.toNat_add]
          exact Nat.mod_eq_of_lt (by simpa using (by omega))
        have hlt := ih hr (by omega)
        omega
      · rw [← Option.some.inj hr]
        omega

/-- A hash on which `Add` returns has a count. -/
theorem zeros_of_returns {hash : BitVec 64} (h : Returns hash) :
    ∃ count, zeros hash = some count := by
  obtain ⟨fuel, hsome⟩ := h
  obtain ⟨r, hr⟩ := Option.ne_none_iff_exists'.mp hsome
  unfold countLeadingZeros at hr
  unfold zeros countLeadingZeros
  split at hr
  · rename_i hzero
    exact ⟨50, if_pos hzero⟩
  · rename_i hvalue
    rw [if_neg hvalue]
    exact ⟨r, countLoop_of_high (fun k _ _ => by omega) hr⟩

/-- The count fits a register. -/
theorem zeros_lt {hash : BitVec 64} {count : BitVec 8} (h : zeros hash = some count) :
    count.toNat < 64 := by
  unfold zeros countLeadingZeros at h
  split at h
  · rw [← Option.some.inj h]
    decide
  · have hlt := countLoop_lt h (by decide)
    have hzero : (0 : BitVec 8).toNat = 0 := rfl
    omega

/-! ## sketches -/

variable {hash : BitVec 64} {hashes : List (BitVec 64)}

def regIdx (hash : BitVec 64) : Nat := (hash >>> 50).toNat

/-- The index is that of a register. -/
theorem regIdx_lt : regIdx hash < kNumRegisters := by
  unfold regIdx kNumRegisters
  rw [BitVec.toNat_ushiftRight, Nat.shiftRight_eq_div_pow]
  exact Nat.div_lt_of_lt_mul hash.isLt

/-- The zeros a hash counts for. -/
def rank (hash : BitVec 64) : Nat := ((zeros hash).map BitVec.toNat).getD 0

/-- `Add` raises one register to the rank of the hash. -/
theorem register_add (h : HyperLogLog) (hreturns : Returns hash) :
    ∃ h', h.add hash = some h' ∧ ∀ j, h'.register j =
      if j = regIdx hash then max (h.register j) (rank hash) else h.register j := by
  obtain ⟨count, hcount⟩ := zeros_of_returns hreturns
  have hrank : rank hash = count.toNat := by rw [rank, hcount]; rfl
  refine ⟨_, by rw [add, hcount]; rfl, fun j => ?_⟩
  rw [hrank]
  refine (register_raise regIdx_lt (zeros_lt hcount)).trans ?_
  by_cases hj : j = regIdx hash
  · rw [if_pos hj, if_pos hj, ← hj]
  · rw [if_neg hj, if_neg hj]

/-- What the hashes raise a register to. -/
def level (hashes : List (BitVec 64)) (j : Nat) : Nat :=
  (hashes.toFinset.filter fun hash => regIdx hash = j).sup rank

/-- The sketch with hashes added to it one by one. -/
def addAll (h : HyperLogLog) (hashes : List (BitVec 64)) : Option HyperLogLog := hashes.foldlM add h

/-- Adding some hashes raises each register to the highest rank for it. -/
theorem register_addAll (h : HyperLogLog) (hreturns : ∀ hash ∈ hashes, Returns hash) :
    ∃ h', h.addAll hashes = some h' ∧ ∀ j, h'.register j = max (h.register j) (level hashes j) := by
  induction hashes generalizing h with
  | nil => exact ⟨h, rfl, fun j => by simp [level]⟩
  | cons hash hashes ih =>
      obtain ⟨hhash, hhashes⟩ := List.forall_mem_cons.mp hreturns
      obtain ⟨h₁, hadd, hregister₁⟩ := register_add h hhash
      obtain ⟨h₂, haddAll, hregister₂⟩ := ih h₁ hhashes
      refine ⟨h₂, ?_, fun j => ?_⟩
      · unfold addAll at haddAll ⊢
        rw [List.foldlM_cons, hadd]
        exact haddAll
      · rw [hregister₂, hregister₁, level, level, List.toFinset_cons, Finset.filter_insert]
        by_cases hj : j = regIdx hash
        · rw [if_pos hj, if_pos hj.symm, Finset.sup_insert, max_assoc]
        · rw [if_neg hj, if_neg (Ne.symm hj)]

/-- The level of two lists is the greater of theirs. -/
theorem level_append (xs ys : List (BitVec 64)) (j : Nat) :
    level (xs ++ ys) j = max (level xs j) (level ys j) := by
  unfold level
  rw [List.toFinset_append, Finset.filter_union, Finset.sup_union]

/-- Neither order nor repetition matters for a level. -/
theorem level_congr {xs ys : List (BitVec 64)} (h : ∀ hash, hash ∈ xs ↔ hash ∈ ys) (j : Nat) :
    level xs j = level ys j := by
  have hset : xs.toFinset = ys.toFinset := by
    ext hash
    simp [h]
  rw [level, level, hset]

/-- The same value in every register. -/
def Agree (h h' : HyperLogLog) : Prop := ∀ i < kNumRegisters, h.getRegister i = h'.getRegister i

/-- Sketches with the same registers agree. -/
theorem agree_of_register {h h' : HyperLogLog}
    (heq : ∀ i < kNumRegisters, h.register i = h'.register i) : h.Agree h' :=
  fun i hi => BitVec.eq_of_toNat_eq (heq i hi)

/-- Merging is commutative. -/
theorem merge_comm (x y : HyperLogLog) : (x.merge y).Agree (y.merge x) :=
  agree_of_register fun i hi => by rw [register_merge x y hi, register_merge y x hi, max_comm]

/-- Merging is associative. -/
theorem merge_assoc (x y z : HyperLogLog) : ((x.merge y).merge z).Agree (x.merge (y.merge z)) :=
  agree_of_register fun i hi => by
    rw [register_merge _ z hi, register_merge x y hi, register_merge x _ hi, register_merge y z hi,
      max_assoc]

/-- Merging a sketch with itself changes nothing. -/
theorem merge_self (x : HyperLogLog) : (x.merge x).Agree x :=
  agree_of_register fun i hi => by rw [register_merge x x hi, max_self]

/-- The sketch goes by the set of the hashes added. -/
theorem addAll_congr (x : HyperLogLog) {xs ys : List (BitVec 64)}
    (hreturns : ∀ hash ∈ xs, Returns hash) (hsame : ∀ hash, hash ∈ ys ↔ hash ∈ xs) :
    ∃ s s', x.addAll xs = some s ∧ x.addAll ys = some s' ∧ s.Agree s' := by
  obtain ⟨s, hs, hregister⟩ := register_addAll x hreturns
  obtain ⟨s', hs', hregister'⟩ := register_addAll x fun hash hmem =>
    hreturns hash ((hsame hash).mp hmem)
  refine ⟨s, s', hs, hs', agree_of_register fun i _ => ?_⟩
  rw [hregister, hregister', level_congr hsame]

/-- **Merge is the join.**  Two sketches merged are the sketch of all hashes added to either, in any
order and however often; so `Merge` is commutative, associative and idempotent on registers, and
the order in which hashes are added does not matter. -/
theorem merge_is_join {xs ys : List (BitVec 64)} (hxs : ∀ hash ∈ xs, Returns hash)
    (hys : ∀ hash ∈ ys, Returns hash) :
    (∀ b b' b'' zs, (∀ hash, hash ∈ zs ↔ hash ∈ xs ∨ hash ∈ ys) →
      ∃ s s' s'', (new b).addAll xs = some s ∧ (new b').addAll ys = some s' ∧
        (new b'').addAll zs = some s'' ∧ (s.merge s').Agree s'') ∧
      (∀ x y : HyperLogLog, (x.merge y).Agree (y.merge x)) ∧
      (∀ x y z : HyperLogLog, ((x.merge y).merge z).Agree (x.merge (y.merge z))) ∧
      (∀ x : HyperLogLog, (x.merge x).Agree x) ∧
      ∀ (x : HyperLogLog) (zs : List (BitVec 64)), (∀ hash, hash ∈ zs ↔ hash ∈ xs) →
        ∃ s s', x.addAll xs = some s ∧ x.addAll zs = some s' ∧ s.Agree s' := by
  refine ⟨fun b b' b'' zs hzs => ?_, merge_comm, merge_assoc, merge_self, fun x zs hzs =>
    addAll_congr x hxs hzs⟩
  have hreturns : ∀ hash ∈ zs, Returns hash := fun hash hmem =>
    ((hzs hash).mp hmem).elim (hxs hash) (hys hash)
  obtain ⟨s, hs, hregister⟩ := register_addAll (new b) hxs
  obtain ⟨s', hs', hregister'⟩ := register_addAll (new b') hys
  obtain ⟨s'', hs'', hregister''⟩ := register_addAll (new b'') hreturns
  refine ⟨s, s', s'', hs, hs', hs'', agree_of_register fun i hi => ?_⟩
  have hlevel : level zs i = max (level xs i) (level ys i) := by
    rw [← level_append]
    exact level_congr (fun hash => by rw [hzs, List.mem_append]) i
  rw [register_merge s s' hi, hregister, hregister', hregister'', register_new b hi,
    register_new b' hi, register_new b'' hi, hlevel]
  simp

/-- Two hashes for different registers, one of them without a bit set. -/
theorem merge_is_join_two :
    ∃ s s' s'', (new 0).addAll [0] = some s ∧ (new 0).addAll [0x0005000000000000] = some s' ∧
      (new 0).addAll [0x0005000000000000, 0, 0] = some s'' ∧ (s.merge s').Agree s'' := by
  have hreturns : ∀ hash ∈ [(0x0005000000000000 : BitVec 64)], Returns hash := by
    intro hash hmem
    rw [List.mem_singleton.mp hmem]
    exact ⟨2, by decide⟩
  have hzero : ∀ hash ∈ [(0 : BitVec 64)], Returns hash := by
    intro hash hmem
    rw [List.mem_singleton.mp hmem]
    exact ⟨0, by decide⟩
  exact (merge_is_join hzero hreturns).1 0 0 0 _ fun hash => by simp [or_comm]

end HyperLogLog

end AstraKV
