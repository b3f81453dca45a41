import AstraKV.Data.Bitmap
import AstraKV.Lib.Span

/-!
# AstraKV.Data.BitRange

Counting and searching the bits of a range of bytes (`BitCount` and `BitPos`
of `bitmap.hpp`).

A byte that is not in the string has no value here, so a result says that no
access left the string.

`offsets` is the set of bit places that a range of bytes covers once its ends
are counted from the right side and clamped to the string; both functions are
described by it. `BitCount` is the number of ones among these places. `BitPos`
finds the first place with the bit looked for, and -1 when there is none, also
when it looks for a zero and the range ends at the end of the string.
-/

namespace AstraKV

open Span

namespace Bitmap

/-- Shifting right halves a byte. -/
theorem toNat_shiftRight_one (byte : UInt8) : (byte >>> 1).toNat = byte.toNat / 2 := by
  rw [UInt8.toNat_shiftRight]
  exact Nat.shiftRight_eq_div_pow byte.toNat 1

/-- The loop of `PopCount`. -/
def popCountLoop (byte count : UInt8) : UInt8 :=
  if byte = 0 then count else popCountLoop (byte >>> 1) (count + (byte &&& 1))
termination_by byte.toNat
decreasing_by
  rename_i hbyte
  have hpos : byte.toNat ≠ 0 := fun h => hbyte (UInt8.toNat.inj h)
  rw [toNat_shiftRight_one]
  omega

def popCount (byte : UInt8) : UInt8 := popCountLoop byte 0

def byteAt? (s : Bytes) (i : Int) : Option UInt8 := if i < 0 then none else s[i.toNat]?

/-- What `BitCount` and `BitPos` do alike to their range: a result for a range without bytes, and
one from the first and the last byte. -/
def bounded {β : Type} (s : Bytes) (start stop : Int) (outside : β) (inside : Int → Int → β) : β :=
  let len : Int := s.length
  if len = 0 then outside
  else
    let start := if start < 0 then len + start else start
    let stop := if stop < 0 then len + stop else stop
    let start := if start < 0 then 0 else start
    let stop := if stop ≥ len then len - 1 else stop
    if start > stop then outside else inside start stop

/-- The loop of `BitCount`, for `n` bytes from byte `i` on. -/
def bitCountLoop (s : Bytes) : Nat → Int → Int → Option Int
  | 0, _, count => some count
  | n + 1, i, count => do
      let byte ← byteAt? s i
      bitCountLoop s n (i + 1) (count + (popCount byte).toNat)

def bitCount (s : Bytes) (start stop : Int) : Option Int :=
  bounded s start stop (some 0) fun start stop => bitCountLoop s (stop - start + 1).toNat start 0

/-- The inner loop of `BitPos`. -/
def bitInByte (byte : UInt8) (target : Bool) : Option Nat :=
  (List.range 8).find? fun bitIdx =>
    (byte >>> UInt8.ofNat (7 - bitIdx)) &&& 1 = if target then 1 else 0

/-- The outer loop of `BitPos`, for `n` bytes from byte `byteIdx` on. -/
def bitPosLoop (s : Bytes) (target : Bool) : Nat → Int → Option Int
  | 0, _ => some (-1)
  | n + 1, byteIdx => do
      let byte ← byteAt? s byteIdx
      match bitInByte byte target with
      | some bitIdx => some (byteIdx * 8 + bitIdx)
      | none => bitPosLoop s target n (byteIdx + 1)

def bitPos (s : Bytes) (bit start stop : Int) : Option Int :=
  bounded s start stop (some (-1)) fun start stop =>
    bitPosLoop s (bit == 1) (stop - start + 1).toNat start

/-! ## the bits of a byte -/

variable {s : Bytes} {byte : UInt8} {start stop : Int} {target : Bool} {i k n : Nat}

/-- Masking with one leaves the parity. -/
theorem and_one (byte : UInt8) : byte &&& 1 = UInt8.ofNat (byte.toNat % 2) := by
  apply UInt8.toNat.inj
  rw [UInt8.toNat_and, UInt8.toNat_ofNat']
  show byte.toNat &&& 1 = byte.toNat % 2 % 256
  rw [Nat.and_one_is_mod]
  omega

/-- The loop adds the bits of the byte to the count. -/
theorem popCountLoop_eq {count : UInt8} (h : byte.toNat < 2 ^ n) :
    popCountLoop byte count =
      count + UInt8.ofNat (∑ k ∈ Finset.range n, byte.toNat / 2 ^ k % 2) := by
  induction n generalizing byte count with
  | zero =>
      have hzero : byte = 0 := UInt8.toNat.inj (by simpa using h)
      rw [popCountLoop, if_pos hzero]
      simp
  | succ n ih =>
      rw [popCountLoop]
      split
      · rename_i hzero
        simp [hzero]
      · have hhalf : (byte >>> 1).toNat < 2 ^ n := by
          rw [toNat_shiftRight_one]
          omega
        have hrest : ∀ k, (byte >>> 1).toNat / 2 ^ k % 2 = byte.toNat / 2 ^ (k + 1) % 2 := by
          intro k
          rw [toNat_shiftRight_one, Nat.div_div_eq_div_mul, Nat.pow_succ']
        rw [ih hhalf, Finset.sum_range_succ', UInt8.ofNat_add, and_one]
        simp only [hrest, Nat.pow_zero, Nat.div_one]
        grind

/-- Seen from the highest bit, as `GetBit` counts. -/
theorem getMsbD_toNat (hk : k < 8) :
    (if byte.toBitVec.getMsbD k then 1 else 0) = byte.toNat / 2 ^ (7 - k) % 2 := by
  have hbit : byte.toBitVec.getMsbD k = byte.toNat.testBit (7 - k) := by
    rw [BitVec.getMsbD_eq_getLsbD]
    simp [hk, BitVec.getLsbD]
  rw [hbit, Nat.testBit_eq_decide_div_mod_eq]
  simp only [decide_eq_true_eq]
  split <;> omega

/-- `PopCount` counts the bits that are set. -/
theorem toNat_popCount :
    (popCount byte).toNat =
      ∑ k ∈ Finset.range 8, if byte.toBitVec.getMsbD k then 1 else 0 := by
  have hsum : (∑ k ∈ Finset.range 8, if byte.toBitVec.getMsbD k then 1 else 0) =
      ∑ k ∈ Finset.range 8, byte.toNat / 2 ^ k % 2 := by
    rw [← Finset.sum_range_reflect]
    refine Finset.sum_congr rfl fun k hk => ?_
    have hlt := Finset.mem_range.mp hk
    rw [getMsbD_toNat (by omega), show 7 - (8 - 1 - k) = k by omega]
  have hsmall : (∑ k ∈ Finset.range 8, byte.toNat / 2 ^ k % 2) ≤ 8 := by
    refine (Finset.sum_le_card_nsmul _ _ 1 fun k _ => ?_).trans (by simp)
    omega
  rw [popCount, popCountLoop_eq byte.toNat_lt, hsum, UInt8.zero_add, UInt8.toNat_ofNat']
  exact Nat.mod_eq_of_lt (by omega)

/-- The bits of a string, byte by byte. -/
theorem bits_byte (hk : k < 8) : bits s (8 * i + k) = (s.getD i 0).toBitVec.getMsbD k := by
  rw [bits, show (8 * i + k) / 8 = i by omega, show (8 * i + k) % 8 = k by omega]

/-- A byte within the string is read. -/
theorem byteAt?_eq_some (hi : i < s.length) : byteAt? s i = some (s.getD i 0) := by
  rw [byteAt?, if_neg (by omega), Int.toNat_natCast, List.getElem?_eq_getElem hi,
    List.getD_eq_getElem s 0 hi]

/-! ## the loops -/

/-- The bits set from one offset to another. -/
def bitsSet (s : Bytes) (a b : Nat) : Nat := ∑ p ∈ Finset.Ico a b, if bits s p then 1 else 0

/-- The ones of one byte are what `popCount` counts. -/
theorem bitsSet_byte : bitsSet s (8 * i) (8 * (i + 1)) = (popCount (s.getD i 0)).toNat := by
  rw [bitsSet, Finset.sum_Ico_eq_sum_range, toNat_popCount, show 8 * (i + 1) - 8 * i = 8 by omega]
  refine Finset.sum_congr rfl fun k hk => ?_
  rw [bits_byte (Finset.mem_range.mp hk)]

/-- The loop adds the ones of the bytes it passes. -/
theorem bitCountLoop_eq {count : Int} (h : i + n ≤ s.length) :
    bitCountLoop s n i count = some (count + bitsSet s (8 * i) (8 * (i + n))) := by
  induction n generalizing i count with
  | zero => simp [bitCountLoop, bitsSet]
  | succ n ih =>
      have hsplit : bitsSet s (8 * i) (8 * (i + (n + 1))) =
          bitsSet s (8 * i) (8 * (i + 1)) + bitsSet s (8 * (i + 1)) (8 * (i + 1 + n)) := by
        rw [bitsSet, bitsSet, bitsSet, show 8 * (i + (n + 1)) = 8 * (i + 1 + n) by omega]
        exact (Finset.sum_Ico_consecutive _ (by omega) (by omega)).symm
      have hrest : bitCountLoop s n (i + 1 : Nat) (count + (popCount (s.getD i 0)).toNat) = _ :=
        ih (by omega)
      push_cast at hrest
      rw [bitCountLoop, byteAt?_eq_some (by omega), Option.bind_eq_bind, Option.bind_some, hrest,
        hsplit, bitsSet_byte]
      push_cast
      rw [add_assoc]

/-- Within a byte the first place is found. -/
theorem bitInByte_eq :
    bitInByte byte target = (List.range 8).find? fun k => byte.toBitVec.getMsbD k == target := by
  refine List.find?_congr fun k hk => ?_
  rw [← shiftRight_and_one (List.mem_range.mp hk)]
  generalize byte >>> UInt8.ofNat (7 - k) = shifted
  obtain hbit | hbit : shifted &&& 1 = 0 ∨ shifted &&& 1 = 1 := by
    rw [and_one]
    obtain hmod | hmod := Nat.mod_two_eq_zero_or_one shifted.toNat <;> simp [hmod]
  · cases target <;> simp [hbit]
  · cases target <;> simp [hbit]

/-- The offsets of one bit value between two offsets. -/
def places (s : Bytes) (target : Bool) (a b : Nat) : Set Nat :=
  {p | a ≤ p ∧ p < b ∧ bits s p = target}

/-- The least member of a set, or -1. -/
def Finds (r : Int) (S : Set Nat) : Prop := r = -1 ∧ S = ∅ ∨ ∃ p : Nat, r = p ∧ IsLeast S p

/-- The places in a range that have the bit. -/
theorem mem_places {p a b : Nat} : p ∈ places s target a b ↔ a ≤ p ∧ p < b ∧ bits s p = target :=
  Iff.rfl

/-- The bits of byte `i` and those of the bytes after it. -/
theorem mem_places_succ {p : Nat} :
    p ∈ places s target (8 * i) (8 * (i + (n + 1))) ↔
      (∃ k < 8, p = 8 * i + k ∧ (s.getD i 0).toBitVec.getMsbD k = target) ∨
        p ∈ places s target (8 * (i + 1)) (8 * (i + 1 + n)) := by
  simp only [mem_places]
  constructor
  · rintro ⟨hle, hlt, hbit⟩
    by_cases hbyte : p < 8 * (i + 1)
    · refine .inl ⟨p - 8 * i, by omega, by omega, ?_⟩
      rwa [← bits_byte (by omega), show 8 * i + (p - 8 * i) = p by omega]
    · exact .inr ⟨by omega, by omega, hbit⟩
  · rintro (⟨k, hk, rfl, hbit⟩ | ⟨hle, hlt, hbit⟩)
    · exact ⟨by omega, by omega, by rwa [bits_byte hk]⟩
    · exact ⟨by omega, by omega, hbit⟩

/-- The loop finds the first place in the bytes it passes. -/
theorem bitPosLoop_finds (h : i + n ≤ s.length) :
    ∃ r, bitPosLoop s target n i = some r ∧ Finds r (places s target (8 * i) (8 * (i + n))) := by
  induction n generalizing i with
  | zero =>
      refine ⟨-1, rfl, .inl ⟨rfl, ?_⟩⟩
      ext p
      simp only [mem_places, Set.mem_empty_iff_false, iff_false]
      omega
  | succ n ih =>
      rw [bitPosLoop, byteAt?_eq_some (by omega), Option.bind_eq_bind, Option.bind_some,
        bitInByte_eq]
      cases hfind : (List.range 8).find? fun k => (s.getD i 0).toBitVec.getMsbD k == target with
      | none =>
          have hnone := List.find?_range_eq_none.mp hfind
          have hsame : places s target (8 * i) (8 * (i + (n + 1))) =
              places s target (8 * (i + 1)) (8 * (i + 1 + n)) := by
            ext p
            rw [mem_places_succ, or_iff_right]
            rintro ⟨k, hk, -, hbit⟩
            have hnot := hnone k hk
            rw [hbit] at hnot
            simp at hnot
          rw [hsame]
          exact ih (i := i + 1) (by omega)
      | some k =>
          obtain ⟨hbit, hk, hbefore⟩ := List.find?_range_eq_some.mp hfind
          refine ⟨i * 8 + k, rfl, .inr ⟨8 * i + k, by push_cast; ring, ?_, ?_⟩⟩
          · exact mem_places_succ.mpr (.inl ⟨k, List.mem_range.mp hk, rfl, by simpa using hbit⟩)
          · intro p hp
            obtain ⟨k', -, rfl, hbit'⟩ | ⟨hle, -⟩ := mem_places_succ.mp hp
            · have hnot : ¬ k' < k := fun hlt => by
                have hother := hbefore k' hlt
                rw [hbit'] at hother
                simp at hother
              omega
            · have hlt := List.mem_range.mp hk
              omega

/-! ## ranges -/

/-- The offsets of the bits in the bytes from `start` to `stop`. -/
def offsets (s : Bytes) (start stop : Int) : Finset Nat :=
  (Finset.range (8 * s.length)).filter fun p =>
    first s.length start ≤ (p / 8 : Nat) ∧ (p / 8 : Nat) ≤ last s.length stop

/-- The range is empty, or it is the bytes from `first` to `last`. -/
theorem bounded_eq {β : Type} {outside : β} {inside : Int → Int → β} :
    bounded s start stop outside inside =
      if last s.length stop < first s.length start then outside
      else inside (first s.length start) (last s.length stop) := by
  unfold bounded
  dsimp only
  by_cases hempty : (s.length : Int) = 0
  · rw [if_pos hempty, if_pos]
    have hfirst := first_nonneg s.length start
    have hlast := last_lt s.length stop
    omega
  · rw [if_neg hempty]
    have hstart : (if (if start < 0 then (s.length : Int) + start else start) < 0 then 0
        else if start < 0 then (s.length : Int) + start else start) = first s.length start := by
      unfold first position
      by_cases hneg : start < 0
      · rw [if_pos hneg]
        omega
      · rw [if_neg hneg, if_neg hneg]
        omega
    have hstop : (if (if stop < 0 then (s.length : Int) + stop else stop) ≥ s.length
        then (s.length : Int) - 1 else if stop < 0 then (s.length : Int) + stop else stop) =
        last s.length stop := by
      unfold last position
      by_cases hneg : stop < 0
      · rw [if_pos hneg]
        omega
      · rw [if_neg hneg]
        omega
    rw [hstart, hstop]

/-- The bytes of a range that is not empty. -/
theorem exists_bytes (h : first s.length start ≤ last s.length stop) :
    ∃ i n : Nat, first s.length start = i ∧
      (last s.length stop - first s.length start + 1).toNat = n ∧ i + n ≤ s.length ∧
      offsets s start stop = Finset.Ico (8 * i) (8 * (i + n)) := by
  have hfirst := first_nonneg s.length start
  have hlast := last_lt s.length stop
  refine ⟨(first s.length start).toNat, _, by omega, rfl, by omega, ?_⟩
  ext p
  rw [offsets, Finset.mem_filter, Finset.mem_range, Finset.mem_Ico]
  omega

/-- A range that ends before it begins covers nothing. -/
theorem offsets_eq_empty (h : last s.length stop < first s.length start) :
    offsets s start stop = ∅ := by
  refine Finset.filter_eq_empty_iff.mpr fun p _ => ?_
  omega

/-- `BitCount` is the number of ones among the places covered. -/
theorem bitCount_eq (s : Bytes) (start stop : Int) :
    bitCount s start stop =
      some (((offsets s start stop).filter fun p : Nat => bits s p = true).card : Int) := by
  rw [bitCount, bounded_eq]
  split
  · rename_i hempty
    rw [offsets_eq_empty hempty]
    rfl
  · rename_i hrange
    obtain ⟨i, n, hfirst, hn, hin, hoffsets⟩ := exists_bytes (not_lt.mp hrange)
    rw [hn, hfirst, bitCountLoop_eq hin, hoffsets, Finset.card_filter, bitsSet, Int.zero_add]

/-- `BitPos` finds the first place covered that has the bit. -/
theorem bitPos_finds (s : Bytes) (target : Bool) (start stop : Int) :
    ∃ r, bitPos s (if target then 1 else 0) start stop = some r ∧
      Finds r {p | p ∈ offsets s start stop ∧ bits s p = target} := by
  have htarget : ((if target then 1 else 0 : Int) == 1) = target := by cases target <;> rfl
  rw [bitPos, bounded_eq, htarget]
  split
  · rename_i hempty
    refine ⟨-1, rfl, .inl ⟨rfl, ?_⟩⟩
    rw [offsets_eq_empty hempty]
    simp
  · rename_i hrange
    obtain ⟨i, n, hfirst, hn, hin, hoffsets⟩ := exists_bytes (not_lt.mp hrange)
    obtain ⟨r, hr, hfinds⟩ :
        ∃ r, bitPosLoop s target n i = some r ∧ Finds r (places s target (8 * i) (8 * (i + n))) :=
      bitPosLoop_finds hin
    have hsame : {p | p ∈ offsets s start stop ∧ bits s p = target} =
        places s target (8 * i) (8 * (i + n)) := by
      ext p
      rw [hoffsets]
      simp [places, and_assoc]
    rw [hn, hfirst, hsame]
    exact ⟨r, hr, hfinds⟩

/-- **`BitCount` and `BitPos` agree with `GetBit`** on every range of bytes. -/
theorem bitCount_bitPos (s : Bytes) (start stop : Int) :
    bitCount s start stop =
        some (((offsets s start stop).filter fun p : Nat => getBit s p = true).card : Int) ∧
      ∀ target : Bool, ∃ r, bitPos s (if target then 1 else 0) start stop = some r ∧
        (r = -1 ↔ ∀ p ∈ offsets s start stop, getBit s (p : Nat) ≠ target) ∧
        ∀ p : Nat, r = p ↔
          IsLeast {q : Nat | q ∈ offsets s start stop ∧ getBit s q = target} p := by
  simp only [getBit_natCast]
  refine ⟨bitCount_eq s start stop, fun target => ?_⟩
  obtain ⟨r, hr, hfinds⟩ := bitPos_finds s target start stop
  refine ⟨r, hr, ?_⟩
  obtain ⟨rfl, hnone⟩ | ⟨p, rfl, hleast⟩ := hfinds
  · have hall : ∀ p ∈ offsets s start stop, bits s p ≠ target := fun p hp hbit =>
      Set.eq_empty_iff_forall_notMem.mp hnone p ⟨hp, hbit⟩
    refine ⟨iff_of_true rfl hall, fun p => iff_of_false (by omega) fun hleast => ?_⟩
    exact hall p hleast.1.1 hleast.1.2
  · refine ⟨iff_of_false (by omega) fun hall => hall p hleast.1.1 hleast.1.2, fun q => ?_⟩
    rw [Nat.cast_inj]
    exact ⟨fun heq => heq ▸ hleast, fun hq => hleast.unique hq⟩

end Bitmap

end AstraKV
