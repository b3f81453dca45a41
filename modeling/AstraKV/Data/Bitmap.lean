import AstraKV.Lib.LittleEndian

/-!
# AstraKV.Data.Bitmap

Bits of a string (`bitmap.hpp`), the highest bit of each byte first.

`bits` is what a string is as a bitmap: a sequence of bits without end.
`SetBit` updates it at one place.

`SetBit` at a place past the end makes the string longer first, with zero
bytes, and this growth is invisible in the sequence of bits. A negative place
is ignored by both `GetBit` and `SetBit`; the division and remainder by eight
are those of `int64_t`, which agree with those of natural numbers from zero
on.
-/

namespace AstraKV

namespace Bitmap

def getBit (s : Bytes) (offset : Int) : Bool :=
  if offset < 0 then false
  else
    let byteOff := offset / 8
    let bitInByte := 7 - offset % 8
    if byteOff ≥ s.length then false
    else (s.getD byteOff.toNat 0 >>> UInt8.ofNat bitInByte.toNat) &&& 1 != 0

/-- `std::string::resize` to a greater length, with `'\0'`. -/
def resize (s : Bytes) (size : Nat) : Bytes := s ++ List.replicate (size - s.length) 0

def setBit (s : Bytes) (offset : Int) (value : Int) : Bytes :=
  if offset < 0 then s
  else
    let byteOff := offset / 8
    let result := if byteOff + 1 > s.length then resize s (byteOff + 1).toNat else s
    let bitInByte := 7 - offset % 8
    let mask : UInt8 := 1 <<< UInt8.ofNat bitInByte.toNat
    result.modify byteOff.toNat fun byte => if value ≠ 0 then byte ||| mask else byte &&& ~~~mask

/-! ## bytes -/

variable {byte : UInt8} {s : Bytes} {k n : Nat} {v : Int}

/-- A shift of the byte is a shift of its bits. -/
theorem toBitVec_shiftRight (hk : k < 8) :
    (byte >>> UInt8.ofNat (7 - k)).toBitVec = byte.toBitVec >>> (7 - k) := by
  have hmod : (7 - k) % 256 % 8 = 7 - k := by omega
  simp [hmod]

/-- A shift to the right and a mask read one bit. -/
theorem shiftRight_and_one (hk : k < 8) :
    ((byte >>> UInt8.ofNat (7 - k)) &&& 1 != 0) = byte.toBitVec.getMsbD k := by
  have hbit : ((byte >>> UInt8.ofNat (7 - k)) &&& 1).toBitVec =
      BitVec.setWidth 8 (BitVec.ofBool (byte.toBitVec.getMsbD k)) := by
    rw [UInt8.toBitVec_and, toBitVec_shiftRight hk]
    refine BitVec.and_one_eq_setWidth_ofBool_getLsbD.trans ?_
    rw [BitVec.getLsbD_ushiftRight, BitVec.getMsbD_eq_getLsbD]
    simp [hk]
  rw [Bool.eq_iff_iff, bne_iff_ne, ne_eq, ← UInt8.toBitVec_inj, hbit]
  cases byte.toBitVec.getMsbD k <;> simp

/-- The mask for a place has one bit, at that place. -/
theorem getMsbD_mask : ∀ k < 8, ∀ n < 8,
    ((1 : UInt8) <<< UInt8.ofNat (7 - k)).toBitVec.getMsbD n = decide (n = k) := by
  decide

/-- The other bits of the byte stay. -/
theorem getMsbD_assign (hk : k < 8) (hn : n < 8) :
    (if v ≠ 0 then byte ||| ((1 : UInt8) <<< UInt8.ofNat (7 - k))
      else byte &&& ~~~((1 : UInt8) <<< UInt8.ofNat (7 - k))).toBitVec.getMsbD n =
      if n = k then decide (v ≠ 0) else byte.toBitVec.getMsbD n := by
  have hmask := getMsbD_mask k hk n hn
  by_cases hv : v = 0
  · rw [if_neg (not_not.mpr hv), UInt8.toBitVec_and, BitVec.getMsbD_and, UInt8.toBitVec_not,
      BitVec.getMsbD_not, hmask]
    by_cases hnk : n = k <;> simp [hv, hnk, hn, hk]
  · rw [if_pos hv, UInt8.toBitVec_or, BitVec.getMsbD_or, hmask]
    by_cases hnk : n = k <;> simp [hv, hnk]

/-! ## strings as bitmaps -/

def bits (s : Bytes) (n : Nat) : Bool := (s.getD (n / 8) 0).toBitVec.getMsbD (n % 8)

/-- No bit is set at a negative place. -/
theorem getBit_of_neg {p : Int} (hp : p < 0) : getBit s p = false := if_pos hp

/-- `GetBit` reads the sequence of bits. -/
theorem getBit_natCast : getBit s n = bits s n := by
  have hoff : ((n : Int) / 8).toNat = n / 8 := by omega
  have hbit : (7 - (n : Int) % 8).toNat = 7 - n % 8 := by omega
  unfold getBit bits
  rw [if_neg (by omega)]
  dsimp only
  rw [hoff, hbit, shiftRight_and_one (Nat.mod_lt n (by decide))]
  split
  · rename_i hend
    rw [List.getD_eq_default _ _ (by omega)]
    simp
  · rfl

/-- Growing gives the size asked for. -/
theorem length_resize {size : Nat} (hsize : s.length ≤ size) : (resize s size).length = size := by
  unfold resize
  simp
  omega

/-- Zeros behind the end are what is read there anyway. -/
theorem getD_resize {i size : Nat} : (resize s size).getD i 0 = s.getD i 0 := by
  unfold resize
  by_cases hi : i < s.length
  · rw [List.getD_append _ _ _ _ hi]
  · rw [List.getD_append_right _ _ _ _ (by omega), List.getD_eq_default s _ (by omega),
      List.getD_eq_getElem?_getD, List.getElem?_replicate]
    split <;> rfl

/-- The string that `SetBit` works on is long enough. -/
theorem length_grown :
    (if (n : Int) / 8 + 1 > (s.length : Int) then resize s (n / 8 + 1) else s).length =
      max s.length (n / 8 + 1) := by
  split
  · rw [length_resize (by omega)]
    omega
  · omega

/-- Growing shows in no byte. -/
theorem getD_grown {i : Nat} :
    (if (n : Int) / 8 + 1 > (s.length : Int) then resize s (n / 8 + 1) else s).getD i 0 =
      s.getD i 0 := by
  split
  · exact getD_resize
  · rfl

/-- Changing one byte leaves the others. -/
theorem getD_modify {f : UInt8 → UInt8} {i j : Nat} (hi : i < s.length) :
    (s.modify i f).getD j 0 = if j = i then f (s.getD j 0) else s.getD j 0 := by
  rw [List.getD_eq_getElem?_getD, List.getD_eq_getElem?_getD, List.getElem?_modify]
  by_cases hji : j = i
  · subst hji
    simp [hi]
  · simp [hji, Ne.symm hji]

/-- Setting a bit at a negative place does nothing. -/
theorem setBit_of_neg {o : Int} (ho : o < 0) : setBit s o v = s := if_pos ho

/-- The string grows just as far as the bit's byte. -/
theorem length_setBit : (setBit s n v).length = max s.length (n / 8 + 1) := by
  have hoff : ((n : Int) / 8 + 1).toNat = n / 8 + 1 := by omega
  unfold setBit
  rw [if_neg (by omega)]
  dsimp only
  rw [List.length_modify, hoff, length_grown]

/-- **One bit is updated.** -/
theorem bits_setBit : bits (setBit s n v) = Function.update (bits s) n (decide (v ≠ 0)) := by
  funext m
  have hoff : ((n : Int) / 8).toNat = n / 8 := by omega
  have hsize : ((n : Int) / 8 + 1).toNat = n / 8 + 1 := by omega
  have hbit : (7 - (n : Int) % 8).toNat = 7 - n % 8 := by omega
  have hmod : ∀ m : Nat, m % 8 < 8 := fun m => Nat.mod_lt m (by decide)
  unfold setBit
  rw [if_neg (by omega)]
  dsimp only
  rw [hoff, hsize, hbit]
  unfold bits
  rw [getD_modify (by rw [length_grown]; omega), getD_grown, Function.update_apply]
  by_cases hbyte : m / 8 = n / 8
  · rw [if_pos hbyte, getMsbD_assign (hmod n) (hmod m)]
    have hplace : m % 8 = n % 8 ↔ m = n := by omega
    simp only [hplace]
  · have hplace : m ≠ n := by
      rintro rfl
      exact hbyte rfl
    rw [if_neg hbyte, if_neg hplace]

/-- **Bits are independent.** -/
theorem setBit_assigns (s : Bytes) {o p : Int} (ho : 0 ≤ o) (hp : 0 ≤ p) (v : Int) :
    getBit (setBit s o v) o = decide (v ≠ 0) ∧
      (p ≠ o → getBit (setBit s o v) p = getBit s p) ∧
      ((setBit s o v).length : Int) = max (s.length : Int) (o / 8 + 1) ∧
      (p ≠ o → ∀ w q, getBit (setBit (setBit s o v) p w) q = getBit (setBit (setBit s p w) o v) q) ∧
      ∀ n < 0, setBit s n v = s := by
  lift o to Nat using ho
  lift p to Nat using hp
  have hne : (p : Int) ≠ o → p ≠ o := fun h heq => h (congrArg Nat.cast heq)
  refine ⟨?_, fun hpo => ?_, ?_, fun hpo w q => ?_, fun n hn => setBit_of_neg hn⟩
  · rw [getBit_natCast, bits_setBit, Function.update_self]
  · rw [getBit_natCast, bits_setBit, Function.update_of_ne (hne hpo), getBit_natCast]
  · rw [length_setBit]
    push_cast
    rfl
  · by_cases hq : q < 0
    · rw [getBit_of_neg hq, getBit_of_neg hq]
    · lift q to Nat using not_lt.mp hq
      rw [getBit_natCast, getBit_natCast, bits_setBit, bits_setBit, bits_setBit, bits_setBit,
        Function.update_comm (hne hpo)]

/-- The last bit of an empty string, and the first of the byte behind. -/
theorem setBit_assigns_seven :
    getBit (setBit [] 7 1) 7 = true ∧ getBit (setBit [] 7 1) 8 = getBit [] 8 :=
  have h := setBit_assigns [] (o := 7) (p := 8) (by decide) (by decide) 1
  ⟨h.1, h.2.1 (by decide)⟩

end Bitmap

end AstraKV
