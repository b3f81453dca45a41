import Mathlib

/-!
# AstraKV.Lib.BitField

Bits of a byte memory, little endian: reading and writing 16 bits at a time.

The memory is read as one long word (`bit`), in which a 16-bit access is a
window of sixteen consecutive bits. A field that straddles two bytes is then
nothing special. The second half has an end to the memory, and an access
beyond it has no result.
-/

namespace BitField

abbrev Memory := List (BitVec 8)

variable {mem : Memory} {pos n : Nat} {v : BitVec 16}

/-- Bit `n` of the memory, the lowest bit of each byte first. -/
def bit (mem : Memory) (n : Nat) : Bool := (mem.getD (n / 8) 0).getLsbD (n % 8)

def read16 (mem : Memory) (pos : Nat) : BitVec 16 :=
  (mem.getD pos 0).setWidth 16 ||| ((mem.getD (pos + 1) 0).setWidth 16 <<< 8)

def write16 (mem : Memory) (pos : Nat) (v : BitVec 16) : Memory :=
  (mem.set pos (v.setWidth 8)).set (pos + 1) ((v >>> 8).setWidth 8)

/-- Writing leaves the size of the memory. -/
@[simp] theorem length_write16 : (write16 mem pos v).length = mem.length := by
  simp [write16]

/-- What is read are sixteen bits of the memory. -/
theorem getLsbD_read16 (hn : n < 16) : (read16 mem pos).getLsbD n = bit mem (8 * pos + n) := by
  unfold read16 bit
  by_cases hlow : n < 8
  · have hdiv : (8 * pos + n) / 8 = pos := by omega
    have hmod : (8 * pos + n) % 8 = n := by omega
    rw [hdiv, hmod]
    simp [hn, hlow]
  · have hdiv : (8 * pos + n) / 8 = pos + 1 := by omega
    have hmod : (8 * pos + n) % 8 = n - 8 := by omega
    have hhigh : (mem.getD pos 0).getLsbD n = false := BitVec.getLsbD_of_ge _ _ (by omega)
    have hshift : n - 8 < 16 := by omega
    rw [hdiv, hmod, BitVec.getLsbD_or, BitVec.getLsbD_setWidth, BitVec.getLsbD_shiftLeft,
      BitVec.getLsbD_setWidth, hhigh]
    simp [hn, hlow, hshift]

theorem getD_set {i : Nat} {b : BitVec 8} (hpos : pos < mem.length) :
    (mem.set pos b).getD i 0 = if i = pos then b else mem.getD i 0 := by
  rw [List.getD_eq_getElem?_getD, List.getD_eq_getElem?_getD, List.getElem?_set]
  by_cases h : i = pos
  · simp [h, hpos]
  · simp [h, Ne.symm h]

/-- A write changes the 16 bits it is about. -/
theorem bit_write16 (hpos : pos + 1 < mem.length) :
    bit (write16 mem pos v) n =
      if 8 * pos ≤ n ∧ n < 8 * pos + 16 then v.getLsbD (n - 8 * pos) else bit mem n := by
  unfold bit write16
  rw [getD_set (by simpa using hpos), getD_set (by omega)]
  by_cases hhigh : n / 8 = pos + 1
  · have hin : 8 * pos ≤ n ∧ n < 8 * pos + 16 := by omega
    have hindex : 8 + n % 8 = n - 8 * pos := by omega
    rw [if_pos hhigh, if_pos hin, BitVec.getLsbD_setWidth, BitVec.getLsbD_ushiftRight, hindex]
    simp [Nat.mod_lt]
  by_cases hlow : n / 8 = pos
  · have hin : 8 * pos ≤ n ∧ n < 8 * pos + 16 := by omega
    have hindex : n % 8 = n - 8 * pos := by omega
    have hbyte : n - 8 * pos < 8 := by omega
    rw [if_neg hhigh, if_pos hlow, if_pos hin, BitVec.getLsbD_setWidth, hindex]
    simp [hbyte]
  · have hout : ¬ (8 * pos ≤ n ∧ n < 8 * pos + 16) := by omega
    rw [if_neg hhigh, if_neg hlow, if_neg hout]

/-! ## memory with an end -/

/-- Both bytes must be in the memory. -/
def read16? (mem : Memory) (pos : Nat) : Option (BitVec 16) := do
  let low ← mem[pos]?
  let high ← mem[pos + 1]?
  pure (low.setWidth 16 ||| (high.setWidth 16 <<< 8))

def write16? (mem : Memory) (pos : Nat) (v : BitVec 16) : Option Memory :=
  if pos + 1 < mem.length then some (write16 mem pos v) else none

/-- An access within the memory reads what is there. -/
theorem read16?_eq_some (hpos : pos + 1 < mem.length) :
    read16? mem pos = some (read16 mem pos) := by
  unfold read16? read16
  rw [List.getElem?_eq_getElem (by omega), List.getElem?_eq_getElem hpos,
    List.getD_eq_getElem _ _ (by omega), List.getD_eq_getElem _ _ hpos]
  rfl

/-- An access whose second byte is past the end has no result. -/
theorem read16?_eq_none (hpos : mem.length ≤ pos + 1) : read16? mem pos = none := by
  unfold read16?
  rw [List.getElem?_eq_none hpos]
  cases mem[pos]? <;> rfl

/-- More memory behind does not change what is read. -/
theorem read16_append (hpos : pos + 1 < mem.length) (rest : Memory) :
    read16 (mem ++ rest) pos = read16 mem pos := by
  unfold read16
  rw [List.getD_append _ _ _ _ (by omega), List.getD_append _ _ _ _ hpos]

/-- More memory behind is left as it is by a write. -/
theorem write16_append (hpos : pos + 1 < mem.length) (rest : Memory) :
    write16 (mem ++ rest) pos v = write16 mem pos v ++ rest := by
  unfold write16
  rw [List.set_append_left _ _ (by omega), List.set_append_left _ _ (by simpa using hpos)]

end BitField
