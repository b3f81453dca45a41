import AstraKV.Data.HyperLogLog

/-!
# AstraKV.Data.SketchCopy

Sketches written out and loaded again (`Data` and `LoadData`).  The bytes of
the array are the state of a sketch: what is loaded goes on as the original.

Two sketches `Agree` when the bits of their arrays do, whatever the byte
beyond is. `Data` copies the array, `LoadData` overwrites as much of it as it
is given, and what is computed from a sketch depends on agreement alone; so a
sketch that was loaded and the one it was taken from stay alike under all
operations, including those that do not return.
-/

namespace AstraKV

open BitField

namespace HyperLogLog

/-- `sizeof(registers_)`, also `MemoryUsage`. -/
def dataSize : Nat := kNumRegisters * kBitsPerRegister / 8

/-- What `Data` points to. -/
def data (h : HyperLogLog) : Memory := h.registers.take dataSize

def clear (h : HyperLogLog) : HyperLogLog :=
  ⟨List.replicate dataSize 0 ++ h.registers.drop dataSize, by
    have hsize := h.size
    unfold dataSize at *
    simp [hsize]⟩

/-- `memcpy` of no more bytes than the array has; `src` must have them. -/
def loadData (h : HyperLogLog) (src : Memory) (size : Nat) : Option HyperLogLog :=
  let n := if size < dataSize then size else dataSize
  if hroom : n ≤ src.length then
    some ⟨src.take n ++ h.registers.drop n, by
      have hsize := h.size
      have hn : n ≤ dataSize := by
        dsimp only [n]
        split <;> omega
      unfold dataSize at hn
      rw [List.length_append, List.length_take_of_le hroom, List.length_drop, hsize]
      omega⟩
  else none

variable {h h' t : HyperLogLog} {i j p : Nat}

/-! ## the bytes and the registers -/

/-- A sketch is written out in full. -/
theorem length_data : h.data.length = dataSize := by
  have hsize := h.size
  unfold data dataSize
  rw [List.length_take, hsize]
  omega

/-- Every bit of the array belongs to a register. -/
theorem bit_of_agree (hagree : h.Agree h') (hp : p < 8 * dataSize) :
    bit h.registers p = bit h'.registers p := by
  have hi : p / 6 < kNumRegisters := by
    unfold dataSize kNumRegisters kBitsPerRegister at *
    omega
  have hn : p % 6 < 8 := by omega
  have hbit := congrArg (fun v : BitVec 8 => v.getLsbD (p % 6)) (hagree (p / 6) hi)
  simp only [getLsbD_getRegister hn, Nat.mod_lt p (show 6 > 0 by decide), decide_true,
    Bool.true_and, Nat.div_add_mod] at hbit
  exact hbit

/-- Sketches with the same bits agree. -/
theorem agree_of_bit (hbit : ∀ p < 8 * dataSize, bit h.registers p = bit h'.registers p) :
    h.Agree h' := by
  intro i hi
  refine BitVec.eq_of_getLsbD_eq fun n hn => ?_
  rw [getLsbD_getRegister hn, getLsbD_getRegister hn]
  by_cases hlow : n < 6
  · have hp : 6 * i + n < 8 * dataSize := by
      unfold dataSize kNumRegisters kBitsPerRegister at *
      omega
    rw [hbit _ hp]
  · simp [hlow]

/-- The bits of a front are those of the whole. -/
theorem bit_take (mem : Memory) {n : Nat} (hp : p < 8 * n) : bit (mem.take n) p = bit mem p := by
  have hbyte : p / 8 < n := by omega
  unfold bit
  rw [List.getD_eq_getElem?_getD, List.getD_eq_getElem?_getD, List.getElem?_take_of_lt hbyte]

/-- Bytes with the same bits are equal. -/
theorem byte_eq_of_bit {mem mem' : Memory} {n : Nat}
    (hbit : ∀ m < 8, bit mem (8 * n + m) = bit mem' (8 * n + m)) :
    mem.getD n 0 = mem'.getD n 0 := by
  refine BitVec.eq_of_getLsbD_eq fun m hm => ?_
  have hdiv : (8 * n + m) / 8 = n := by omega
  have hmod : (8 * n + m) % 8 = m := by omega
  have hm' := hbit m hm
  unfold bit at hm'
  rwa [hdiv, hmod] at hm'

/-- The bytes are the registers. -/
theorem data_eq_iff : h.data = h'.data ↔ h.Agree h' := by
  constructor
  · intro hdata
    refine agree_of_bit fun p hp => ?_
    rw [← bit_take h.registers hp, ← bit_take h'.registers hp]
    exact congrArg (bit · p) hdata
  · intro hagree
    refine List.ext_getElem (by rw [length_data, length_data]) fun n hn hn' => ?_
    have hsize : n < dataSize := by rwa [length_data] at hn
    have hbyte : h.data.getD n 0 = h'.data.getD n 0 := byte_eq_of_bit fun m hm => by
      unfold data
      rw [bit_take _ (by omega), bit_take _ (by omega)]
      exact bit_of_agree hagree (by omega)
    rwa [List.getD_eq_getElem _ _ hn, List.getD_eq_getElem _ _ hn'] at hbyte

/-! ## loading -/

/-- A bit of the front of two parts. -/
theorem bit_append_of_lt {mem mem' : Memory} (hp : p < 8 * mem.length) :
    bit (mem ++ mem') p = bit mem p := by
  unfold bit
  rw [List.getD_append _ _ _ _ (by omega)]

/-- A bit behind a front that was overwritten. -/
theorem bit_append_drop {mem mem' : Memory} {n : Nat} (hlen : mem.length = n) (hp : 8 * n ≤ p) :
    bit (mem ++ mem'.drop n) p = bit mem' p := by
  have hbyte : mem.length ≤ p / 8 := by omega
  unfold bit
  rw [List.getD_append_right _ _ _ _ hbyte, List.getD_eq_getElem?_getD, List.getElem?_drop, hlen,
    Nat.add_sub_cancel' (hlen ▸ hbyte), List.getD_eq_getElem?_getD]

/-- The bits that are loaded, and those that are not. -/
theorem bit_loadData {src : Memory} {size : Nat} (hload : h.loadData src size = some t) :
    bit t.registers p =
      if p < 8 * min size dataSize then bit src p else bit h.registers p := by
  unfold loadData at hload
  have hn : (if size < dataSize then size else dataSize) = min size dataSize := by
    split <;> omega
  simp only [hn] at hload
  split at hload
  · rename_i hroom
    obtain rfl := Option.some.inj hload
    have hlen : (src.take (min size dataSize)).length = min size dataSize :=
      List.length_take_of_le hroom
    split
    · rename_i hp
      rw [bit_append_of_lt (by rwa [hlen]), bit_take _ hp]
    · rename_i hp
      exact bit_append_drop hlen (not_lt.mp hp)
  · cases hload

/-- Loading has a result if the source has the bytes asked for. -/
theorem loadData_isSome {src : Memory} {size : Nat} :
    (h.loadData src size).isSome = decide (min size dataSize ≤ src.length) := by
  have hn : (if size < dataSize then size else dataSize) = min size dataSize := by
    split <;> omega
  unfold loadData
  simp only [hn]
  split <;> simp [*]

/-- After `Clear` every bit is zero. -/
theorem bit_clear (hp : p < 8 * dataSize) : bit h.clear.registers p = false := by
  unfold clear
  rw [bit_append_of_lt (by rwa [List.length_replicate]), bit,
    List.getD_eq_getElem _ _ (by rw [List.length_replicate]; omega), List.getElem_replicate]
  simp

/-! ## runs -/

/-- What may be done with a sketch. -/
inductive SketchOp where
  | add (hash : BitVec 64)
  | merge (other : HyperLogLog)
  | clear
  | loadData (src : Memory) (size : Nat)

/-- Nothing comes of an `Add` that does not return, or of a load from too few bytes. -/
def apply (h : HyperLogLog) : SketchOp → Option HyperLogLog
  | .add hash => h.add hash
  | .merge other => some (h.merge other)
  | .clear => some h.clear
  | .loadData src size => h.loadData src size

/-- Sketches that agree take a hash alike. -/
theorem Agree.add (hagree : h.Agree h') (hash : BitVec 64) :
    (h.add hash = none ∧ h'.add hash = none) ∨
      ∃ s s', h.add hash = some s ∧ h'.add hash = some s' ∧ s.Agree s' := by
  unfold HyperLogLog.add
  cases hzeros : zeros hash with
  | none => exact .inl ⟨rfl, rfl⟩
  | some count =>
      have hidx : (hash >>> 50).toNat < kNumRegisters := regIdx_lt
      refine .inr ⟨_, _, rfl, rfl, fun i hi => ?_⟩
      dsimp only
      rw [← hagree _ hidx]
      split
      · rw [getRegister_setRegister hidx, getRegister_setRegister hidx, hagree i hi]
      · exact hagree i hi

/-- Sketches that agree merge alike. -/
theorem Agree.merge (hagree : h.Agree h') (other : HyperLogLog) :
    (h.merge other).Agree (h'.merge other) := by
  refine agree_of_register fun i hi => ?_
  have hregister : h.register i = h'.register i := congrArg BitVec.toNat (hagree i hi)
  rw [register_merge h other hi, register_merge h' other hi, hregister]

/-- Sketches that agree go on alike. -/
theorem Agree.apply (hagree : h.Agree h') (op : SketchOp) :
    (h.apply op = none ∧ h'.apply op = none) ∨
      ∃ s s', h.apply op = some s ∧ h'.apply op = some s' ∧ s.Agree s' := by
  cases op with
  | add hash => exact hagree.add hash
  | merge other => exact .inr ⟨_, _, rfl, rfl, hagree.merge other⟩
  | clear =>
      refine .inr ⟨_, _, rfl, rfl, agree_of_bit fun p hp => ?_⟩
      rw [bit_clear hp, bit_clear hp]
  | loadData src size =>
      by_cases hroom : min size dataSize ≤ src.length
      · obtain ⟨s, hs⟩ := Option.isSome_iff_exists.mp
          ((loadData_isSome (h := h)).trans (decide_eq_true hroom))
        obtain ⟨s', hs'⟩ := Option.isSome_iff_exists.mp
          ((loadData_isSome (h := h')).trans (decide_eq_true hroom))
        refine .inr ⟨s, s', hs, hs', agree_of_bit fun p hp => ?_⟩
        rw [bit_loadData hs, bit_loadData hs', bit_of_agree hagree hp]
      · have hnone : ∀ x : HyperLogLog, x.loadData src size = none := fun x => by
          rw [← Option.not_isSome_iff_eq_none, loadData_isSome]
          simp [hroom]
        exact .inl ⟨hnone h, hnone h'⟩

/-- Sketches that agree are written out alike after the same operations. -/
theorem Agree.run (hagree : h.Agree h') (ops : List SketchOp) :
    (ops.foldlM HyperLogLog.apply h).map data = (ops.foldlM HyperLogLog.apply h').map data := by
  induction ops generalizing h h' with
  | nil => exact congrArg some (data_eq_iff.mpr hagree)
  | cons op ops ih =>
      rw [List.foldlM_cons, List.foldlM_cons]
      obtain ⟨hnone, hnone'⟩ | ⟨s, s', hs, hs', hagree'⟩ := hagree.apply op
      · rw [hnone, hnone']
      · rw [hs, hs']
        exact ih hagree'

/-- **A sketch that is written out and loaded goes on as the original**, whatever it is loaded over:
the bytes are the same, and after any operations they still are, or neither sketch gets there.  Two
sketches have the same bytes just when they have the same registers. -/
theorem loaded_sketch_goes_on (h t : HyperLogLog) :
    (∃ t', t.loadData h.data dataSize = some t' ∧ t'.data = h.data ∧
      ∀ ops : List SketchOp, (ops.foldlM apply t').map data = (ops.foldlM apply h).map data) ∧
    (h.data = t.data ↔ ∀ i < kNumRegisters, h.getRegister i = t.getRegister i) := by
  refine ⟨?_, data_eq_iff⟩
  have hroom : min dataSize dataSize ≤ h.data.length := by rw [length_data, min_self]
  obtain ⟨t', ht'⟩ := Option.isSome_iff_exists.mp
    ((loadData_isSome (h := t)).trans (decide_eq_true hroom))
  have hagree : t'.Agree h := agree_of_bit fun p hp => by
    rw [bit_loadData ht', min_self, if_pos hp, data, bit_take _ hp]
  exact ⟨t', ht', data_eq_iff.mpr hagree, hagree.run⟩

end HyperLogLog

end AstraKV
