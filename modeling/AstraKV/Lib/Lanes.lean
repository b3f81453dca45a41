import Mathlib

/-!
# AstraKV.Lib.Lanes

Registers of bytes: one operation on all lanes at once, comparisons that fill
a lane with ones, the mask of the highest bits.

A load that leaves its buffer has no value.  `forBlocks` are the offsets of a
loop over whole blocks, and `loop` runs one until its body says stop.
-/

universe u

namespace Lanes

/-- A register of `w` bytes. -/
abbrev Reg (w : Nat) := Fin w → UInt8

variable {w n i : Nat} {x y : Reg w}

/-! ## registers -/

def set1 (b : UInt8) : Reg w := fun _ => b

def and (x y : Reg w) : Reg w := fun i => x i &&& y i

def or (x y : Reg w) : Reg w := fun i => x i ||| y i

/-- The bytes compared as signed numbers. -/
def cmpgt (x y : Reg w) : Reg w := fun i => if (y i).toInt8 < (x i).toInt8 then 255 else 0

def cmpeq (x y : Reg w) : Reg w := fun i => if x i = y i then 255 else 0

/-- The highest bit of every lane, the first lane's the lowest. -/
def movemask (x : Reg w) : BitVec w := BitVec.ofFnLE fun i => decide (128 ≤ x i)

/-- The `w` bytes from `pos` on. -/
def load? (w : Nat) (data : List UInt8) (pos : Nat) : Option (Reg w) :=
  if h : pos + w ≤ data.length then some fun i => data.get ⟨pos + i, by omega⟩ else none

/-- A bit of the mask tells whether the lanes are equal. -/
theorem getLsbD_movemask_cmpeq (i : Fin w) :
    (movemask (cmpeq x y)).getLsbD i = decide (x i = y i) := by
  rw [movemask, BitVec.getLsbD_ofFnLE]
  by_cases h : x i = y i <;> simp [cmpeq, h]

/-- All bits are set if all lanes are equal. -/
theorem movemask_cmpeq_eq_allOnes :
    movemask (cmpeq x y) = BitVec.allOnes w ↔ ∀ i, x i = y i := by
  constructor
  · intro h i
    have hbit := getLsbD_movemask_cmpeq (x := x) (y := y) i
    rw [h] at hbit
    simpa using hbit
  · intro h
    refine BitVec.eq_of_getLsbD_eq fun i hi => ?_
    have hbit := getLsbD_movemask_cmpeq (x := x) (y := y) ⟨i, hi⟩
    simp only at hbit
    rw [hbit]
    simp [h, hi]

/-- No bit is set if no lanes are. -/
theorem movemask_cmpeq_eq_zero : movemask (cmpeq x y) = 0 ↔ ∀ i, x i ≠ y i := by
  constructor
  · intro h i
    have hbit := getLsbD_movemask_cmpeq (x := x) (y := y) i
    rw [h] at hbit
    simpa using hbit
  · intro h
    refine BitVec.eq_of_getLsbD_eq fun i hi => ?_
    have hbit := getLsbD_movemask_cmpeq (x := x) (y := y) ⟨i, hi⟩
    simp only at hbit
    rw [hbit]
    simp [h]

/-! ## loops -/

/-- `for (i = 0; i + w <= n; i += w)`. -/
def forBlocks (w n : Nat) : List Nat := (List.range (n / w)).map (· * w)

/-- A loop whose body says whether to stop, and the turns it took. -/
def loop (body : Nat → Option Bool) : List Nat → Option (Bool × List Nat)
  | [] => some (false, [])
  | i :: is => do
      if ← body i then some (true, [i])
      else
        let (stopped, turns) ← loop body is
        some (stopped, i :: turns)

/-- The offsets are the multiples of the width whose block fits. -/
theorem mem_forBlocks (hw : 0 < w) : i ∈ forBlocks w n ↔ w ∣ i ∧ i + w ≤ n := by
  simp only [forBlocks, List.mem_map, List.mem_range]
  constructor
  · rintro ⟨k, hk, rfl⟩
    have hle := Nat.mul_le_of_le_div w (k + 1) n hk
    rw [Nat.add_mul, Nat.one_mul] at hle
    exact ⟨Nat.dvd_mul_left w k, hle⟩
  · rintro ⟨⟨k, rfl⟩, hle⟩
    refine ⟨k, ?_, Nat.mul_comm k w⟩
    rw [← Nat.succ_le_iff, Nat.le_div_iff_mul_le hw, Nat.succ_mul, Nat.mul_comm k w]
    exact hle

/-- The blocks are the front of the buffer, without the bytes too few for a block. -/
theorem flatMap_forBlocks (base w n : Nat) :
    ((forBlocks w n).flatMap fun i => List.range' (base + i) w) = List.range' base (n / w * w) := by
  unfold forBlocks
  generalize n / w = count
  induction count with
  | zero => simp
  | succ count ih =>
      rw [List.range_succ, List.map_append, List.flatMap_append, ih, Nat.succ_mul,
        List.range'_append_1.symm]
      simp

/-- The blocks cover the front, up to a multiple of the width. -/
theorem exists_mem_forBlocks (q : Nat → Prop) :
    (∃ i ∈ forBlocks w n, ∃ j < w, q (i + j)) ↔ ∃ k < n / w * w, q k := by
  have hmem : ∀ k, k < n / w * w ↔ ∃ i ∈ forBlocks w n, ∃ j < w, i + j = k := by
    intro k
    have hflat := congrArg (k ∈ ·) (flatMap_forBlocks 0 w n)
    simp only [List.mem_flatMap, List.mem_range'_1, Nat.zero_add, Nat.zero_le, true_and] at hflat
    rw [← hflat]
    refine exists_congr fun i => and_congr_right fun _ => ?_
    exact ⟨fun h => ⟨k - i, by omega, by omega⟩, fun ⟨j, hj, heq⟩ => by omega⟩
  simp only [hmem]
  constructor
  · rintro ⟨i, hi, j, hj, hq⟩
    exact ⟨i + j, ⟨i, hi, j, hj, rfl⟩, hq⟩
  · rintro ⟨k, ⟨i, hi, j, hj, rfl⟩, hq⟩
    exact ⟨i, hi, j, hj, hq⟩

/-- The turns are those up to the first that stops, all of them if none does. -/
theorem loop_eq {body : Nat → Option Bool} {p : Nat → Bool} {is : List Nat}
    (h : ∀ i ∈ is, body i = some (p i)) :
    ∃ turns, loop body is = some (is.any p, turns) ∧ turns <+: is ∧
      (is.any p = false → turns = is) ∧ (is.any p = true → ∃ i ∈ turns, p i = true) := by
  induction is with
  | nil => exact ⟨[], rfl, List.prefix_refl [], fun _ => rfl, by simp⟩
  | cons i is ih =>
      rw [List.forall_mem_cons] at h
      cases hi : p i with
      | true => exact ⟨[i], by simp [loop, h.1, hi], by simp, by simp [hi], by simp [hi]⟩
      | false =>
          obtain ⟨turns, hloop, hprefix, hall, hsome⟩ := ih h.2
          refine ⟨i :: turns, by simp [loop, h.1, hi, hloop], ?_, ?_, ?_⟩
          · exact List.cons_prefix_cons.mpr ⟨rfl, hprefix⟩
          · intro hnone
            rw [List.any_cons, hi, Bool.false_or] at hnone
            rw [hall hnone]
          · intro hany
            rw [List.any_cons, hi, Bool.false_or] at hany
            obtain ⟨j, hj, hp⟩ := hsome hany
            exact ⟨j, List.mem_cons_of_mem i hj, hp⟩

/-- A load within its buffer has the bytes there. -/
theorem load?_eq_some {data : List UInt8} (h : i + w ≤ data.length) :
    ∃ chunk, load? w data i = some chunk ∧ ∀ j : Fin w, chunk j = data.getD (i + j) 0 := by
  refine ⟨_, dif_pos h, fun j => ?_⟩
  rw [List.get_eq_getElem]
  exact (List.getD_eq_getElem data 0 _).symm

end Lanes
