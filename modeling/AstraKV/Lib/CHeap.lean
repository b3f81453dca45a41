import Mathlib
import AstraKV.Lib.Fill

/-!
# AstraKV.Lib.CHeap

The heap over which a C library hands buffers to its callers: `malloc`, which
may refuse, a buffer written from the front, reads of it, and `free`.

What touches a block that is not there, or goes beyond its end, has no result.
An address is not used again, so that freeing a block twice is one of these;
and a heap with the blocks that it had before has lost none.
-/

/-- Which requests get a block, by their number and size, and what `malloc` finds in it. -/
structure Allocator where
  gives : Nat → Nat → Bool
  junk : Nat → UInt8

/-- The blocks by their addresses, and the number of requests so far. -/
structure CHeap where
  block : Nat → Option Bytes
  requests : Nat

namespace CHeap

open Filling

def malloc (A : Allocator) (size : Nat) (h : CHeap) : Option Nat × CHeap :=
  if A.gives h.requests size then
    (some h.requests,
      ⟨Function.update h.block h.requests (some ((List.range size).map A.junk)), h.requests + 1⟩)
  else (none, { h with requests := h.requests + 1 })

/-- Write into the block at `p`. -/
def fill (p : Option Nat) (write : Filling → Option Filling) (h : CHeap) : Option CHeap := do
  let p ← p
  let block ← h.block p
  let w ← write ⟨block, 0⟩
  some { h with block := Function.update h.block p (some w.buf) }

/-- The first `len` bytes of the block at `p`. -/
def read (p : Option Nat) (len : Nat) (h : CHeap) : Option Bytes := do
  let p ← p
  let block ← h.block p
  if len ≤ block.length then some (block.take len) else none

/-- The bytes before the first zero of the block at `p`. -/
def readCStr (p : Option Nat) (h : CHeap) : Option Bytes := do
  let p ← p
  let block ← h.block p
  if 0 ∈ block then some (block.takeWhile (· ≠ 0)) else none

def free (p : Option Nat) (h : CHeap) : Option CHeap :=
  match p with
  | none => some h
  | some p => (h.block p).map fun _ => { h with block := Function.update h.block p none }

/-! ## a buffer from `malloc` to `free` -/

/-- The next addresses are not in use. -/
def Fresh (h : CHeap) : Prop := ∀ p, h.requests ≤ p → h.block p = none

/-- With a new block. -/
def gave (h : CHeap) (bs : Bytes) : CHeap :=
  ⟨Function.update h.block h.requests (some bs), h.requests + 1⟩

/-- After `n` more requests, with no block of theirs left. -/
def asked (h : CHeap) (n : Nat) : CHeap := { h with requests := h.requests + n }

variable {A : Allocator} {h : CHeap} {bs : Bytes} {write : Filling → Option Filling}

/-- A request that was refused leaves the blocks. -/
@[simp] theorem block_asked (h : CHeap) (n : Nat) : (h.asked n).block = h.block := rfl

@[simp] theorem requests_asked (h : CHeap) (n : Nat) : (h.asked n).requests = h.requests + n := rfl

@[simp] theorem requests_gave (h : CHeap) (bs : Bytes) :
    (h.gave bs).requests = h.requests + 1 := rfl

@[simp] theorem asked_zero (h : CHeap) : h.asked 0 = h := rfl

/-- A request that was refused uses up an address. -/
theorem Fresh.asked (hfresh : h.Fresh) (n : Nat) : (h.asked n).Fresh := fun p hp =>
  hfresh p (Nat.le_of_add_right_le hp)

/-- An address given out is not given out again. -/
theorem Fresh.gave (hfresh : h.Fresh) (bs : Bytes) : (h.gave bs).Fresh := by
  intro p hp
  have hne : p ≠ h.requests := by
    rintro rfl
    exact Nat.not_succ_le_self _ hp
  unfold CHeap.gave
  dsimp only
  rw [Function.update_of_ne hne]
  exact hfresh p (Nat.le_of_succ_le hp)

/-- A refused request gives null. -/
theorem malloc_refused {size : Nat} (hgives : A.gives h.requests size = false) :
    malloc A size h = (none, h.asked 1) := by
  rw [malloc, if_neg (by simp [hgives])]
  rfl

/-- A granted one gives a block of bytes nobody has written. -/
theorem malloc_given {size : Nat} (hgives : A.gives h.requests size = true) :
    malloc A size h = (some h.requests, h.gave ((List.range size).map A.junk)) := by
  rw [malloc, if_pos hgives]
  rfl

/-- A new block of the right size has what is written and nothing else. -/
theorem fill_gave {junk : Bytes} (hwrite : Writes write bs) (hsize : junk.length = bs.length) :
    (h.gave junk).fill (some h.requests) write = some (h.gave bs) := by
  unfold fill gave
  simp only [Option.bind_eq_bind, Option.bind_some, Function.update_self, hwrite.fill hsize,
    Function.update_idem]

/-- The block just given is read back. -/
theorem read_gave {len : Nat} (hlen : len ≤ bs.length) :
    (h.gave bs).read (some h.requests) len = some (bs.take len) := by
  unfold read gave
  simp only [Option.bind_eq_bind, Option.bind_some, Function.update_self, if_pos hlen]

/-- As a C string it ends at its first zero byte. -/
theorem readCStr_gave (hmem : 0 ∈ bs) :
    (h.gave bs).readCStr (some h.requests) = some (bs.takeWhile (· ≠ 0)) := by
  unfold readCStr gave
  simp only [Option.bind_eq_bind, Option.bind_some, Function.update_self, if_pos hmem]

/-- Freeing it leaves the blocks there were before. -/
theorem free_gave (hfresh : h.Fresh) :
    (h.gave bs).free (some h.requests) = some (h.asked 1) := by
  have hnone := hfresh h.requests le_rfl
  unfold free gave asked
  simp only [Function.update_self, Option.map_some, Function.update_idem]
  rw [← hnone, Function.update_eq_self]

/-- The first of two new blocks is freed. -/
theorem free_gave_gave (hfresh : h.Fresh) {bs' : Bytes} :
    ((h.gave bs).gave bs').free (some h.requests) = some ((h.asked 1).gave bs') := by
  have hnone := hfresh h.requests le_rfl
  have hne : h.requests ≠ h.requests + 1 := (Nat.succ_ne_self _).symm
  unfold free gave asked
  simp only [Function.update_of_ne hne, Function.update_self, Option.map_some]
  rw [Function.update_comm hne, Function.update_idem, Function.update_comm hne.symm, ← hnone,
    Function.update_eq_self]

/-- Reading the first of two new blocks. -/
theorem read_gave_gave {bs' : Bytes} {len : Nat} (hlen : len ≤ bs.length) :
    ((h.gave bs).gave bs').read (some h.requests) len = some (bs.take len) := by
  have hne : h.requests ≠ h.requests + 1 := (Nat.succ_ne_self _).symm
  unfold read gave
  simp only [Option.bind_eq_bind, Option.bind_some, Function.update_of_ne hne,
    Function.update_self, if_pos hlen]

end CHeap
