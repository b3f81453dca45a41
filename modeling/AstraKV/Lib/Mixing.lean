import Mathlib

/-!
# AstraKV.Lib.Mixing

Hash functions that take their input in piece by piece.  When a step loses
neither the state nor the piece (`Mixes`), inputs that differ in one piece
have different hashes (`Mixes.foldl_ne`).

Nothing is said about how well such a function mixes. What is used is only
that every step is injective in the state and in the piece: runs that have
parted stay apart, and two pieces part what was together.
-/

universe u v

namespace Mixing

variable {σ : Type u} {α : Type v}

/-- The step can be undone in the state, and in the piece. -/
structure Mixes (f : σ → α → σ) : Prop where
  state : ∀ a, Function.Injective fun s => f s a
  piece : ∀ s, Function.Injective (f s)

variable {f : σ → α → σ}

/-- Taking pieces in loses nothing of the state. -/
theorem Mixes.foldl_injective (h : Mixes f) (as : List α) :
    Function.Injective fun s => as.foldl f s := by
  induction as with
  | nil => exact Function.injective_id
  | cons a as ih => exact ih.comp (h.state a)

/-- One piece makes a difference. -/
theorem Mixes.foldl_ne (h : Mixes f) {s : σ} {as bs : List α} {a b : α} (hne : a ≠ b) :
    (as ++ a :: bs).foldl f s ≠ (as ++ b :: bs).foldl f s := by
  rw [List.foldl_append, List.foldl_append, List.foldl_cons, List.foldl_cons]
  exact fun heq => hne (h.piece _ (h.foldl_injective bs heq))

/-! ## steps on words -/

theorem xor_injective (k : UInt64) : Function.Injective fun h : UInt64 => h ^^^ k :=
  fun _ _ heq => (UInt64.xor_left_inj k).mp heq

theorem xor_injective' (h : UInt64) : Function.Injective fun k : UInt64 => h ^^^ k :=
  fun _ _ heq => (UInt64.xor_right_inj h).mp heq

/-- A factor that has an inverse. -/
theorem mul_injective {m n : UInt64} (hinverse : m * n = 1) :
    Function.Injective fun h : UInt64 => h * m := by
  intro x y heq
  have hmul : ∀ z : UInt64, z * m * n = z := fun z => by
    rw [UInt64.mul_assoc, hinverse, UInt64.mul_one]
  rw [← hmul x, ← hmul y]
  exact congrArg (· * n) heq

/-- A shift by half of the bits or more has nothing left after a second time. -/
theorem xorShift_injective {r : UInt64} (hlow : 32 ≤ r.toNat) (hhigh : r.toNat < 64) :
    Function.Injective fun h : UInt64 => h ^^^ (h >>> r) := by
  have htwice : ∀ h : UInt64, (h ^^^ (h >>> r)) ^^^ ((h ^^^ (h >>> r)) >>> r) = h := by
    intro h
    rw [← UInt64.toNat_inj]
    simp only [UInt64.toNat_xor, UInt64.toNat_shiftRight, Nat.mod_eq_of_lt hhigh]
    rw [Nat.shiftRight_xor_distrib, ← Nat.shiftRight_add]
    have hzero : h.toNat >>> (r.toNat + r.toNat) = 0 := by
      rw [Nat.shiftRight_eq_div_pow, Nat.div_eq_zero_iff]
      refine .inr (h.toNat_lt.trans_le (Nat.pow_le_pow_right (by decide) (by omega)))
    rw [hzero, Nat.xor_zero, Nat.xor_assoc, Nat.xor_self, Nat.xor_zero]
  intro x y heq
  rw [← htwice x, ← htwice y]
  exact congrArg (fun h : UInt64 => h ^^^ (h >>> r)) heq

end Mixing
