import Mathlib

/-!
# AstraKV.Lib.LittleEndian

Byte strings, numbers as fixed-width little-endian ones, and a cursor that
reads them back.

Numbers are natural numbers and are cut to the width when they are written;
reading undoes writing up to that, and writing undoes reading exactly. The
cursor is the rest of the string, and reading fails when the rest is too
short.
-/

abbrev Bytes := List UInt8

namespace LittleEndian

/-- The `k` low bytes of `n`, least first. -/
def put : Nat → Nat → Bytes
  | 0, _ => []
  | k + 1, n => UInt8.ofNat n :: put k (n / 256)

/-- The number a byte string stands for. -/
def value : Bytes → Nat
  | [] => 0
  | b :: bs => b.toNat + 256 * value bs

/-- Read `k` bytes; nothing when they are not all there. -/
def take? (k : Nat) (bs : Bytes) : Option (Bytes × Bytes) :=
  if k ≤ bs.length then some (bs.take k, bs.drop k) else none

/-- Read a number of `k` bytes. -/
def get? (k : Nat) (bs : Bytes) : Option (Nat × Bytes) :=
  (take? k bs).map fun res => (value res.1, res.2)

/-- A number is written in its width. -/
@[simp] theorem length_put (k n : Nat) : (put k n).length = k := by
  induction k generalizing n with
  | zero => rfl
  | succ k ih => simp [put, ih]

/-- A number too big for its bytes is cut to them. -/
theorem value_put (k n : Nat) : value (put k n) = n % 256 ^ k := by
  induction k generalizing n with
  | zero => simp [put, value, Nat.mod_one]
  | succ k ih =>
      rw [put, value, ih, UInt8.toNat_ofNat', Nat.pow_succ' (n := k), Nat.mod_mul]

theorem take?_append {k : Nat} {bs rest : Bytes} (h : bs.length = k) :
    take? k (bs ++ rest) = some (bs, rest) := by
  subst h
  simp [take?]

/-- A number written is read back, modulo its width. -/
theorem get?_put (k n : Nat) (rest : Bytes) :
    get? k (put k n ++ rest) = some (n % 256 ^ k, rest) := by
  rw [get?, take?_append (length_put k n), Option.map_some, value_put]

/-- The value of some bytes is below the power of 256. -/
theorem value_lt (bs : Bytes) : value bs < 256 ^ bs.length := by
  induction bs with
  | nil => simp [value]
  | cons b bs ih =>
      have hb := b.toNat_lt
      rw [value, List.length_cons, Nat.pow_succ]
      omega

/-- A byte string is the number it stands for, written in as many bytes. -/
theorem put_value (bs : Bytes) : put bs.length (value bs) = bs := by
  induction bs with
  | nil => rfl
  | cons b bs ih =>
      have hb := b.toNat_lt
      have hdiv : (b.toNat + 256 * value bs) / 256 = value bs := by omega
      have hlow : UInt8.ofNat (b.toNat + 256 * value bs) = b := by
        rw [← UInt8.toNat_inj, UInt8.toNat_ofNat']
        omega
      rw [List.length_cons, value, put, hdiv, ih, hlow]

/-- Taking bytes splits the string. -/
theorem take?_eq_some {k : Nat} {bs a rest : Bytes} :
    take? k bs = some (a, rest) ↔ a.length = k ∧ bs = a ++ rest := by
  constructor
  · intro h
    unfold take? at h
    split at h
    · obtain ⟨rfl, rfl⟩ := Prod.mk.inj (Option.some.inj h)
      simpa
    · contradiction
  · rintro ⟨hlen, rfl⟩
    exact take?_append hlen

/-- A number read is one that was written there. -/
theorem get?_eq_some {k n : Nat} {bs rest : Bytes} :
    get? k bs = some (n, rest) ↔ n < 256 ^ k ∧ bs = put k n ++ rest := by
  constructor
  · intro h
    obtain ⟨⟨a, rest⟩, htake, heq⟩ := Option.map_eq_some_iff.mp h
    obtain ⟨rfl, rfl⟩ := Prod.mk.inj heq
    obtain ⟨rfl, rfl⟩ := take?_eq_some.mp htake
    exact ⟨value_lt a, by rw [put_value]⟩
  · rintro ⟨hlt, rfl⟩
    rw [get?_put, Nat.mod_eq_of_lt hlt]

end LittleEndian
