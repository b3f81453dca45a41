import AstraKV.Lib.Decimal

/-!
# AstraKV.Lib.DecimalText

Byte strings that are the decimal text of an `int64_t` from end to end, and
the number that any other byte string begins with.  `strtoll` reads the
first kind as what it says and the second as that number.

A text may be more than a number, or less: `whole` is the number that all of
it spells and `leading` the one it begins with, zero if it begins with none.
Both are integers without a bound, so clamping is visible as such.
-/

namespace Decimal

def IsInt64 (i : Int) : Prop := -2 ^ 63 ≤ i ∧ i < 2 ^ 63

instance {i : Int} : Decidable (IsInt64 i) := inferInstanceAs (Decidable (_ ∧ _))

/-- A number with its sign. -/
def signed (res : Bool × Nat) : Int := if res.1 then -(res.2 : Int) else res.2

/-- The number that a byte string begins with, and zero if there is none. -/
def leading (text : Bytes) : Int := signed (scan text)

/-- Digits and nothing else. -/
def AllDigits (ds : Bytes) : Prop := ds ≠ [] ∧ ∀ d ∈ ds, isDigit d = true

instance {ds : Bytes} : Decidable (AllDigits ds) := inferInstanceAs (Decidable (_ ∧ _))

/-- The number that is written from end to end, with a minus or without. -/
def whole (text : Bytes) : Option Int :=
  match text with
  | 45 :: ds => if AllDigits ds then some (-(digitsValue ds : Int)) else none
  | ds => if AllDigits ds then some (digitsValue ds : Int) else none

/-- The `int64_t` that the byte string is the decimal text of. -/
def int64? (text : Bytes) : Option Int := (whole text).filter fun i => IsInt64 i

variable {text : Bytes} {i : Int}

/-- A text spells an `int64_t` if all of it is a number that fits. -/
theorem int64?_eq_some : int64? text = some i ↔ whole text = some i ∧ IsInt64 i := by
  simp [int64?, Option.filter_eq_some_iff]

/-! ## strtoll -/

/-- `strtoll` reads the leading number and clamps it. -/
theorem strtoll_eq : strtoll text = max (min (leading text) (2 ^ 63 - 1)) (-2 ^ 63) := by
  unfold strtoll leading signed
  dsimp only
  split
  · rw [min_eq_left (by omega)]
  · rw [max_eq_left (by omega)]

/-- It does not clamp one that fits. -/
theorem strtoll_of_isInt64 (h : IsInt64 (leading text)) : strtoll text = leading text := by
  obtain ⟨hmin, hmax⟩ := h
  rw [strtoll_eq]
  omega

theorem scan_allDigits {ds : Bytes} (h : AllDigits ds) : scan ds = (false, digitsValue ds) := by
  have hscan : scan (ds ++ []) = (false, digitsValue ds) := scan_digits h.1 h.2 rfl
  rwa [List.append_nil] at hscan

theorem scan_minus {ds : Bytes} (h : AllDigits ds) : scan (45 :: ds) = (true, digitsValue ds) := by
  have htake : ds.takeWhile isDigit = ds := List.takeWhile_eq_self_iff.mpr h.2
  have hspace : isSpace 45 = false := by decide
  simp [scan, hspace, htake]

/-- A number written from end to end is the number that the text begins with. -/
theorem leading_of_whole (h : whole text = some i) : leading text = i := by
  unfold whole at h
  split at h
  · rename_i ds
    obtain ⟨hds, hi⟩ := Option.ite_none_right_eq_some.mp h
    rw [leading, scan_minus hds, ← Option.some.inj hi]
    rfl
  · obtain ⟨hds, hi⟩ := Option.ite_none_right_eq_some.mp h
    rw [leading, scan_allDigits hds, ← Option.some.inj hi]
    rfl

/-- It reads a text that spells a number as that number. -/
theorem strtoll_of_int64? (h : int64? text = some i) : strtoll text = i := by
  obtain ⟨hwhole, hi⟩ := int64?_eq_some.mp h
  have hleading := leading_of_whole hwhole
  rw [strtoll_of_isInt64 (hleading ▸ hi), hleading]

/-! ## to_string -/

theorem allDigits_ofNat (n : Nat) : AllDigits (ofNat n) :=
  ⟨ofNat_ne_nil n, fun _ => isDigit_of_mem_ofNat⟩

/-- A number written is spelled by all of its text. -/
theorem whole_ofInt (i : Int) : whole (ofInt i) = some i := by
  unfold ofInt
  split
  · have hdigits := allDigits_ofNat i.natAbs
    simp only [whole, hdigits, if_true, digitsValue_ofNat, Option.some.injEq]
    omega
  · have hdigits := allDigits_ofNat i.natAbs
    unfold whole
    split
    · rename_i ds heq
      have hminus : isDigit 45 = true := hdigits.2 45 (by simp [heq])
      exact absurd hminus (by decide)
    · simp only [hdigits, if_true, digitsValue_ofNat, Option.some.injEq]
      omega

/-- What is written of an `int64_t` is its decimal text. -/
theorem int64?_ofInt (h : IsInt64 i) : int64? (ofInt i) = some i :=
  int64?_eq_some.mpr ⟨whole_ofInt i, h⟩

example : int64? [45, 48, 55] = some (-7) ∧ int64? [32, 55] = none ∧ leading [32, 55, 120] = 7 := by
  decide +kernel

end Decimal
