import AstraKV.Lib.LittleEndian

/-!
# AstraKV.Lib.Decimal

Decimal text as byte strings: C's `strtoull` and `strtoll` in base 10, and
`std::to_string`.

The reading functions skip leading white space, take a sign, stop at the first
byte that is no digit, and clamp what does not fit; the writing function gives
digits with a minus sign in front where one is needed. What is written is read
back.
-/

namespace Decimal

def isSpace (b : UInt8) : Bool := b = 32 ∨ (9 ≤ b ∧ b ≤ 13)

def isDigit (b : UInt8) : Bool := 48 ≤ b ∧ b ≤ 57

/-- The number written by a string of digits, most significant first. -/
def digitsValue (ds : Bytes) : Nat := ds.foldl (fun n d => 10 * n + (d.toNat - 48)) 0

/-- Leading blanks, an optional sign, then as many digits as there are: whether the sign is a
minus, and the number. -/
def scan (s : Bytes) : Bool × Nat :=
  match s.dropWhile isSpace with
  | 43 :: rest => (false, digitsValue (rest.takeWhile isDigit))
  | 45 :: rest => (true, digitsValue (rest.takeWhile isDigit))
  | rest => (false, digitsValue (rest.takeWhile isDigit))

/-- `strtoull`: the largest value on overflow, and the wrapped negative after a minus. -/
def strtoull (s : Bytes) : UInt64 :=
  let res := scan s
  if 2 ^ 64 ≤ res.2 then UInt64.ofNat (2 ^ 64 - 1)
  else if res.1 then -UInt64.ofNat res.2 else UInt64.ofNat res.2

/-- `strtoll`: clamped to the range of an `int64_t`. -/
def strtoll (s : Bytes) : Int :=
  let res := scan s
  if res.1 then max (-(res.2 : Int)) (-2 ^ 63) else min (res.2 : Int) (2 ^ 63 - 1)

/-- `std::to_string` of an unsigned number. -/
def ofNat (n : Nat) : Bytes :=
  if n = 0 then [48] else (Nat.digits 10 n).reverse.map fun d => UInt8.ofNat (48 + d)

/-- `std::to_string` of a signed number. -/
def ofInt (i : Int) : Bytes :=
  if i < 0 then 45 :: ofNat i.natAbs else ofNat i.natAbs

theorem length_ofNat_le {n k : Nat} (h : n < 10 ^ (k + 1)) : (ofNat n).length ≤ k + 1 := by
  unfold ofNat
  split
  · simp
  · simpa using (Nat.digits_length_le_iff (by decide) n).mpr h

/-! ## a number written and read -/

/-- A digit behind others. -/
theorem digitsValue_append (ds : Bytes) (d : UInt8) :
    digitsValue (ds ++ [d]) = 10 * digitsValue ds + (d.toNat - 48) := by
  simp [digitsValue]

/-- The byte of a digit. -/
theorem toNat_digit {d : Nat} (h : d < 10) : (UInt8.ofNat (48 + d)).toNat = 48 + d := by
  simp
  omega

/-- The value of digits is the number they are the digits of. -/
theorem digitsValue_digits {ds : List Nat} (h : ∀ d ∈ ds, d < 10) :
    digitsValue (ds.reverse.map fun d => UInt8.ofNat (48 + d)) = Nat.ofDigits 10 ds := by
  induction ds with
  | nil => rfl
  | cons d ds ih =>
      have hd := toNat_digit (h d (by simp))
      have hrest := ih fun d hd => h d (List.mem_cons_of_mem _ hd)
      rw [List.reverse_cons, List.map_append, List.map_singleton, digitsValue_append, hrest, hd,
        Nat.ofDigits_cons]
      simp
      omega

/-- The text of a number has its value. -/
theorem digitsValue_ofNat (n : Nat) : digitsValue (ofNat n) = n := by
  unfold ofNat
  split
  · simp [digitsValue, *]
  · rw [digitsValue_digits fun d hd => Nat.digits_lt_base (by decide) hd, Nat.ofDigits_digits]

/-- The text of a number is digits. -/
theorem isDigit_of_mem_ofNat {n : Nat} {b : UInt8} (h : b ∈ ofNat n) : isDigit b = true := by
  unfold ofNat at h
  split at h
  · simp_all [isDigit]
  · obtain ⟨d, hd, rfl⟩ := List.mem_map.mp h
    have hlt : d < 10 := Nat.digits_lt_base (by decide) (List.mem_reverse.mp hd)
    simp only [isDigit, UInt8.le_iff_toNat_le, toNat_digit hlt, decide_eq_true_eq]
    simp
    omega

/-- The text of a number is not empty. -/
theorem ofNat_ne_nil (n : Nat) : ofNat n ≠ [] := by
  unfold ofNat
  split
  · simp
  · simpa [Nat.digits_ne_nil_iff_ne_zero]

/-- Digits are read up to the first byte that is none. -/
theorem scan_digits {ds rest : Bytes} (hne : ds ≠ []) (hds : ∀ b ∈ ds, isDigit b = true)
    (hrest : rest.takeWhile isDigit = []) : scan (ds ++ rest) = (false, digitsValue ds) := by
  obtain ⟨d, ds, rfl⟩ := List.exists_cons_of_ne_nil hne
  have htake : ((d :: ds) ++ rest).takeWhile isDigit = d :: ds := by
    rw [List.takeWhile_append_of_pos hds, hrest, List.append_nil]
  have hd := hds d (by simp)
  have hspace : isSpace d = false := by
    simp only [isDigit, isSpace, decide_eq_true_eq, decide_eq_false_iff_not, UInt8.le_iff_toNat_le,
      ← UInt8.toNat_inj] at hd ⊢
    simp at hd ⊢
    omega
  have hplus : d ≠ 43 := by
    rintro rfl
    exact absurd hd (by decide)
  have hminus : d ≠ 45 := by
    rintro rfl
    exact absurd hd (by decide)
  rw [List.cons_append] at htake ⊢
  unfold scan
  rw [List.dropWhile_cons, hspace, if_neg Bool.false_ne_true]
  split
  · rename_i heq
    exact absurd (List.cons.inj heq).1 hplus
  · rename_i heq
    exact absurd (List.cons.inj heq).1 hminus
  · rw [htake]

/-- A number written is read back, whatever follows its digits. -/
theorem strtoull_ofNat {n : Nat} (hn : n < 2 ^ 64) {rest : Bytes}
    (hrest : rest.takeWhile isDigit = []) : strtoull (ofNat n ++ rest) = UInt64.ofNat n := by
  unfold strtoull
  rw [scan_digits (ofNat_ne_nil n) (fun b => isDigit_of_mem_ofNat) hrest, digitsValue_ofNat]
  simp
  omega

/-- Scanning the text of a number. -/
theorem scan_ofNat (n : Nat) : scan (ofNat n) = (false, n) := by
  have hscan : scan (ofNat n ++ []) = (false, digitsValue (ofNat n)) :=
    scan_digits (ofNat_ne_nil n) (fun b => isDigit_of_mem_ofNat) rfl
  rwa [List.append_nil, digitsValue_ofNat] at hscan

/-- Scanning it behind a minus sign. -/
theorem scan_neg_ofNat (n : Nat) : scan (45 :: ofNat n) = (true, n) := by
  have htake : (ofNat n).takeWhile isDigit = ofNat n :=
    List.takeWhile_eq_self_iff.mpr fun b => isDigit_of_mem_ofNat
  have hspace : isSpace 45 = false := by decide
  simp [scan, hspace, htake, digitsValue_ofNat]

/-- An `int64_t` is read as it is written. -/
theorem strtoll_ofInt {i : Int} (hmin : -2 ^ 63 ≤ i) (hmax : i < 2 ^ 63) :
    strtoll (ofInt i) = i := by
  unfold ofInt strtoll
  split
  · rw [scan_neg_ofNat]
    simp only [if_true]
    omega
  · rw [scan_ofNat]
    simp only [Bool.false_eq_true, if_false]
    omega

end Decimal
