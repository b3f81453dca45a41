import AstraKV.Lib.Lanes
import AstraKV.Lib.LittleEndian

/-!
# AstraKV.Data.Simd

`CaseInsensitiveEquals`, `HasZero` and `HashString` of `simd_utils.hpp`, in
every build: with the vector loops and without, and with `char` signed or
unsigned.

A byte outside its buffer has no value, so a result says that every access
was inside.

The vector loops are loops over lanes of a register and are followed as such:
what a lane is compared with, what the mask of a whole block says, and where
the bytes left over go. Each build is a choice of loops, so one theorem about
the choice covers all of them. `CaseInsensitiveEquals` answers differently
with and without SSE2, and the difference is stated on bytes: `CasePair` are
the pairs the plain loop takes for equal, `MarkPair` those of the vector loop.
-/

namespace AstraKV

open Lanes

namespace Simd

/-! ## CaseInsensitiveEquals -/

/-- `va_upper`, `vb_upper`: bit 5 is set in what is greater than `Z`. -/
def foldLanes {w : Nat} (v : Reg w) : Reg w :=
  let mask := cmpgt v (set1 90)
  or v (Lanes.and mask (set1 0x20))

def caseInsensitiveEqualsSse2 (a b : Bytes) (len : Nat) : Option Bool := do
  let res ← loop (fun i => do
    let va ← load? 16 a i
    let vb ← load? 16 b i
    some (movemask (cmpeq (foldLanes va) (foldLanes vb)) != 0xFFFF)) (forBlocks 16 len)
  some !res.1

/-- What the scalar loop compares: `a` to `z` moved down by 32. -/
def toUpper (c : UInt8) : UInt8 := if c ≥ 97 ∧ c ≤ 122 then c - 32 else c

/-- The loop at the end of `CaseInsensitiveEquals`. -/
def equalsTail (a b : Bytes) (len : Nat) : Option Bool := do
  let res ← loop (fun i => do
    let ca ← a[i]?
    let cb ← b[i]?
    some (toUpper ca != toUpper cb)) (List.range len)
  some !res.1

def caseInsensitiveEquals (sse2 : Bool) (a b : Bytes) (len : Nat) : Option Bool := do
  if sse2 ∧ len ≥ 16 then
    if ← caseInsensitiveEqualsSse2 a b len then
      let processed := len / 16 * 16
      equalsTail (a.drop processed) (b.drop processed) (len - processed)
    else some false
  else equalsTail a b len

/-! ## HasZero -/

/-- `neither` has no vector loop, `avx2` has both. -/
inductive Build where
  | neither
  | sse2
  | avx2
deriving DecidableEq

inductive Loop where
  | avx2
  | sse2
  | tail
deriving DecidableEq

/-- What a search found, and the bytes that it examined in which loop. -/
structure Scan where
  found : Bool
  examined : List (Loop × Nat)
deriving DecidableEq

/-- `has_zero_avx2` and `has_zero_sse2`; `base` is how many bytes come before `data`. -/
def hasZeroBlocks (name : Loop) (w : Nat) (data : Bytes) (base : Nat) : Option Scan := do
  let res ← loop (fun i => do
    let chunk ← load? w data i
    some (movemask (cmpeq chunk (set1 0)) != 0)) (forBlocks w data.length)
  some ⟨res.1, (res.2.flatMap fun i => List.range' (base + i) w).map (name, ·)⟩

/-- The loop at the end of `HasZero`. -/
def hasZeroTail (data : Bytes) (base : Nat) : Option Scan := do
  let res ← loop (fun i => do
    let c ← data[i]?
    some (c == 0)) (List.range data.length)
  some ⟨res.1, res.2.map fun i => (.tail, base + i)⟩

/-- A vector loop of `HasZero`, if it is built in, and then the loops after it. -/
def hasZeroStage (built : Bool) (name : Loop) (w : Nat) (next : Bytes → Nat → Option Scan)
    (data : Bytes) (base : Nat) : Option Scan := do
  if built ∧ data.length ≥ w then
    let scan ← hasZeroBlocks name w data base
    if scan.found then some scan
    else
      let processed := data.length / w * w
      let rest ← next (data.drop processed) (base + processed)
      some ⟨rest.found, scan.examined ++ rest.examined⟩
  else next data base

def hasZero (build : Build) (data : Bytes) : Option Scan :=
  hasZeroStage (build = .avx2) .avx2 32
    (hasZeroStage (build ≠ .neither) .sse2 16 hasZeroTail) data 0

/-! ## HashString -/

/-- `static_cast<uint64_t>` of a `char`. -/
def widen (signed : Bool) (c : UInt8) : UInt64 :=
  if signed then c.toInt8.toInt64.toUInt64 else c.toUInt64

def hashString (signed : Bool) (data : Bytes) : UInt64 :=
  data.foldl (fun hash c => (hash ^^^ widen signed c) * 1099511628211) 14695981039346656037

/-- FNV-1a with 64 bits. -/
def fnv1a (data : Bytes) : UInt64 :=
  data.foldl (fun hash c => (hash ^^^ c.toUInt64) * 1099511628211) 14695981039346656037

/-! ## what the vector loop takes for equal -/

section CaseInsensitiveEquals

variable {a b : Bytes} {x y : UInt8} {lo hi len : Nat} {R : UInt8 → UInt8 → Prop}

/-- One lane of `foldLanes`. -/
def foldBit5 (c : UInt8) : UInt8 :=
  c ||| ((if (90 : UInt8).toInt8 < c.toInt8 then 255 else 0) &&& 0x20)

/-- Every lane is folded by itself. -/
theorem foldLanes_apply {w : Nat} (v : Reg w) (i : Fin w) : foldLanes v i = foldBit5 (v i) := rfl

/-- Letters are left alone; the five characters behind `Z` become those behind `z`. -/
theorem toNat_foldBit5 (c : UInt8) :
    (foldBit5 c).toNat = if 91 ≤ c.toNat ∧ c.toNat ≤ 95 then c.toNat + 32 else c.toNat := by
  have hall : ∀ n < 256, (foldBit5 (UInt8.ofNat n)).toNat =
      if 91 ≤ n ∧ n ≤ 95 then n + 32 else n := by decide +kernel
  have hc := hall c.toNat c.toNat_lt
  rwa [UInt8.ofNat_toNat] at hc

/-- What `toupper` does to a byte. -/
theorem toNat_toUpper (c : UInt8) :
    (toUpper c).toNat = if 97 ≤ c.toNat ∧ c.toNat ≤ 122 then c.toNat - 32 else c.toNat := by
  have hall : ∀ n < 256, (toUpper (UInt8.ofNat n)).toNat =
      if 97 ≤ n ∧ n ≤ 122 then n - 32 else n := by decide +kernel
  have hc := hall c.toNat c.toNat_lt
  rwa [UInt8.ofNat_toNat] at hc

/-- One of the two is from `lo` to `hi`, the other 32 above it. -/
def Shifted (lo hi : Nat) (x y : UInt8) : Prop :=
  lo ≤ x.toNat ∧ x.toNat ≤ hi ∧ y.toNat = x.toNat + 32 ∨
    lo ≤ y.toNat ∧ y.toNat ≤ hi ∧ x.toNat = y.toNat + 32

/-- A letter in both cases. -/
def CasePair : UInt8 → UInt8 → Prop := Shifted 65 90

/-- A character behind `Z` and the one in its place behind `z`. -/
def MarkPair : UInt8 → UInt8 → Prop := Shifted 91 95

/-- The plain loop takes equal bytes and case pairs for equal. -/
theorem toUpper_eq_iff : toUpper x = toUpper y ↔ x = y ∨ CasePair x y := by
  rw [← UInt8.toNat_inj, toNat_toUpper, toNat_toUpper, ← UInt8.toNat_inj, CasePair, Shifted]
  split <;> split <;> omega

/-- The vector loop takes equal bytes and mark pairs for equal. -/
theorem foldBit5_eq_iff : foldBit5 x = foldBit5 y ↔ x = y ∨ MarkPair x y := by
  rw [← UInt8.toNat_inj, toNat_foldBit5, toNat_foldBit5, ← UInt8.toNat_inj, MarkPair, Shifted]
  split <;> split <;> omega

/-- No pair is of both kinds. -/
theorem not_casePair_markPair (h : CasePair x y) : ¬ MarkPair x y := by
  unfold CasePair MarkPair Shifted at *
  omega

/-- Two bytes at one place from `lo` to `hi` are not the same, and not such a pair either. -/
def Differ (R : UInt8 → UInt8 → Prop) (a b : Bytes) (lo hi : Nat) : Prop :=
  ∃ k, lo ≤ k ∧ k < hi ∧ a.getD k 0 ≠ b.getD k 0 ∧ ¬ R (a.getD k 0) (b.getD k 0)

/-- Two buffers do not differ if each two bytes are equal or a pair. -/
theorem not_differ : ¬ Differ R a b lo hi ↔
    ∀ k, lo ≤ k → k < hi → a.getD k 0 = b.getD k 0 ∨ R (a.getD k 0) (b.getD k 0) := by
  unfold Differ
  push Not
  exact forall_congr' fun k => forall₂_congr fun _ _ => or_iff_not_imp_left.symm

/-- The loop over single bytes compares the ones left over. -/
theorem equalsTail_eq (ha : len ≤ a.length) (hb : len ≤ b.length) :
    equalsTail a b len =
      some (decide (∀ k < len, toUpper (a.getD k 0) = toUpper (b.getD k 0))) := by
  have hbody : ∀ i ∈ List.range len,
      (do
        let ca ← a[i]?
        let cb ← b[i]?
        some (toUpper ca != toUpper cb)) =
        some (toUpper (a.getD i 0) != toUpper (b.getD i 0)) := by
    intro i hi
    have hlt := List.mem_range.mp hi
    have hia : i < a.length := by omega
    have hib : i < b.length := by omega
    simp [hia, hib]
  obtain ⟨turns, hloop, -⟩ := loop_eq hbody
  rw [equalsTail, hloop, Option.bind_eq_bind, Option.bind_some]
  refine congrArg some ?_
  rw [Bool.eq_iff_iff, decide_eq_true_iff]
  simp

/-- The bytes in whole blocks. -/
def inBlocks (len : Nat) : Nat := len / 16 * 16

/-- The vector loop compares the bytes of its blocks. -/
theorem equalsSse2_eq (ha : len ≤ a.length) (hb : len ≤ b.length) :
    caseInsensitiveEqualsSse2 a b len =
      some (decide (∀ k < inBlocks len, foldBit5 (a.getD k 0) = foldBit5 (b.getD k 0))) := by
  have hbody : ∀ i ∈ forBlocks 16 len,
      (do
        let va ← load? 16 a i
        let vb ← load? 16 b i
        some (movemask (cmpeq (foldLanes va) (foldLanes vb)) != 0xFFFF)) =
        some !decide (∀ j < (16 : Nat),
          foldBit5 (a.getD (i + j) 0) = foldBit5 (b.getD (i + j) 0)) := by
    intro i hi
    obtain ⟨-, hin⟩ := (mem_forBlocks (by decide)).mp hi
    obtain ⟨va, hva, hbytesa⟩ := load?_eq_some (hin.trans ha)
    obtain ⟨vb, hvb, hbytesb⟩ := load?_eq_some (hin.trans hb)
    have hones : (0xFFFF : BitVec 16) = BitVec.allOnes 16 := rfl
    rw [hva, hvb, Option.bind_eq_bind, Option.bind_some, Option.bind_some]
    refine congrArg some ?_
    rw [Bool.eq_iff_iff, bne_iff_ne, ne_eq, hones, movemask_cmpeq_eq_allOnes, Bool.not_eq_true',
      decide_eq_false_iff_not]
    simp only [foldLanes_apply, hbytesa, hbytesb, Fin.forall_iff]
  obtain ⟨turns, hloop, -⟩ := loop_eq hbody
  rw [caseInsensitiveEqualsSse2, hloop, Option.bind_eq_bind, Option.bind_some]
  refine congrArg some ?_
  have hany := exists_mem_forBlocks (w := 16) (n := len)
    fun k => ¬ foldBit5 (a.getD k 0) = foldBit5 (b.getD k 0)
  rw [Bool.eq_iff_iff, decide_eq_true_iff, Bool.not_eq_true', ← Bool.not_eq_true, List.any_eq_true]
  simp only [Bool.not_eq_true', decide_eq_false_iff_not, not_forall, exists_prop, hany, inBlocks]
  push Not
  rfl

/-- The scalar loop alone. -/
theorem scalar_eq (h : a.length = b.length) :
    caseInsensitiveEquals false a b a.length =
      some (decide (∀ k < a.length, toUpper (a.getD k 0) = toUpper (b.getD k 0))) := by
  rw [caseInsensitiveEquals, if_neg (by simp)]
  exact equalsTail_eq le_rfl h.le

/-- A byte of the rest is a byte of the buffer. -/
theorem getD_drop (a : Bytes) (n k : Nat) : (a.drop n).getD k 0 = a.getD (n + k) 0 := by
  rw [List.getD_eq_getElem?_getD, List.getD_eq_getElem?_getD, List.getElem?_drop]

/-- The blocks first, and the scalar loop for the rest. -/
theorem sse2_eq (h : a.length = b.length) :
    caseInsensitiveEquals true a b a.length =
      some (decide ((∀ k < inBlocks a.length, foldBit5 (a.getD k 0) = foldBit5 (b.getD k 0)) ∧
        ∀ k, inBlocks a.length ≤ k → k < a.length →
          toUpper (a.getD k 0) = toUpper (b.getD k 0))) := by
  by_cases hlen : a.length ≥ 16
  · have htail : equalsTail (a.drop (inBlocks a.length)) (b.drop (inBlocks a.length))
        (a.length - inBlocks a.length) = _ := equalsTail_eq (by simp) (by simp [h])
    have hshift : (∀ k < a.length - inBlocks a.length,
          toUpper (a.getD (inBlocks a.length + k) 0) =
            toUpper (b.getD (inBlocks a.length + k) 0)) ↔
        ∀ k, inBlocks a.length ≤ k → k < a.length →
          toUpper (a.getD k 0) = toUpper (b.getD k 0) := by
      constructor
      · intro hall k hle hlt
        have hk := hall (k - inBlocks a.length) (by omega)
        rwa [show inBlocks a.length + (k - inBlocks a.length) = k by omega] at hk
      · exact fun hall k hk => hall _ (by omega) (by omega)
    rw [caseInsensitiveEquals, if_pos ⟨rfl, hlen⟩, equalsSse2_eq le_rfl h.le, Option.bind_eq_bind,
      Option.bind_some]
    by_cases hblocks : ∀ k < inBlocks a.length, foldBit5 (a.getD k 0) = foldBit5 (b.getD k 0)
    · rw [if_pos (decide_eq_true hblocks)]
      refine htail.trans (congrArg some (decide_eq_decide.mpr ?_))
      simp only [getD_drop]
      rw [hshift]
      exact (and_iff_right hblocks).symm
    · rw [if_neg (by rw [decide_eq_true_iff]; exact hblocks)]
      exact congrArg some (decide_eq_false fun hall => hblocks hall.1).symm
  · have hnone : inBlocks a.length = 0 := by
      unfold inBlocks
      omega
    rw [caseInsensitiveEquals, if_neg (fun hbuilt => hlen hbuilt.2), equalsTail_eq le_rfl h.le,
      hnone]
    simp

/-- Differing up to case means that `toupper` tells the bytes apart. -/
theorem differ_case_iff : Differ CasePair a b lo hi ↔
    ¬ ∀ k, lo ≤ k → k < hi → toUpper (a.getD k 0) = toUpper (b.getD k 0) := by
  rw [← not_iff_not, not_differ, not_not]
  simp only [toUpper_eq_iff]

/-- Differing up to marks means that the fold does. -/
theorem differ_mark_iff : Differ MarkPair a b lo hi ↔
    ¬ ∀ k, lo ≤ k → k < hi → foldBit5 (a.getD k 0) = foldBit5 (b.getD k 0) := by
  rw [← not_iff_not, not_differ, not_not]
  simp only [foldBit5_eq_iff]

/-- Buffers of one length are equal if their bytes are. -/
theorem eq_iff_getD (h : a.length = b.length) :
    a = b ↔ ∀ k < a.length, a.getD k 0 = b.getD k 0 := by
  constructor
  · rintro rfl k -
    rfl
  · refine fun hall => List.ext_getElem h fun k ha hb => ?_
    have hk := hall k ha
    rwa [List.getD_eq_getElem _ _ ha, List.getD_eq_getElem _ _ hb] at hk

theorem take_eq_take_iff {n : Nat} (h : a.length = b.length) (hn : n ≤ a.length) :
    a.take n = b.take n ↔ ∀ k < n, a.getD k 0 = b.getD k 0 := by
  rw [eq_iff_getD (by simp [h]), List.length_take, Nat.min_eq_left hn]
  refine forall₂_congr fun k hk => ?_
  rw [List.getD_eq_getElem?_getD, List.getD_eq_getElem?_getD, List.getElem?_take_of_lt hk,
    List.getElem?_take_of_lt hk, ← List.getD_eq_getElem?_getD, ← List.getD_eq_getElem?_getD]

theorem map_toUpper_iff (h : a.length = b.length) : a.map toUpper = b.map toUpper ↔
    ∀ k < a.length, toUpper (a.getD k 0) = toUpper (b.getD k 0) := by
  have hmap : ∀ (c : Bytes) (k : Nat), (c.map toUpper).getD k 0 = toUpper (c.getD k 0) := by
    intro c k
    rw [show (0 : UInt8) = toUpper 0 from rfl, List.getD_map]
    rfl
  rw [eq_iff_getD (by simp [h]), List.length_map]
  simp only [hmap]

/-- **When the build with SSE2 folds case as the scalar loop does.** -/
theorem sse2_agrees_iff (a b : Bytes) (h : a.length = b.length) :
    (caseInsensitiveEquals true a b a.length = caseInsensitiveEquals false a b a.length ∧
      (caseInsensitiveEquals false a b a.length = some true ↔ a.map toUpper = b.map toUpper)) ↔
    Differ CasePair a b (inBlocks a.length) a.length ∨
      a.take (inBlocks a.length) = b.take (inBlocks a.length) ∨
      Differ CasePair a b 0 (inBlocks a.length) ∧ Differ MarkPair a b 0 (inBlocks a.length) := by
  have hle : inBlocks a.length ≤ a.length := Nat.div_mul_le_self _ _
  have hscalar : caseInsensitiveEquals false a b a.length = some true ↔
      a.map toUpper = b.map toUpper := by
    rw [scalar_eq h, map_toUpper_iff h, Option.some_inj, decide_eq_true_iff]
  have hparts : (∀ k < a.length, toUpper (a.getD k 0) = toUpper (b.getD k 0)) ↔
      (∀ k < inBlocks a.length, toUpper (a.getD k 0) = toUpper (b.getD k 0)) ∧
        ∀ k, inBlocks a.length ≤ k → k < a.length →
          toUpper (a.getD k 0) = toUpper (b.getD k 0) := by
    refine ⟨fun hall => ⟨fun k hk => hall k (hk.trans_le hle), fun k _ => hall k⟩, ?_⟩
    rintro ⟨hblocks, htail⟩ k hk
    exact (lt_or_ge k (inBlocks a.length)).elim (hblocks k) fun hge => htail k hge hk
  -- no two different bytes are a pair of both kinds
  have hsame : (∀ k < inBlocks a.length, a.getD k 0 = b.getD k 0) ↔
      (∀ k < inBlocks a.length, toUpper (a.getD k 0) = toUpper (b.getD k 0)) ∧
        ∀ k < inBlocks a.length, foldBit5 (a.getD k 0) = foldBit5 (b.getD k 0) := by
    rw [← forall₂_and]
    refine forall₂_congr fun k _ => ?_
    rw [toUpper_eq_iff, foldBit5_eq_iff]
    have hkinds : CasePair (a.getD k 0) (b.getD k 0) → ¬ MarkPair (a.getD k 0) (b.getD k 0) :=
      not_casePair_markPair
    tauto
  rw [and_iff_left hscalar, sse2_eq h, scalar_eq h, Option.some_inj, decide_eq_decide, hparts,
    differ_case_iff, differ_case_iff, differ_mark_iff, take_eq_take_iff h hle, hsame]
  simp only [Nat.zero_le, forall_const]
  -- behind a tail that agrees, both builds answer for their blocks alone
  rw [and_congr_left_iff, imp_iff_not_or]
  exact or_congr_right (iff_comm.trans iff_iff_and_or_not_and_not)

/-- A block of sixteen letters that are the same, and one behind it in both cases. -/
theorem sse2_agrees_letter :
    caseInsensitiveEquals true (.replicate 16 65 ++ [72]) (.replicate 16 65 ++ [104]) 17 =
        caseInsensitiveEquals false (.replicate 16 65 ++ [72]) (.replicate 16 65 ++ [104]) 17 ∧
      (caseInsensitiveEquals false (.replicate 16 65 ++ [72]) (.replicate 16 65 ++ [104]) 17 =
          some true ↔
        (List.replicate 16 65 ++ [(72 : UInt8)]).map toUpper =
          (List.replicate 16 65 ++ [(104 : UInt8)]).map toUpper) :=
  (sse2_agrees_iff (.replicate 16 65 ++ [72]) (.replicate 16 65 ++ [104]) rfl).mpr (.inr (.inl rfl))

/-- Sixteen letters in both cases. -/
theorem sse2_misses_case :
    caseInsensitiveEquals true (.replicate 16 65) (.replicate 16 97) 16 = some false ∧
      caseInsensitiveEquals false (.replicate 16 65) (.replicate 16 97) 16 = some true := by
  decide +kernel

end CaseInsensitiveEquals

/-! ## every build finds a zero -/

/-- What there is to say of a search through `data`, which has `base` bytes before it. -/
structure Scans (data : Bytes) (base : Nat) (scan : Scan) : Prop where
  found : scan.found = true ↔ 0 ∈ data
  front : scan.examined.map Prod.snd <+: List.range' base data.length
  whole : scan.found = false → scan.examined.map Prod.snd = List.range' base data.length
  reached : scan.found = true → ∃ i, data[i]? = some 0 ∧ base + i ∈ scan.examined.map Prod.snd

section HasZero

variable {data xs ys : Bytes} {base w : Nat} {scan : Scan}

/-- A loop that has found a zero does not look at what follows. -/
theorem Scans.append_left (h : Scans xs base scan) (hfound : scan.found = true) (ys : Bytes) :
    Scans (xs ++ ys) base scan where
  found := iff_of_true hfound (List.mem_append_left ys (h.found.mp hfound))
  front := by
    rw [List.length_append, ← List.range'_append_1]
    exact h.front.trans (List.prefix_append _ _)
  whole := fun hnot => by rw [hfound] at hnot; cases hnot
  reached := fun hf => by
    obtain ⟨i, hi, hmem⟩ := h.reached hf
    have hlt : i < xs.length := (List.getElem?_eq_some_iff.mp hi).1
    exact ⟨i, by rwa [List.getElem?_append_left hlt], hmem⟩

/-- A loop that has found none hands over to the next. -/
theorem Scans.append {rest : Scan} (h : Scans xs base scan) (hfound : scan.found = false)
    (hrest : Scans ys (base + xs.length) rest) :
    Scans (xs ++ ys) base ⟨rest.found, scan.examined ++ rest.examined⟩ where
  found := by
    have hnone : (0 : UInt8) ∉ xs := fun hmem => by
      rw [h.found.mpr hmem] at hfound
      cases hfound
    rw [List.mem_append, or_iff_right hnone]
    exact hrest.found
  front := by
    rw [List.map_append, h.whole hfound, List.length_append, ← List.range'_append_1]
    exact (List.prefix_append_right_inj _).mpr hrest.front
  whole := fun hnot => by
    rw [List.map_append, h.whole hfound, hrest.whole hnot, List.length_append,
      List.range'_append_1]
  reached := fun hf => by
    obtain ⟨i, hi, hmem⟩ := hrest.reached hf
    refine ⟨xs.length + i, ?_, ?_⟩
    · rw [List.getElem?_append_right (by omega)]
      simpa using hi
    · rw [List.map_append, ← Nat.add_assoc]
      exact List.mem_append_right _ hmem

theorem zero_mem_take {n : Nat} : 0 ∈ data.take n ↔ ∃ k < n, data[k]? = some 0 := by
  simp only [List.mem_iff_getElem?, List.getElem?_take]
  refine exists_congr fun k => ?_
  split <;> simp_all

/-- There is a zero among the `w` bytes from byte `i` on. -/
def zeroIn (data : Bytes) (w i : Nat) : Bool := (List.range w).any fun j => data[i + j]? = some 0

theorem zeroIn_iff {i : Nat} : zeroIn data w i = true ↔ ∃ j < w, data[i + j]? = some 0 := by
  simp [zeroIn]

/-- A loop over whole blocks searches the front of the buffer. -/
theorem scans_loop (name : Loop) (base : Nat) {body : Nat → Option Bool}
    (hbody : ∀ i ∈ forBlocks w data.length, body i = some (zeroIn data w i)) :
    ∃ res, loop body (forBlocks w data.length) = some res ∧
      Scans (data.take (data.length / w * w)) base
        ⟨res.1, (res.2.flatMap fun i => List.range' (base + i) w).map (name, ·)⟩ := by
  obtain ⟨turns, hloop, hprefix, hall, hsome⟩ := loop_eq hbody
  have hlength : (data.take (data.length / w * w)).length = data.length / w * w := by
    rw [List.length_take]
    exact Nat.min_eq_left (Nat.div_mul_le_self _ _)
  refine ⟨_, hloop, ?_, ?_, ?_, ?_⟩
  · dsimp only
    rw [zero_mem_take, ← exists_mem_forBlocks, List.any_eq_true]
    exact exists_congr fun i => and_congr_right fun _ => zeroIn_iff
  · obtain ⟨later, hlater⟩ := hprefix
    rw [hlength, ← flatMap_forBlocks, ← hlater, List.flatMap_append, List.map_map]
    simp
  · intro hnone
    rw [hlength, ← flatMap_forBlocks, hall hnone, List.map_map]
    simp
  · intro hany
    obtain ⟨i, hi, hstops⟩ := hsome hany
    have hmem := hprefix.subset hi
    obtain ⟨j, hj, hzero⟩ := zeroIn_iff.mp hstops
    have hlt : i + j < data.length / w * w :=
      ((exists_mem_forBlocks (· = i + j)).mp ⟨i, hmem, j, hj, rfl⟩).elim fun k hk => hk.2 ▸ hk.1
    refine ⟨i + j, by rw [List.getElem?_take_of_lt hlt, hzero], ?_⟩
    simp only [List.map_map, List.mem_map, List.mem_flatMap, List.mem_range'_1]
    exact ⟨base + (i + j), ⟨i, hi, by omega, by omega⟩, rfl⟩

theorem hasZeroTail_scans (data : Bytes) (base : Nat) :
    ∃ scan, hasZeroTail data base = some scan ∧ Scans data base scan := by
  have hbody : ∀ i ∈ forBlocks 1 data.length,
      (do let c ← data[i]?; some (c == 0)) = some (zeroIn data 1 i) := by
    intro i hi
    have hlt : i < data.length := ((mem_forBlocks Nat.one_pos).mp hi).2
    simp [zeroIn, hlt, Bool.beq_eq_decide_eq]
  obtain ⟨res, hloop, hscans⟩ := scans_loop .tail base hbody
  have hblocks : forBlocks 1 data.length = List.range data.length := by simp [forBlocks]
  rw [hblocks] at hloop
  refine ⟨_, by rw [hasZeroTail, hloop]; rfl, ?_⟩
  have hturns : (res.2.flatMap fun i => List.range' (base + i) 1) = res.2.map (base + ·) := by
    simp [List.map_eq_flatMap]
  rw [hturns, List.map_map, Nat.div_one, Nat.mul_one, List.take_length] at hscans
  exact hscans

/-- A block holds a zero if the mask of the comparison is not zero. -/
theorem hasZeroBlocks_scans (hw : 0 < w) (name : Loop) (data : Bytes) (base : Nat) :
    ∃ scan, hasZeroBlocks name w data base = some scan ∧
      Scans (data.take (data.length / w * w)) base scan := by
  have hbody : ∀ i ∈ forBlocks w data.length,
      (do
        let chunk ← load? w data i
        some (movemask (cmpeq chunk (set1 0)) != 0)) = some (zeroIn data w i) := by
    intro i hi
    obtain ⟨-, hin⟩ := (mem_forBlocks hw).mp hi
    obtain ⟨chunk, hload, hchunk⟩ := load?_eq_some hin
    rw [hload, Option.bind_eq_bind, Option.bind_some]
    refine congrArg some ?_
    rw [Bool.eq_iff_iff, bne_iff_ne, ne_eq, movemask_cmpeq_eq_zero, zeroIn_iff]
    push Not
    constructor
    · rintro ⟨j, hj⟩
      rw [hchunk] at hj
      refine ⟨j, j.isLt, ?_⟩
      rw [List.getElem?_eq_getElem (by omega), ← List.getD_eq_getElem data 0]
      exact congrArg some hj
    · rintro ⟨j, hj, hzero⟩
      refine ⟨⟨j, hj⟩, ?_⟩
      rw [hchunk, List.getD_eq_getElem?_getD, hzero]
      rfl
  obtain ⟨res, hloop, hscans⟩ := scans_loop name base hbody
  exact ⟨_, by rw [hasZeroBlocks, hloop]; rfl, hscans⟩

/-- A stage scans its blocks, and hands the rest to the next stage. -/
theorem hasZeroStage_scans (built : Bool) (name : Loop) (hw : 0 < w)
    {next : Bytes → Nat → Option Scan}
    (hnext : ∀ data base, ∃ scan, next data base = some scan ∧ Scans data base scan)
    (data : Bytes) (base : Nat) :
    ∃ scan, hasZeroStage built name w next data base = some scan ∧ Scans data base scan := by
  unfold hasZeroStage
  split
  · obtain ⟨scan, hscan, hscans⟩ := hasZeroBlocks_scans hw name data base
    have hparts := List.take_append_drop (data.length / w * w) data
    have hlength : (data.take (data.length / w * w)).length = data.length / w * w := by
      rw [List.length_take]
      exact Nat.min_eq_left (Nat.div_mul_le_self _ _)
    rw [hscan, Option.bind_eq_bind, Option.bind_some]
    cases hfound : scan.found with
    | true =>
        have hwhole := hscans.append_left hfound (data.drop (data.length / w * w))
        rw [hparts] at hwhole
        exact ⟨scan, if_pos rfl, hwhole⟩
    | false =>
        obtain ⟨rest, hrest, hscans'⟩ :=
          hnext (data.drop (data.length / w * w)) (base + data.length / w * w)
        have hwhole := hscans.append hfound (by rw [hlength]; exact hscans')
        rw [hparts] at hwhole
        refine ⟨_, ?_, hwhole⟩
        rw [if_neg (by simp)]
        dsimp only
        rw [hrest]
        rfl
  · exact hnext data base

/-- In every build the whole buffer is scanned. -/
theorem hasZero_scans (build : Build) (data : Bytes) :
    ∃ scan, hasZero build data = some scan ∧ Scans data 0 scan :=
  hasZeroStage_scans _ _ (by decide)
    (hasZeroStage_scans _ _ (by decide) hasZeroTail_scans) data 0

/-- No byte is examined in two loops, or twice in one. -/
theorem Scans.unique (h : Scans data base scan) {i : Nat}
    (hi : i ∈ scan.examined.map Prod.snd) : ∃! name, (name, i) ∈ scan.examined := by
  have hnodup : (scan.examined.map Prod.snd).Nodup := h.front.sublist.nodup List.nodup_range'
  obtain ⟨⟨name, _⟩, hmem, rfl⟩ := List.mem_map.mp hi
  refine ⟨name, hmem, fun other hother => ?_⟩
  exact congrArg Prod.fst (List.inj_on_of_nodup_map hnodup hother hmem rfl)

/-- **Every build finds a zero if there is one.**  The loops take the bytes in order, none twice,
and all of them unless a zero ends the search. -/
theorem hasZero_exact (build : Build) (data : Bytes) :
    ∃ scan, hasZero build data = some scan ∧ (scan.found = true ↔ 0 ∈ data) ∧
      scan.examined.map Prod.snd <+: List.range data.length ∧
      (∀ i ∈ scan.examined.map Prod.snd, ∃! name, (name, i) ∈ scan.examined) ∧
      (scan.found = false → scan.examined.map Prod.snd = List.range data.length) ∧
      (scan.found = true → ∃ i, data[i]? = some 0 ∧ i ∈ scan.examined.map Prod.snd) := by
  obtain ⟨scan, hscan, hscans⟩ := hasZero_scans build data
  have hfront := hscans.front
  have hwhole := hscans.whole
  have hreached := hscans.reached
  rw [← List.range_eq_range'] at hfront hwhole
  simp only [Nat.zero_add] at hreached
  exact ⟨scan, hscan, hscans.found, hfront, fun i hi => hscans.unique hi, hwhole, hreached⟩

/-- The byte behind a zero is examined in no loop. -/
theorem zero_ends_search :
    ∃ scan, hasZero .neither [0, 1] = some scan ∧ ∀ name, (name, 1) ∉ scan.examined :=
  ⟨⟨true, [(.tail, 0)]⟩, by decide, by simp⟩

end HasZero

/-! ## one hash on every platform -/

section HashString

variable {data xs ys : Bytes} {c : UInt8} {signed : Bool} {x y : UInt64}

/-- An ASCII byte widens to itself. -/
theorem widen_of_lt (signed : Bool) (hc : c < 128) : widen signed c = c.toUInt64 := by
  have hall : ∀ n < 128, ∀ signed, widen signed (UInt8.ofNat n) = (UInt8.ofNat n).toUInt64 := by
    decide +kernel
  have h := hall c.toNat (UInt8.lt_iff_toNat_lt.mp hc) signed
  rwa [UInt8.ofNat_toNat] at h

/-- A signed `char` from 128 on is widened with ones. -/
theorem widen_ne (hc : 128 ≤ c) : widen true c ≠ c.toUInt64 := by
  have hall : ∀ n < 256, 128 ≤ n → widen true (UInt8.ofNat n) ≠ (UInt8.ofNat n).toUInt64 := by
    decide +kernel
  have h := hall c.toNat c.toNat_lt (UInt8.le_iff_toNat_le.mp hc)
  rwa [UInt8.ofNat_toNat] at h

/-- The prime is odd, so no two values have one product. -/
theorem mul_prime_inj : x * 1099511628211 = y * 1099511628211 ↔ x = y := by
  refine ⟨fun h => ?_, fun h => by rw [h]⟩
  have hinverse : (1099511628211 : UInt64) * 14886173955864302971 = 1 := by decide
  rw [← UInt64.mul_one x, ← UInt64.mul_one y, ← hinverse, ← UInt64.mul_assoc, h, UInt64.mul_assoc]

/-- Hashing two parts goes on with the second from the hash of the first. -/
theorem hashString_append (xs ys : Bytes) : hashString signed (xs ++ ys) =
    ys.foldl (fun hash c => (hash ^^^ widen signed c) * 1099511628211) (hashString signed xs) :=
  List.foldl_append

theorem fnv1a_append (xs ys : Bytes) : fnv1a (xs ++ ys) =
    ys.foldl (fun hash c => (hash ^^^ c.toUInt64) * 1099511628211) (fnv1a xs) :=
  List.foldl_append

/-- With an unsigned `char` the hash is FNV-1a. -/
theorem hashString_unsigned (data : Bytes) : hashString false data = fnv1a data := rfl

/-- On ASCII it is FNV-1a either way. -/
theorem hashString_ascii (signed : Bool) (h : ∀ c ∈ data, c < 128) :
    hashString signed data = fnv1a data :=
  List.foldl_ext _ _ _ fun hash c hc => by rw [widen_of_lt signed (h c hc)]

/-- Bytes below 128 keep two hashes as they are, the same or not. -/
theorem foldl_ascii_inj (h : ∀ c ∈ data, c < 128) (x y : UInt64) :
    data.foldl (fun hash c => (hash ^^^ widen true c) * 1099511628211) x =
        data.foldl (fun hash c => (hash ^^^ c.toUInt64) * 1099511628211) y ↔ x = y := by
  induction data generalizing x y with
  | nil => rfl
  | cons c data ih =>
      rw [List.forall_mem_cons] at h
      rw [List.foldl_cons, List.foldl_cons, ih h.2, mul_prime_inj, widen_of_lt true h.1]
      exact UInt64.xor_left_inj _

/-- With one byte from 0x80 on a signed `char` makes it another hash. -/
theorem hashString_one_wide (hc : 128 ≤ c) (hxs : ∀ d ∈ xs, d < 128) (hys : ∀ d ∈ ys, d < 128) :
    hashString true (xs ++ c :: ys) ≠ fnv1a (xs ++ c :: ys) := by
  rw [hashString_append, fnv1a_append, List.foldl_cons, List.foldl_cons, ne_eq,
    foldl_ascii_inj hys, mul_prime_inj, hashString_ascii true hxs]
  exact fun heq => widen_ne hc ((UInt64.xor_right_inj _).mp heq)

/-- A string that is not ASCII, parted at its first byte from 128 on. -/
theorem exists_first_wide (h : ¬∀ c ∈ data, c < 128) :
    ∃ xs c ys, data = xs ++ c :: ys ∧ (∀ d ∈ xs, d < 128) ∧ 128 ≤ c := by
  have hfind : (data.find? (128 ≤ ·)).isSome := by simpa using h
  obtain ⟨c, hc⟩ := Option.isSome_iff_exists.mp hfind
  obtain ⟨hge, xs, ys, hdata, hxs⟩ := List.find?_eq_some_iff_append.mp hc
  exact ⟨xs, c, ys, hdata, by simpa using hxs, by simpa using hge⟩

/-- The two hashes part right behind the first byte from 128 on. -/
theorem exists_take_ne (h : ¬∀ c ∈ data, c < 128) :
    ∃ n, hashString true (data.take n) ≠ fnv1a (data.take n) := by
  obtain ⟨xs, c, ys, rfl, hxs, hc⟩ := exists_first_wide h
  refine ⟨(xs ++ [c]).length, ?_⟩
  rw [List.append_cons xs c ys, List.take_left]
  exact hashString_one_wide hc hxs (List.forall_mem_nil _)

/-- With one such byte anywhere the hash is not FNV-1a. -/
theorem hashString_countP (h : data.countP (128 ≤ ·) = 1) :
    hashString true data ≠ fnv1a data := by
  have hwide : ¬∀ c ∈ data, c < 128 := by
    have hpos : 0 < data.countP (128 ≤ ·) := by rw [h]; exact Nat.one_pos
    simpa using List.countP_pos_iff.mp hpos
  obtain ⟨xs, c, ys, rfl, hxs, hc⟩ := exists_first_wide hwide
  refine hashString_one_wide hc hxs ?_
  rw [List.countP_append, List.countP_cons_of_pos (by simpa using hc)] at h
  have hys : ys.countP (128 ≤ ·) = 0 := by omega
  simpa using List.countP_eq_zero.mp hys

/-- The hash is FNV-1a of the bytes where `char` is unsigned or each byte is below 128. A
signed `char` gives another hash to each string with one byte from 128 on, and to some first
part of each string with more of them. -/
theorem hashString_fnv1a (signed : Bool) (data : Bytes) :
    ((signed = false ∨ ∀ c ∈ data, c < 128) → hashString signed data = fnv1a data) ∧
      ((∀ n, hashString signed (data.take n) = fnv1a (data.take n)) ↔
        signed = false ∨ ∀ c ∈ data, c < 128) ∧
      (signed = true → data.countP (128 ≤ ·) = 1 → hashString signed data ≠ fnv1a data) := by
  refine ⟨?_, ⟨fun h => ?_, ?_⟩, ?_⟩
  · rintro (rfl | h)
    · exact hashString_unsigned data
    · exact hashString_ascii signed h
  · cases signed with
    | false => exact .inl rfl
    | true =>
        refine .inr (by_contra fun hwide => ?_)
        obtain ⟨n, hn⟩ := exists_take_ne hwide
        exact hn (h n)
  · rintro (rfl | h) n
    · exact hashString_unsigned _
    · exact hashString_ascii signed fun c hc => h c (List.mem_of_mem_take hc)
  · rintro rfl h
    exact hashString_countP h

theorem hashString_high_byte :
    ¬∀ signed, hashString signed [0x80] = fnv1a [0x80] := by
  decide +kernel

-- Two such bytes can make up for each other.
example : hashString true [0xA5, 0x80] = fnv1a [0xA5, 0x80] := by decide +kernel

end HashString

end Simd

end AstraKV
