import AstraKV.Engine.Victims

/-!
# AstraKV.Engine.LeastVictim

Whether a policy chooses a key with the least value.

The loops start from the greatest value there is and take a key whose value
is less: a key with that very value is never taken.

The three loops are one, `selectVictim`, with another value to compare and
another bound to start from. It returns the first key whose value is least,
provided that this value is below the bound; the bounds are the greatest
access time, the greatest counter and the greatest time to live there are. So
a policy fails exactly when all its candidates have the greatest value, and
then it chooses none.
-/

namespace AstraKV

namespace Engine

variable {candidates : List Bytes} {metas : KeyMetadataManager} {now : Int}

section Select

variable {β : Type} [LinearOrder β] {value : Bytes → β} {counts : β → Bool} {keys : List Bytes}
  {best : Option Bytes} {bound : β} {k : Bytes}

/-- Once a key is taken the loop ends with one. -/
theorem selectVictim_some_ne_none :
    selectVictim value counts keys (some k) bound ≠ none := by
  induction keys generalizing k bound with
  | nil => exact Option.some_ne_none k
  | cons k' keys ih =>
      unfold selectVictim
      split
      · exact ih
      · exact ih

/-- No key is taken if no value is below the bound. -/
theorem selectVictim_eq_none_iff :
    selectVictim value (fun _ => true) keys none bound = none ↔ ∀ k ∈ keys, bound ≤ value k := by
  induction keys with
  | nil => simp [selectVictim]
  | cons k keys ih =>
      rw [List.forall_mem_cons]
      unfold selectVictim
      by_cases hlt : value k < bound
      · rw [if_pos ⟨rfl, hlt⟩]
        exact iff_of_false selectVictim_some_ne_none fun h => not_le.mpr hlt h.1
      · rw [if_neg fun h => hlt h.2, ih]
        exact (and_iff_right (not_lt.mp hlt)).symm

/-- Only the values that count are compared. -/
theorem selectVictim_counted :
    selectVictim value counts keys best bound =
      selectVictim value (fun _ => true) (keys.filter fun k => counts (value k)) best bound := by
  induction keys generalizing best bound with
  | nil => rfl
  | cons k keys ih =>
      cases hcounts : counts (value k) with
      | false => simp [selectVictim, hcounts, ih]
      | true => simp [selectVictim, hcounts, ih]

/-- The key chosen is one of the keys. -/
theorem FirstLeast.mem (h : FirstLeast value keys bound k) : k ∈ keys := by
  obtain ⟨-, before, after, rfl, -⟩ := h
  simp

/-- Its value is the least. -/
theorem FirstLeast.le (h : FirstLeast value keys bound k) : ∀ k' ∈ keys, value k ≤ value k' := by
  obtain ⟨-, before, after, rfl, hbefore, hafter⟩ := h
  intro k' hk'
  rw [List.mem_append, List.mem_cons] at hk'
  obtain hk' | rfl | hk' := hk'
  · exact (hbefore k' hk').le
  · exact le_rfl
  · exact hafter k' hk'

/-- **When the loop finds the least.**  It does if some value is below the one it starts from. -/
theorem selectVictim_least_iff :
    (∃ k ∈ keys, selectVictim value (fun _ => true) keys none bound = some k ∧
        ∀ k' ∈ keys, value k ≤ value k') ↔
      ∃ k ∈ keys, value k < bound := by
  constructor
  · rintro ⟨k, hk, hselect, -⟩
    rw [selectVictim_eq_some_iff] at hselect
    obtain ⟨hnone, -⟩ | hfirst := hselect
    · cases hnone
    · exact ⟨k, hk, hfirst.1⟩
  · rintro ⟨k₀, hk₀, hlt⟩
    cases hselect : selectVictim value (fun _ => true) keys none bound with
    | none => exact absurd (selectVictim_eq_none_iff.mp hselect k₀ hk₀) (not_le.mpr hlt)
    | some k =>
        rw [selectVictim_eq_some_iff] at hselect
        obtain ⟨hnone, -⟩ | hfirst := hselect
        · cases hnone
        · exact ⟨k, hfirst.mem, rfl, hfirst.le⟩

end Select

/-! ## the three policies -/

/-- A candidate accessed least recently is chosen. -/
def LruLeast (candidates : List Bytes) (metas : KeyMetadataManager) : Prop :=
  ∃ k ∈ candidates, selectVictimLru candidates metas = some k ∧
    ∀ k' ∈ candidates, metas.getAccessTime k ≤ metas.getAccessTime k'

/-- A candidate accessed least often is chosen. -/
def LfuLeast (candidates : List Bytes) (metas : KeyMetadataManager) : Prop :=
  ∃ k ∈ candidates, selectVictimLfu candidates metas = some k ∧
    ∀ k' ∈ candidates, metas.getLFUCounter k ≤ metas.getLFUCounter k'

/-- Of the candidates that will expire the next to do so is chosen, if there is one. -/
def TtlLeast (candidates : List Bytes) (metas : KeyMetadataManager) (now : Int) : Prop :=
  ((∃ k ∈ candidates, 0 < metas.getTtlMs now k) →
      ∃ k ∈ candidates, selectVictimTtl candidates metas now = some k ∧ 0 < metas.getTtlMs now k ∧
        ∀ k' ∈ candidates, 0 < metas.getTtlMs now k' →
          metas.getTtlMs now k ≤ metas.getTtlMs now k') ∧
    ((∀ k ∈ candidates, ¬ 0 < metas.getTtlMs now k) →
      selectVictimTtl candidates metas now = none)

/-- LRU chooses a least key unless all have the greatest access time. -/
theorem lruLeast_iff :
    LruLeast candidates metas ↔
      ∃ k ∈ candidates, metas.getAccessTime k ≠ UInt32.ofNat (2 ^ 32 - 1) := by
  have hrank := fun x y => UInt32.lt_iff_toNat_lt (a := x) (b := y)
  have htop : (UInt32.ofNat (2 ^ 32 - 1)).toNat = 2 ^ 32 - 1 := by decide
  unfold LruLeast selectVictimLru
  rw [selectVictim_rank UInt32.toNat hrank]
  refine selectVictim_least_iff.trans (exists_congr fun k => and_congr_right fun _ => ?_)
  have hlt := (metas.getAccessTime k).toNat_lt
  rw [ne_eq, ← UInt32.toNat_inj, htop]
  omega

/-- LFU chooses a least key unless all have the greatest counter. -/
theorem lfuLeast_iff :
    LfuLeast candidates metas ↔
      ∃ k ∈ candidates, metas.getLFUCounter k ≠ UInt8.ofNat (2 ^ 8 - 1) := by
  have hrank := fun x y => UInt8.lt_iff_toNat_lt (a := x) (b := y)
  have htop : (UInt8.ofNat (2 ^ 8 - 1)).toNat = 2 ^ 8 - 1 := by decide
  unfold LfuLeast selectVictimLfu
  rw [selectVictim_rank UInt8.toNat hrank]
  refine selectVictim_least_iff.trans (exists_congr fun k => and_congr_right fun _ => ?_)
  have hlt := (metas.getLFUCounter k).toNat_lt
  rw [ne_eq, ← UInt8.toNat_inj, htop]
  omega

/-- The candidates that will expire. -/
def expiring (candidates : List Bytes) (metas : KeyMetadataManager) (now : Int) : List Bytes :=
  candidates.filter fun k => decide (0 < metas.getTtlMs now k)

/-- A candidate that will expire has some time to live. -/
theorem mem_expiring {k : Bytes} :
    k ∈ expiring candidates metas now ↔ k ∈ candidates ∧ 0 < metas.getTtlMs now k := by
  simp [expiring]

/-- The TTL policy runs the loop over the candidates that will expire. -/
theorem selectVictimTtl_eq :
    selectVictimTtl candidates metas now = selectVictim (metas.getTtlMs now) (fun _ => true)
      (expiring candidates metas now) none (2 ^ 63 - 1) :=
  selectVictim_counted

/-- The TTL policy chooses a least key unless all that expire have the greatest time to
live. -/
theorem ttlLeast_iff :
    TtlLeast candidates metas now ↔
      ((∃ k ∈ candidates, 0 < metas.getTtlMs now k) →
        ∃ k ∈ candidates, 0 < metas.getTtlMs now k ∧ metas.getTtlMs now k < 2 ^ 63 - 1) := by
  have hnone : (∀ k ∈ candidates, ¬ 0 < metas.getTtlMs now k) →
      selectVictimTtl candidates metas now = none := by
    intro hall
    rw [selectVictimTtl_eq, selectVictim_eq_none_iff]
    intro k hk
    obtain ⟨hmem, hpos⟩ := mem_expiring.mp hk
    exact absurd hpos (hall k hmem)
  have hleast : (∃ k ∈ expiring candidates metas now,
      selectVictimTtl candidates metas now = some k ∧ ∀ k' ∈ expiring candidates metas now,
        metas.getTtlMs now k ≤ metas.getTtlMs now k') ↔
      ∃ k ∈ expiring candidates metas now, metas.getTtlMs now k < 2 ^ 63 - 1 := by
    rw [selectVictimTtl_eq]
    exact selectVictim_least_iff
  simp only [mem_expiring, and_imp, and_assoc] at hleast
  unfold TtlLeast
  rw [and_iff_left hnone, ← hleast]
  refine imp_congr_right fun _ => exists_congr fun k => and_congr_right fun _ => ?_
  exact and_left_comm

/-- **Which values are never taken.**  Each policy chooses a least candidate if one of them is below
the greatest value of its type. -/
theorem victims_least_iff (candidates : List Bytes) (metas : KeyMetadataManager) (now : Int) :
    LruLeast candidates metas ∧ LfuLeast candidates metas ∧ TtlLeast candidates metas now ↔
      (∃ k ∈ candidates, metas.getAccessTime k ≠ UInt32.ofNat (2 ^ 32 - 1)) ∧
        (∃ k ∈ candidates, metas.getLFUCounter k ≠ UInt8.ofNat (2 ^ 8 - 1)) ∧
        ((∃ k ∈ candidates, 0 < metas.getTtlMs now k) →
          ∃ k ∈ candidates, 0 < metas.getTtlMs now k ∧ metas.getTtlMs now k < 2 ^ 63 - 1) := by
  rw [lruLeast_iff, lfuLeast_iff, ttlLeast_iff]

/-- A key with a full counter is the only candidate, and no victim. -/
theorem lfu_finds_none :
    ¬ LfuLeast [[97]] (AList.insert [97] ⟨.kBytes, none, 1, 0, 255⟩ ∅) := by
  rw [lfuLeast_iff]
  decide

end Engine

end AstraKV
