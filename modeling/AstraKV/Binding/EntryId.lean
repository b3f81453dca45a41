import AstraKV.Binding.Served
import AstraKV.Engine.StreamAdd

/-!
# AstraKV.Binding.EntryId

The ID of a new stream entry is handed to the caller as a C string and made a
`String` of.  An ID may be any byte string, so it can come out as another one.

Two things happen to an ID on the way: the C string ends at its first zero
byte, and `from_utf8_lossy` replaces what is not UTF-8. So an ID comes through
exactly if it has no zero byte and is valid UTF-8
(`fromUtf8Lossy_takeWhile_eq_iff`). The IDs the stream generates itself are
digits and a hyphen and always come through; one the caller gives explicitly
need not.
-/

namespace AstraKV

open CApi Kv Utf8

variable {E : Env} {A : Allocator} {s : CState E} {id : Bytes}

/-! ## which IDs come through -/

/-- The replacement character has no zero byte. -/
theorem zero_notMem_replacement : (0 : UInt8) ∉ replacement := by decide

/-- No zero byte comes from the conversion. -/
theorem zero_notMem_lossyLoop (fuel : Nat) {bs : Bytes} (h : (0 : UInt8) ∉ bs) :
    (0 : UInt8) ∉ lossyLoop fuel bs := by
  induction fuel generalizing bs with
  | zero => exact List.not_mem_nil
  | succ fuel ih =>
      cases bs with
      | nil => exact List.not_mem_nil
      | cons lead rest =>
          have hrest : (0 : UInt8) ∉ rest := fun hmem => h (List.mem_cons_of_mem lead hmem)
          unfold lossyLoop
          split
          · intro hmem
            obtain hmem | hmem := List.mem_append.mp hmem
            · exact zero_notMem_replacement hmem
            · exact ih hrest hmem
          · rename_i n hn
            dsimp only
            intro hmem
            obtain hmem | hmem := List.mem_append.mp hmem
            · split at hmem
              · obtain hlead | htake := List.mem_cons.mp hmem
                · exact h (hlead ▸ List.mem_cons_self)
                · exact hrest (List.mem_of_mem_take htake)
              · exact zero_notMem_replacement hmem
            · exact ih (fun hdrop => hrest (List.mem_of_mem_drop hdrop)) hmem

/-- An ID comes through as it is exactly if it has no zero byte and is valid UTF-8. -/
theorem fromUtf8Lossy_takeWhile_eq_iff :
    fromUtf8Lossy (id.takeWhile (· ≠ 0)) = id ↔ (0 : UInt8) ∉ id ∧ Valid id := by
  have hzero : (0 : UInt8) ∉ id.takeWhile (· ≠ 0) := fun hmem => by
    simpa using List.mem_takeWhile_imp hmem
  have hwhole : (0 : UInt8) ∉ id → id.takeWhile (· ≠ 0) = id := fun hid =>
    List.takeWhile_eq_self_iff.mpr fun b hb => by
      simpa using fun hb0 : b = 0 => hid (hb0 ▸ hb)
  constructor
  · intro heq
    have hid : (0 : UInt8) ∉ id := by
      rw [← heq]
      exact zero_notMem_lossyLoop _ hzero
    rw [hwhole hid] at heq
    exact ⟨hid, fromUtf8Lossy_eq_self.mp heq⟩
  · rintro ⟨hid, hvalid⟩
    rw [hwhole hid]
    exact fromUtf8Lossy_eq_self.mpr hvalid

/-! ## generated IDs -/

/-- ASCII comes through as it is. -/
theorem lossyLoop_ascii {bs : Bytes} (h : ∀ b ∈ bs, b.toNat < 0x80) {fuel : Nat}
    (hfuel : bs.length ≤ fuel) : lossyLoop fuel bs = bs := by
  induction bs generalizing fuel with
  | nil => cases fuel <;> rfl
  | cons b bs ih =>
      obtain ⟨hb, hbs⟩ := List.forall_mem_cons.mp h
      rw [List.length_cons] at hfuel
      obtain ⟨fuel, rfl⟩ : ∃ m, fuel = m + 1 := ⟨fuel - 1, by omega⟩
      have htrailing : trailing b = some 0 := if_pos hb
      rw [lossyLoop, htrailing]
      dsimp only
      rw [continued, if_pos rfl, List.take_zero, List.drop_zero, ih hbs (by omega)]
      rfl

/-- Digits and the dash. -/
theorem mem_formatId {p : UInt64 × UInt64} {b : UInt8} (h : b ∈ StreamData.formatId p) :
    Decimal.isDigit b = true ∨ b = 45 := by
  unfold StreamData.formatId at h
  obtain hms | h := List.mem_append.mp h
  · exact .inl (Decimal.isDigit_of_mem_ofNat hms)
  · obtain hdash | hseq := List.mem_cons.mp h
    · exact .inr hdash
    · exact .inl (Decimal.isDigit_of_mem_ofNat hseq)

/-- A generated ID consists of digits and hyphens, all of them ASCII. -/
theorem toNat_of_mem_formatId {p : UInt64 × UInt64} {b : UInt8}
    (h : b ∈ StreamData.formatId p) : 45 ≤ b.toNat ∧ b.toNat < 0x80 := by
  obtain hdigit | rfl := mem_formatId h
  · simp only [Decimal.isDigit, decide_eq_true_eq, UInt8.le_iff_toNat_le] at hdigit
    have hlow : (48 : UInt8).toNat = 48 := rfl
    have hhigh : (57 : UInt8).toNat = 57 := rfl
    omega
  · decide

/-- A generated ID comes through. -/
theorem through_formatId (p : UInt64 × UInt64) :
    (0 : UInt8) ∉ StreamData.formatId p ∧ Valid (StreamData.formatId p) := by
  refine ⟨fun hmem => ?_, fromUtf8Lossy_eq_self.mp (lossyLoop_ascii ?_ le_rfl)⟩
  · exact absurd (toNat_of_mem_formatId hmem).1 (by decide)
  · exact fun b hb => (toNat_of_mem_formatId hb).2

/-! ## the answer of `xadd` -/

/-- Asked for an ID of its own, the stream returns the next pair in its format. -/
theorem xAdd_autoId (t : StreamData) (now : Int) (fields : List (Bytes × Bytes)) :
    (t.xAdd now StreamData.autoId fields).1 = StreamData.formatId (t.nextPair now) := by
  rw [StreamData.xAdd, if_pos rfl]

/-- **The ID of a new entry comes back as it was stored** just when it has no zero byte and is
UTF-8, and so for every `*`, if there is a buffer for it; and without a buffer the entry is stored
all the same. -/
theorem xadd_returns_id_iff (hfresh : s.heap.Fresh) (c : Call) (key id fields : Bytes) :
    ∃ fvec res s', decodeFields fields = some fvec ∧
      Kv.xadd A c key id fields s = some (res, s') ∧
      s'.engine = (s.engine.xadd c key id fvec).2 ∧ s'.heap.block = s.heap.block ∧
      ∀ newId, (s.engine.xadd c key id fvec).1 = newId →
        (res = .ok newId ↔ newId ≠ [] ∧ A.gives s.heap.requests (newId.length + 1) = true ∧
          (0 : UInt8) ∉ newId ∧ Valid newId) ∧
        (id = StreamData.autoId → newId ≠ [] ∧ (0 : UInt8) ∉ newId ∧ Valid newId) := by
  obtain ⟨fvec, hfvec⟩ := exists_decodeFields fields
  obtain ⟨hnil, hcons⟩ := xadd_apply (A := A) hfresh c key id hfvec
  have hauto : id = StreamData.autoId → (s.engine.xadd c key id fvec).1 ≠ [] ∧
      (0 : UInt8) ∉ (s.engine.xadd c key id fvec).1 ∧
      Valid (s.engine.xadd c key id fvec).1 := by
    rintro rfl
    rw [Engine.xadd_fst, xAdd_autoId]
    exact ⟨by simp [StreamData.formatId], through_formatId _⟩
  by_cases hres : (s.engine.xadd c key id fvec).1 = []
  · refine ⟨fvec, _, _, hfvec, hnil hres, rfl, rfl, ?_⟩
    rintro newId rfl
    exact ⟨by simp [hres], hauto⟩
  · refine ⟨fvec, _, _, hfvec, hcons _ rfl hres, rfl, rfl, ?_⟩
    rintro newId rfl
    refine ⟨?_, hauto⟩
    rw [← fromUtf8Lossy_takeWhile_eq_iff]
    cases A.gives s.heap.requests ((s.engine.xadd c key id fvec).1.length + 1) <;> simp [hres]

/-- `5-1` with a zero byte and a letter behind it does not come back. -/
theorem xadd_returns_id_iff_zero :
    ∃ res s', Kv.xadd ⟨fun _ _ => true, fun _ => 0⟩ (.ofNow 0) [1] [53, 45, 49, 0, 120] []
        (⟨.new Env.bare ⟨[], 0, .k2Q⟩ none, ⟨fun _ => none, 0⟩, ∅, 0⟩ : CState Env.bare) =
          some (res, s') ∧
      ¬ res = .ok [53, 45, 49, 0, 120] := by
  obtain ⟨fvec, res, s', hfvec, hcall, -, -, hanswer⟩ :=
    xadd_returns_id_iff (A := ⟨fun _ _ => true, fun _ => 0⟩)
      (s := ⟨.new Env.bare ⟨[], 0, .k2Q⟩ none, ⟨fun _ => none, 0⟩, ∅, 0⟩) (fun _ _ => rfl)
      (.ofNow 0) [1] [53, 45, 49, 0, 120] []
  have hnone : decodeFields (packFields []) = some [] := decodeFields_packFields (by simp)
  obtain rfl : fvec = [] := Option.some.inj (hfvec.symm.trans hnone)
  refine ⟨res, s', hcall, fun hok => ?_⟩
  have hzero := ((hanswer [53, 45, 49, 0, 120] (by decide +kernel)).1.mp hok).2.2.1
  exact hzero (by decide)

end AstraKV
