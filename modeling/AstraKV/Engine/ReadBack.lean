import AstraKV.Data.StreamHistory
import AstraKV.Engine.Reply
import AstraKV.ZSet.Run

/-!
# AstraKV.Engine.ReadBack

Reading a value back right after it was written.

A byte string always comes back.  The writes of the other types register the
key only when they make its value; where there was one, the metadata may be
gone or expired, and the write is lost to every read that asks it.

A write with `edit` looks into the map only, a read asks the metadata first;
the two disagree where a value stands in the map without valid metadata.
`Writable` names the cases in which they do not, and for each type the write
is read back exactly then. Sorted sets need their score to be a number, and a
stream needs the entry to be found again under its own ID.
-/

namespace AstraKV

open Slot Machine

namespace Engine

variable {E : Env} {e : Engine E} {c c' : Call} {t : KeyType} {key k : Bytes}

/-! ## after an edit -/

/-- What a read that asks the metadata finds after an edit at the same time. -/
theorem guarded_edit {s : Slot E} {disk : Bool} {fresh : Option Bytes → Value E t}
    {f : Value E t → Bool × Value E t} {β : Type} {dim : Nat} {absent : β} {read : Value E t → β}
    (hnow : c'.now = c.now) :
    (s.act c disk (.edit t fresh f)).guarded c' t dim absent read =
      if s.value t = none ∨ s.valid c.now = true then read (f (s.edited t (fresh s.record))).2
      else absent := by
  by_cases hwritable : s.value t = none ∨ s.valid c.now = true
  · have hvalid : (s.act c disk (.edit t fresh f)).valid c.now = true :=
      (valid_edit c.now).mpr hwritable
    rw [if_pos hwritable, guarded_valid (hnow ▸ hvalid)]
    exact answer_found (found_of_value value_edit)
  · rw [if_neg hwritable]
    refine guarded_absent (Bool.eq_false_iff.mpr ?_)
    rw [hnow]
    exact mt (valid_edit c.now).mp hwritable

/-! ## without a memory limit -/

/-- Without a limit the pass removes what is expired and leaves all else. -/
theorem slot_checkMemoryAndEvict (hmax : e.opts.maxMb = 0) (k : Bytes) :
    (e.checkMemoryAndEvict c).slot k =
      if (e.slot k).expired c.now then .empty else e.slot k := by
  unfold checkMemoryAndEvict
  dsimp only
  rw [opts_cleanupExpired, if_pos (.inl hmax)]
  exact slot_cleanupExpired e c k

section Write

variable {α : Type} {fresh : Value E t} {change : Value E t → α × Value E t} {keep : α → Bool}

/-- The slot of a key that was written. -/
theorem slot_write (hmax : e.opts.maxMb = 0) :
    (e.write c t key fresh change keep).2.slot key =
      if ((e.slot key).act c e.disk (.edit t (fun _ => fresh) (persistIf keep change))).expired
        c.now then .empty
      else (e.slot key).act c e.disk (.edit t (fun _ => fresh) (persistIf keep change)) := by
  obtain ⟨e₁, hleaves, heq⟩ := write_leaves e c key fresh change keep
  rw [heq, slot_checkMemoryAndEvict (by rw [hleaves.opts, hmax]), hleaves.slot_self]

/-- What a read that asks the metadata finds after a write at the same time. -/
theorem guarded_write {β : Type} {dim : Nat} {absent : β} {read : Value E t → β}
    (hmax : e.opts.maxMb = 0) (hnow : c'.now = c.now) :
    ((e.write c t key fresh change keep).2.slot key).guarded c' t dim absent read =
      if (e.slot key).value t = none ∨ (e.slot key).valid c.now = true then
        read (change ((e.slot key).edited t fresh)).2
      else absent := by
  rw [slot_write hmax]
  by_cases hwritable : (e.slot key).value t = none ∨ (e.slot key).valid c.now = true
  · have hvalid : ((e.slot key).act c e.disk (.edit t (fun _ => fresh)
        (persistIf keep change))).valid c.now = true := (valid_edit c.now).mpr hwritable
    rw [not_expired_of_valid hvalid, if_neg Bool.false_ne_true, guarded_edit hnow,
      if_pos hwritable, if_pos hwritable]
    rfl
  · rw [if_neg hwritable]
    refine guarded_absent ?_
    rw [hnow, valid_cleaned]
    exact Bool.eq_false_iff.mpr (mt (valid_edit c.now).mp hwritable)

end Write

/-! ## the writes -/

/-- What was put is what `get` returns. -/
theorem put_get (hmax : e.opts.maxMb = 0) (hnow : c'.now = c.now) (k v : Bytes) :
    ((e.put c k v).2.get c' k).1 = some v := by
  obtain ⟨e₁, hleaves, -, heq⟩ := put_leaves c e k v
  have hvalid : (e₁.slot k).valid c.now = true := by
    rw [hleaves.slot_self]
    simp [act, Slot.valid, register, KeyMetadata.ofType, KeyMetadata.isExpired]
  have hvalue : (e₁.slot k).value .kBytes = some v := by
    rw [hleaves.slot_self]
    simp [act]
  rw [heq, get_fst, slot_checkMemoryAndEvict (by rw [hleaves.opts, hmax]),
    not_expired_of_valid hvalid, if_neg Bool.false_ne_true, hnow, hvalid, if_pos rfl, hvalue]
  rfl

/-- The write of a value of type `t` registers the key, or finds it valid. -/
def Writable (e : Engine E) (c : Call) (k : Bytes) (t : KeyType) : Prop :=
  k ∉ e.data t ∨ (e.existsKey c k).1 = true

instance : Decidable (e.Writable c k t) := inferInstanceAs (Decidable (_ ∨ _))

/-- A value is written where there is none yet or the key is valid. -/
theorem writable_iff :
    e.Writable c k t ↔ (e.slot k).value t = none ∨ (e.slot k).valid c.now = true := by
  have hexists : (e.existsKey c k).1 = (e.slot k).valid c.now := isValid_fst c.now
  have hvalue : k ∉ e.data t ↔ (e.slot k).value t = none := AList.lookup_eq_none.symm
  rw [Writable, hexists, hvalue]

/-- When the score written is read back. -/
theorem zadd_zscore_iff (hmax : e.opts.maxMb = 0) (hnow : c'.now = c.now) (k m : Bytes)
    {s : Binary64} (hs : s.isNaN = false) :
    (∃ s', ((e.zadd c k m s).2.zscore c' k m).1 = some s' ∧ s'.Equal s) ↔
      e.Writable c k .kZSet := by
  rw [zscore_fst, zadd, guarded_write hmax hnow, writable_iff]
  by_cases hwritable : (e.slot k).value .kZSet = none ∨ (e.slot k).valid c.now = true
  · simp only [hwritable, if_true, iff_true, ZSetBPlus.getScore_add, true_and]
    by_cases hnew : ∀ old, ((e.slot k).edited .kZSet .empty).getScore m = some old → ¬ old.Equal s
    · rw [if_pos hnew]
      exact ⟨s, rfl, .refl hs⟩
    · rw [if_neg hnew]
      simpa using hnew
  · simp [hwritable]

/-- When the field written is read back. -/
theorem hset_hget_iff (hmax : e.opts.maxMb = 0) (hnow : c'.now = c.now) (k f v : Bytes) :
    ((e.hset c k f v).2.hget c' k f).1 = some v ↔ e.Writable c k .kHash := by
  rw [hget_fst, hset, guarded_write hmax hnow, writable_iff, AList.lookup_insert]
  by_cases hwritable : (e.slot k).value .kHash = none ∨ (e.slot k).valid c.now = true <;>
    simp [hwritable]

/-- When the member written is read back. -/
theorem sadd_sismember_iff (hmax : e.opts.maxMb = 0) (hnow : c'.now = c.now) (k m : Bytes) :
    ((e.sadd c k m).2.sismember c' k m).1 = true ↔ e.Writable c k .kSet := by
  rw [sismember_fst, sadd, guarded_write hmax hnow, writable_iff, AList.lookup_insert]
  simp

/-- When the entry written is read back. -/
theorem xadd_xrange_iff (hmax : e.opts.maxMb = 0) (hnow : c'.now = c.now) (k id : Bytes)
    (fields : List (Bytes × Bytes)) (haccepted : (e.xadd c k id fields).1 ≠ []) :
    (∃ entry ∈ ((e.xadd c k id fields).2.xrange c' k (e.xadd c k id fields).1
        (e.xadd c k id fields).1 0).1, entry.id = (e.xadd c k id fields).1) ↔
      e.Writable c k .kStream ∧
        ∀ s, e.find .kStream k = some s → s.Lists (s.newId c.now id) := by
  have hfst : (e.xadd c k id fields).1 =
      (((e.slot k).edited .kStream .empty).xAdd c.now id fields).1 := edit_fst _ _ _ _
  rw [hfst] at haccepted
  obtain ⟨hid, hentries⟩ := StreamData.xAdd_accepted haccepted
  rw [hfst, xrange_fst, xadd, guarded_write hmax hnow, writable_iff, hid]
  by_cases hwritable : (e.slot k).value .kStream = none ∨ (e.slot k).valid c.now = true
  · simp only [hwritable, if_true, true_and, StreamData.xRange_append hentries]
    have hvalue : e.find .kStream k = (e.slot k).value .kStream := rfl
    rw [hvalue]
    unfold edited
    cases (e.slot k).value .kStream with
    | none => simpa using StreamData.lists_empty _
    | some s => simp
  · simp [hwritable]

/-! ## all of them -/

/-- What is written is read back at the same time, a value other than a byte string if and only if
its key can be written, and a stream entry only where the range finds it. -/
theorem write_read_iff (hmax : e.opts.maxMb = 0) (hnow : c'.now = c.now) (k : Bytes) :
    (∀ v, ((e.put c k v).2.get c' k).1 = some v) ∧
    (∀ m s, s.isNaN = false →
      ((∃ s', ((e.zadd c k m s).2.zscore c' k m).1 = some s' ∧ s'.Equal s) ↔
        e.Writable c k .kZSet)) ∧
    (∀ f v, ((e.hset c k f v).2.hget c' k f).1 = some v ↔ e.Writable c k .kHash) ∧
    (∀ m, ((e.sadd c k m).2.sismember c' k m).1 = true ↔ e.Writable c k .kSet) ∧
    (∀ id fields, (e.xadd c k id fields).1 ≠ [] →
      ((∃ entry ∈ ((e.xadd c k id fields).2.xrange c' k (e.xadd c k id fields).1
          (e.xadd c k id fields).1 0).1, entry.id = (e.xadd c k id fields).1) ↔
        e.Writable c k .kStream ∧
          ∀ s, e.find .kStream k = some s → s.Lists (s.newId c.now id))) :=
  ⟨put_get hmax hnow k, fun m _ hs => zadd_zscore_iff hmax hnow k m hs, hset_hget_iff hmax hnow k,
    sadd_sismember_iff hmax hnow k, xadd_xrange_iff hmax hnow k⟩

theorem write_read_iff_new :
    (((new Env.bare ⟨[], 0, .k2Q⟩ none).zadd (.ofNow 5) [107] [109] ⟨1⟩).2.zscore (.ofNow 5) [107]
      [109]).1.isSome = true := by
  have hnow : (Call.ofNow 5).now = (Call.ofNow 5).now := rfl
  have h := (write_read_iff (e := new Env.bare ⟨[], 0, .k2Q⟩ none) rfl hnow [107]).2.1
    [109] ⟨1⟩ (by decide)
  obtain ⟨s', hs', -⟩ := h.mpr (.inl (by decide))
  rw [hs']
  rfl

/-- A sorted set written to after it expired. -/
theorem zadd_lost :
    ((final step (new Env.bare ⟨[], 0, .k2Q⟩ none)
      [(.ofNow 5, .zadd [107] [109] ⟨1⟩), (.ofNow 5, .expire [107] 10),
        (.ofNow 20, .zadd [107] [109] ⟨2⟩)]).zscore (.ofNow 20) [107] [109]).1 = none := by
  decide +kernel

end Engine

end AstraKV
