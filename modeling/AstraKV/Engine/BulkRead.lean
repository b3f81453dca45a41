import AstraKV.Engine.EntryBuffer
import AstraKV.Engine.Reply

/-!
# AstraKV.Engine.BulkRead

The bulk reads of the C interface against those of the engine.

`astrakv_hgetall` and `astrakv_smembers` do not ask the metadata.  They
return what the engine does for a valid key, and for another one only if
there is nothing to return.

The engine's own `hgetall` and `smembers` check the deadline first; the
functions behind the C interface were written apart from them and look the
container up directly. So a key whose deadline is past is still listed in
bulk, although each of its fields is already gone for `hget`. The buffers are
decoded before they are compared, since their order is that of a hash table.
-/

namespace AstraKV

open Framed Machine

/-- The pairs in a buffer of `astrakv_hgetall`. -/
def unpackPairs (buffer : Bytes) : Option (List (Bytes × Bytes)) :=
  readAll pairItem buffer.length buffer

/-- The members in a buffer of `astrakv_smembers`. -/
def unpackMembers (buffer : Bytes) : Option (List Bytes) :=
  readAll getBytes? buffer.length buffer

/-- Every item has a byte at least. -/
theorem length_le_flatMap {α : Type} {write : α → Bytes} (hwrite : ∀ a, write a ≠ [])
    (as : List α) : as.length ≤ (as.flatMap write).length := by
  induction as with
  | nil => simp
  | cons a as ih =>
      have hpos := List.length_pos_iff.mpr (hwrite a)
      rw [List.flatMap_cons, List.length_append, List.length_cons]
      omega

/-- The packed pairs unpack to themselves. -/
theorem unpackPairs_packFields {ps : List (Bytes × Bytes)} (h : ∀ p ∈ ps, FitsPair p) :
    unpackPairs (packFields ps) = some ps := by
  rw [packFields_of_fits h]
  exact readAll_flatMap (length_le_flatMap putPair_ne_nil ps) putPair_ne_nil
    fun p hp rest => lawful_pairItem.complete p rest (h p hp)

/-- The packed members unpack to themselves. -/
theorem unpackMembers_packMembers {ms : List Bytes} (h : ∀ m ∈ ms, m.length < 2 ^ 32) :
    unpackMembers (packMembers ms) = some ms := by
  rw [packMembers_of_lt h]
  exact readAll_flatMap (length_le_flatMap putBytes_ne_nil ms) putBytes_ne_nil
    fun m hm rest => lawful_getBytes?.complete m rest (h m hm)

namespace Engine

variable {E : Env} {e : Engine E} {c : Call} {k : Bytes}

/-- A value read with and without the question whether the key is valid. -/
theorem guarded_eq_answer_iff {t : KeyType} {α : Type} {read : Value E t → List α} {s : Slot E} :
    s.answer c t 0 [] read = s.guarded c t 0 [] read ↔
      s.valid c.now = true ∨ ∀ v, s.found c t 0 = some v → read v = [] := by
  cases hvalid : s.valid c.now with
  | true => simp [Slot.guarded_valid hvalid]
  | false =>
      rw [Slot.guarded_absent hvalid, Slot.answer]
      cases s.found c t 0 <;> simp

/-- The buffers of the C interface hold what the engine's own bulk reads return if and only if the
key exists or the value that is found, in the map or in the record, is empty. -/
theorem bulk_reads_agree_iff
    (hfields : ∀ h, (e.getOrCreateHash k).1 = some h →
      ∀ entry ∈ h.entries, entry.1.length < 2 ^ 32 ∧ entry.2.length < 2 ^ 32)
    (hmembers : ∀ s, (e.getOrCreateSet k).1 = some s → ∀ m ∈ s.keys, m.length < 2 ^ 32) :
    (unpackPairs (e.astrakvHgetall k).1 = some (e.hgetall c k).1 ↔
      (e.existsKey c k).1 = true ∨ ∀ h, (e.getOrCreateHash k).1 = some h → h.entries = []) ∧
    (unpackMembers (e.astrakvSmembers k).1 = some (e.smembers c k).1 ↔
      (e.existsKey c k).1 = true ∨ ∀ s, (e.getOrCreateSet k).1 = some s → s.keys = []) := by
  have hexists : (e.existsKey c k).1 = (e.slot k).valid c.now := isValid_fst c.now
  rw [(getOrCreateHash_fetches e c k).found] at hfields ⊢
  rw [(getOrCreateSet_fetches e c k).found] at hmembers ⊢
  rw [hexists]
  constructor
  · have hbuffer : unpackPairs (e.astrakvHgetall k).1 =
        some ((e.slot k).answer c .kHash 0 [] fieldsOf) := by
      rw [astrakvHgetall_fst e c k]
      unfold Slot.answer
      cases hfound : (e.slot k).found c .kHash 0 with
      | none => rfl
      | some h =>
          refine unpackPairs_packFields fun p hp => ?_
          obtain ⟨entry, hentry, rfl⟩ := List.mem_map.mp hp
          exact hfields h hfound entry hentry
    rw [hbuffer, hgetall_fst, Option.some_inj, guarded_eq_answer_iff]
    simp [fieldsOf]
  · have hbuffer : unpackMembers (e.astrakvSmembers k).1 =
        some ((e.slot k).answer c .kSet 0 [] AList.keys) := by
      rw [astrakvSmembers_fst e c k]
      unfold Slot.answer
      cases hfound : (e.slot k).found c .kSet 0 with
      | none => rfl
      | some s => exact unpackMembers_packMembers (hmembers s hfound)
    rw [hbuffer, smembers_fst, Option.some_inj, guarded_eq_answer_iff]

theorem bulk_reads_agree_iff_one :
    unpackPairs ((final step (new Env.bare ⟨[], 0, .k2Q⟩ none)
        [(.ofNow 5, .hset [107] [102] [118])]).astrakvHgetall [107]).1 =
      some ((final step (new Env.bare ⟨[], 0, .k2Q⟩ none)
        [(.ofNow 5, .hset [107] [102] [118])]).hgetall (.ofNow 6) [107]).1 := by
  have hhash : ((final step (new Env.bare ⟨[], 0, .k2Q⟩ none)
      [(.ofNow 5, .hset [107] [102] [118])]).getOrCreateHash [107]).1 =
        some (AList.insert [102] [118] ∅) := rfl
  have hset : ((final step (new Env.bare ⟨[], 0, .k2Q⟩ none)
      [(.ofNow 5, .hset [107] [102] [118])]).getOrCreateSet [107]).1 = none := rfl
  refine (bulk_reads_agree_iff (c := .ofNow 6) ?_ ?_).1.mpr (.inl (by decide +kernel))
  · rw [hhash]
    rintro h ⟨⟩
    decide
  · rw [hset]
    nofun

/-- A hash that expired is returned by the C interface alone. -/
theorem astrakvHgetall_after_expiry :
    ¬ (unpackPairs ((final step (new Env.bare ⟨[], 0, .k2Q⟩ none)
        [(.ofNow 5, .hset [107] [102] [118]), (.ofNow 5, .expire [107] 10)]).astrakvHgetall
          [107]).1 =
      some ((final step (new Env.bare ⟨[], 0, .k2Q⟩ none)
        [(.ofNow 5, .hset [107] [102] [118]), (.ofNow 5, .expire [107] 10)]).hgetall (.ofNow 20)
          [107]).1) := by
  decide +kernel

end Engine

end AstraKV
