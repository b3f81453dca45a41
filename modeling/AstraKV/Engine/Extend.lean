import AstraKV.Data.StreamHistory
import AstraKV.Engine.Reopen
import AstraKV.Engine.RoundTrip

/-!
# AstraKV.Engine.Extend

What a write does to a collection that is in its record and not in the map.

Reads load the record first; `zadd`, `lpush`, `rpush`, `hset`, `sadd` and
`xadd` start from an empty collection instead and write it over the record,
and `zrem` does not look at it.

A write of this kind is safe exactly if the collection forgotten held nothing
but what is now written. The statement is the same for each of the seven
operations, and so is the way to it: the record afterwards is the one of a
collection with a single element, and the record before decodes to the old
collection. Strings that do not fit a record spoil it as well, and the
condition says so.
-/

namespace AstraKV

open Slot Framed Machine

namespace Engine

variable {E : Env} {e : Engine E} {c : Call} {t : KeyType} {k : Bytes}

/-! ## the record written -/

/-- The record of a key, from its slot. -/
theorem rocksGet_eq (e : Engine E) (k : Bytes) : e.rocksGet k = (e.slot k).record := rfl

/-- A pass writes no record but that of the value. -/
theorem Slot.Swept.record {s s' : Slot E} {o : Options} (h : Swept c o true s s')
    (hok : ∀ i, c.putOk i = true) {m : KeyMetadata} {v : Value E t}
    (hm : s.metadata = some m) (ht : m.type = t) (hexpire : m.expireTimeMs = none)
    (hvalue : s.value t = some v) (hrecord : s.record = some (serialize t v)) :
    s'.record = some (serialize t v) := by
  cases h with
  | kept => exact hrecord
  | expired h => simp [Slot.expired, hm, KeyMetadata.isExpired, hexpire] at h
  | evicted i m' hlimit hm' hvalid =>
      obtain rfl : m = m' := Option.some.inj (hm.symm.trans hm')
      subst ht
      simp [record_evict, hvalue, hok]

/-- A write to a key without a value of its type makes a record of the fresh value, changed. -/
theorem rocksGet_write {α : Type} (fresh : Value E t) (change : Value E t → α × Value E t)
    (keep : α → Bool) (hdisk : e.disk = true) (hok : ∀ i, c.putOk i = true)
    (hvalue : (e.slot k).value t = none) (hkeep : keep (change fresh).1 = true) :
    (e.write c t k fresh change keep).2.rocksGet k = some (serialize t (change fresh).2) := by
  obtain ⟨e₁, hleaves, heq⟩ := write_leaves e c k fresh change keep
  have hswept := (checkMemoryAndEvict_sweeps c e₁).slot k
  have hedited : (e.slot k).edited t fresh = fresh := by simp [edited, hvalue]
  rw [hleaves.disk, hleaves.slot_self, hdisk] at hswept
  rw [heq, rocksGet_eq]
  refine Slot.Swept.record hswept hok (v := (change fresh).2) (metadata_edit.trans (if_pos hvalue))
    rfl rfl ?_ ?_
  · rw [value_edit, hedited]
    rfl
  · rw [record_edit, hedited]
    simp [persistIf, hkeep, hok]

/-- Where something was loaded there is a store. -/
theorem disk_of_load {β : Type} {deserialize : Bytes → β → Bool × β} {x old : β}
    (h : e.load k deserialize x = (true, old)) : e.disk = true := by
  unfold load rocksGet at h
  unfold disk
  cases hdb : e.rocksdb with
  | none => simp [hdb] at h
  | some db => rfl

/-- A load reads the record there is. -/
theorem load_of_rocksGet {β : Type} {deserialize : Bytes → β → Bool × β} {x : β} {data : Bytes}
    (h : e.rocksGet k = some data) : e.load k deserialize x = deserialize data x := by
  rw [load, h]

/-- A key in no map has no value in its slot. -/
theorem value_eq_none (h : k ∉ e.data t) : (e.slot k).value t = none := AList.lookup_eq_none.mpr h

/-! ## the old collection and the new -/

/-- A map of one entry is another with that entry set if the other has no other. -/
theorem single_eq_update_iff {α β : Type} [DecidableEq α] {a a₀ : α} {b b₀ : β} {f : α → Option β} :
    (∀ x, (if x = a₀ then some b₀ else none) = if x = a then some b else f x) ↔
      (a₀ = a ∧ b₀ = b) ∧ ∀ x, x ≠ a → f x = none := by
  constructor
  · intro h
    have ha : a₀ = a := by
      have ha := h a
      rw [if_pos rfl] at ha
      by_contra hne
      rw [if_neg fun heq => hne heq.symm] at ha
      contradiction
    subst ha
    refine ⟨⟨rfl, ?_⟩, fun x hx => ?_⟩
    · simpa using h a₀
    · simpa [hx] using (h x).symm
  · rintro ⟨⟨rfl, rfl⟩, h⟩ x
    by_cases hx : x = a₀
    · simp [hx]
    · simp [hx, h x hx]

/-- When `zadd` extends the sorted set in the record. -/
theorem zadd_extends_iff (hok : ∀ i, c.putOk i = true) (hnew : k ∉ e.data .kZSet)
    {old : ZSetBPlus Bytes} (hold : e.loadZset k .empty = (true, old)) (m : Bytes) (s : Binary64) :
    (∃ zs, (e.zadd c k m s).2.loadZset k .empty = (true, zs) ∧
        ∀ m', zs.getScore m' = if m' = m then some s else old.getScore m') ↔
      m.length < 2 ^ 32 ∧ ∀ m', m' ≠ m → old.getScore m' = none := by
  have hget := rocksGet_write (c := c) (t := .kZSet) .empty
    (fun zs => (true, (zs.add E.memberHash m s).2)) (fun _ => true)
    (disk_of_load hold) hok (value_eq_none hnew) rfl
  have hload : (e.zadd c k m s).2.loadZset k .empty =
      (true, ((ZSetBPlus.empty : ZSetBPlus Bytes).add E.memberHash (clip m) s).2) :=
    (load_of_rocksGet hget).trans (deserializeZset_serialize _ _ _)
  have hscore : ∀ m', (((ZSetBPlus.empty : ZSetBPlus Bytes).add E.memberHash (clip m) s).2.getScore
      m') = if m' = clip m then some s else none := by
    simp [ZSetBPlus.getScore_add, ZSetBPlus.getScore_empty]
  simp only [hload, Prod.mk.injEq, true_and, exists_eq_left', hscore]
  rw [single_eq_update_iff, ← clip_eq_self]
  simp

/-- Nothing is done to a record by `zrem` without the set in the map. -/
theorem zrem_removes_iff (hnew : k ∉ e.data .kZSet) {old : ZSetBPlus Bytes}
    (hold : e.loadZset k .empty = (true, old)) (m : Bytes) :
    (∃ zs, (e.zrem c k m).2.loadZset k .empty = (true, zs) ∧
        ∀ m', zs.getScore m' = if m' = m then none else old.getScore m') ↔
      old.getScore m = none := by
  have hfind : e.find .kZSet k = none := value_eq_none hnew
  have hsame : (e.zrem c k m).2 = e := by simp [zrem, update, hfind]
  simp only [hsame, hold, Prod.mk.injEq, true_and, exists_eq_left']
  constructor
  · intro h
    simpa using h m
  · intro h m'
    by_cases hm : m' = m
    · simp [hm, h]
    · simp [hm]

/-- When `lpush` extends the list in the record. -/
theorem lpush_extends_iff (hok : ∀ i, c.putOk i = true) (hnew : k ∉ e.data .kList)
    {old : LinkedList Bytes} (hold : e.loadList k .empty = (true, old)) (v : Bytes) :
    (∃ lst, (e.lpush c k v).2.loadList k .empty = (true, lst) ∧ lst.items = v :: old.items) ↔
      v.length < 2 ^ 32 ∧ old.items = [] := by
  have hget := rocksGet_write (c := c) (t := .kList) .empty
    (fun lst => (true, lst.pushLeft v)) (fun _ => true)
    (disk_of_load hold) hok (value_eq_none hnew) rfl
  have hload : (e.lpush c k v).2.loadList k .empty =
      (true, LinkedList.empty.pushRight (clip v)) :=
    (load_of_rocksGet hget).trans (deserializeList_serialize _ _)
  have hitems : (LinkedList.empty.pushRight (clip v)).items = [clip v] := rfl
  simp only [hload, Prod.mk.injEq, true_and, exists_eq_left', hitems]
  rw [List.cons.injEq, clip_eq_self, eq_comm (a := [])]

/-- When `rpush` extends the list in the record. -/
theorem rpush_extends_iff (hok : ∀ i, c.putOk i = true) (hnew : k ∉ e.data .kList)
    {old : LinkedList Bytes} (hold : e.loadList k .empty = (true, old)) (v : Bytes) :
    (∃ lst, (e.rpush c k v).2.loadList k .empty = (true, lst) ∧ lst.items = old.items ++ [v]) ↔
      v.length < 2 ^ 32 ∧ old.items = [] := by
  have hget := rocksGet_write (c := c) (t := .kList) .empty
    (fun lst => (true, lst.pushRight v)) (fun _ => true)
    (disk_of_load hold) hok (value_eq_none hnew) rfl
  have hload : (e.rpush c k v).2.loadList k .empty =
      (true, LinkedList.empty.pushRight (clip v)) :=
    (load_of_rocksGet hget).trans (deserializeList_serialize _ _)
  have hitems : (LinkedList.empty.pushRight (clip v)).items = [clip v] := rfl
  simp only [hload, Prod.mk.injEq, true_and, exists_eq_left', hitems]
  cases old.items with
  | nil => simp [clip_eq_self]
  | cons item items => simp

/-- When `hset` extends the hash in the record. -/
theorem hset_extends_iff (hok : ∀ i, c.putOk i = true) (hnew : k ∉ e.data .kHash)
    {old : Dict Bytes Bytes} (hold : e.loadHash k ∅ = (true, old)) (f v : Bytes) :
    (∃ h, (e.hset c k f v).2.loadHash k ∅ = (true, h) ∧
        ∀ f', h.lookup f' = if f' = f then some v else old.lookup f') ↔
      (f.length < 2 ^ 32 ∧ v.length < 2 ^ 32) ∧ ∀ f', f' ≠ f → old.lookup f' = none := by
  have hget := rocksGet_write (c := c) (t := .kHash) (∅ : Dict Bytes Bytes)
    (fun h => (true, AList.insert f v h)) (fun _ => true)
    (disk_of_load hold) hok (value_eq_none hnew) rfl
  have hload : (e.hset c k f v).2.loadHash k ∅ = (true, AList.insert (clip f) (clip v) ∅) :=
    (load_of_rocksGet hget).trans (deserializeHash_serialize _ _)
  have hlookup : ∀ f', (AList.insert (clip f) (clip v) ∅ : Dict Bytes Bytes).lookup f' =
      if f' = clip f then some (clip v) else none := fun f' => by
    rw [Dict.lookup_insert_ite, AList.lookup_empty]
  simp only [hload, Prod.mk.injEq, true_and, exists_eq_left', hlookup]
  rw [single_eq_update_iff, clip_eq_self, clip_eq_self]

/-- When `sadd` extends the set in the record. -/
theorem sadd_extends_iff (hok : ∀ i, c.putOk i = true) (hnew : k ∉ e.data .kSet)
    {old : Dict Bytes UInt8} (hold : e.loadSet k ∅ = (true, old)) (m : Bytes) :
    (∃ s, (e.sadd c k m).2.loadSet k ∅ = (true, s) ∧
        ∀ m', m' ∈ s ↔ m' = m ∨ m' ∈ old) ↔
      m.length < 2 ^ 32 ∧ ∀ m', m' ≠ m → m' ∉ old := by
  have hget := rocksGet_write (c := c) (t := .kSet) (∅ : Dict Bytes UInt8)
    (fun s => (true, AList.insert m 0 s)) (fun _ => true)
    (disk_of_load hold) hok (value_eq_none hnew) rfl
  have hload : (e.sadd c k m).2.loadSet k ∅ = (true, AList.insert (clip m) 0 ∅) :=
    (load_of_rocksGet hget).trans (deserializeSet_serialize _ _)
  simp only [hload, Prod.mk.injEq, true_and, exists_eq_left', AList.mem_insert,
    AList.notMem_empty, or_false]
  constructor
  · intro h
    have hm : m = clip m := (h m).mpr (.inl rfl)
    refine ⟨clip_eq_self.mp hm.symm, fun m' hne hmem => hne ?_⟩
    rw [(h m').mpr (.inr hmem), ← hm]
  · rintro ⟨hm, h⟩ m'
    rw [clip_of_lt hm]
    exact ⟨.inl, fun h' => h'.elim id fun hmem => by_contra fun hne => h m' hne hmem⟩

/-- An ID read back is taken in as it is if it was not cut. -/
theorem newId_clip_iff {now : Int} {id : Bytes} (h : id ≠ StreamData.autoId) :
    StreamData.empty.newId now (clip id) = id ↔ id.length < 2 ^ 32 := by
  constructor
  · intro heq
    rw [← heq, StreamData.length_newId_lt_iff, length_clip]
    exact Nat.mod_lt _ (by decide)
  · intro hlen
    rw [clip_of_lt hlen, StreamData.newId_of_ne h]

/-- An empty ID is none: `xadd` answers it when it refuses an entry. -/
theorem xadd_extends_iff (hok : ∀ i, c.putOk i = true) (hnew : k ∉ e.data .kStream)
    {now now' : Int} {old : StreamData} (hold : e.loadStream now k .empty = (true, old))
    {id : Bytes} (hid : id ≠ []) (fields : List (Bytes × Bytes)) :
    (∃ st, (e.xadd c k id fields).2.loadStream now' k .empty = (true, st) ∧
        st.entries = old.entries ++ [⟨(e.xadd c k id fields).1, fields⟩]) ↔
      (id.length < 2 ^ 32 ∧ fields.length < 2 ^ 32 ∧
        ∀ p ∈ fields, p.1.length < 2 ^ 32 ∧ p.2.length < 2 ^ 32) ∧ old.entries = [] := by
  obtain ⟨hissued, hentries⟩ := StreamData.xAdd_empty c.now id fields
  have hissued' : (e.xadd c k id fields).1 = StreamData.empty.newId c.now id := by
    refine (edit_fst (t := .kStream) _ _ _ _).trans ?_
    rw [edited, value_eq_none hnew]
    exact hissued
  have hget := rocksGet_write (c := c) (t := .kStream) .empty
    (fun s => s.xAdd c.now id fields) (fun result => result ≠ [])
    (disk_of_load hold) hok (value_eq_none hnew)
    (by simpa [hissued] using StreamData.newId_ne_nil hid)
  have hload : (e.xadd c k id fields).2.loadStream now' k .empty = _ :=
    (load_of_rocksGet hget).trans (deserializeStream_serialize_one now' hentries)
  rw [hload, hissued', ← StreamData.length_newId_lt_iff .empty c.now id]
  have hauto := StreamData.newId_ne_autoId .empty c.now id
  generalize StreamData.empty.newId c.now id = issued at *
  simp only [Prod.mk.injEq, true_and, exists_eq_left', (StreamData.xAdd_empty _ _ _).2]
  cases old.entries with
  | nil =>
      simp only [List.nil_append, List.cons.injEq, and_true, StreamEntry.mk.injEq,
        map_take_eq_self_iff, newId_clip_iff hauto, clipPair_eq_self]
  | cons entry entries => simp

/-- A write to a collection that is in its record alone extends it if and only if nothing but the
element written was in it, and the lengths of that element fit in 32 bits. -/
theorem writes_extend_iff (e : Engine E) (k : Bytes) (hok : ∀ i, c.putOk i = true) :
    (k ∉ e.data .kZSet → ∀ old m s, e.loadZset k .empty = (true, old) →
      ((∃ zs, (e.zadd c k m s).2.loadZset k .empty = (true, zs) ∧
          ∀ m', zs.getScore m' = if m' = m then some s else old.getScore m') ↔
        m.length < 2 ^ 32 ∧ ∀ m', m' ≠ m → old.getScore m' = none)) ∧
    (k ∉ e.data .kZSet → ∀ old m, e.loadZset k .empty = (true, old) →
      ((∃ zs, (e.zrem c k m).2.loadZset k .empty = (true, zs) ∧
          ∀ m', zs.getScore m' = if m' = m then none else old.getScore m') ↔
        old.getScore m = none)) ∧
    (k ∉ e.data .kList → ∀ old v, e.loadList k .empty = (true, old) →
      ((∃ lst, (e.lpush c k v).2.loadList k .empty = (true, lst) ∧ lst.items = v :: old.items) ↔
        v.length < 2 ^ 32 ∧ old.items = [])) ∧
    (k ∉ e.data .kList → ∀ old v, e.loadList k .empty = (true, old) →
      ((∃ lst, (e.rpush c k v).2.loadList k .empty = (true, lst) ∧
          lst.items = old.items ++ [v]) ↔
        v.length < 2 ^ 32 ∧ old.items = [])) ∧
    (k ∉ e.data .kHash → ∀ old f v, e.loadHash k ∅ = (true, old) →
      ((∃ h, (e.hset c k f v).2.loadHash k ∅ = (true, h) ∧
          ∀ f', h.lookup f' = if f' = f then some v else old.lookup f') ↔
        (f.length < 2 ^ 32 ∧ v.length < 2 ^ 32) ∧ ∀ f', f' ≠ f → old.lookup f' = none)) ∧
    (k ∉ e.data .kSet → ∀ old m, e.loadSet k ∅ = (true, old) →
      ((∃ s, (e.sadd c k m).2.loadSet k ∅ = (true, s) ∧ ∀ m', m' ∈ s ↔ m' = m ∨ m' ∈ old) ↔
        m.length < 2 ^ 32 ∧ ∀ m', m' ≠ m → m' ∉ old)) ∧
    (k ∉ e.data .kStream → ∀ now now' old id fields, id ≠ [] →
      e.loadStream now k .empty = (true, old) →
      ((∃ st, (e.xadd c k id fields).2.loadStream now' k .empty = (true, st) ∧
          st.entries = old.entries ++ [⟨(e.xadd c k id fields).1, fields⟩]) ↔
        (id.length < 2 ^ 32 ∧ fields.length < 2 ^ 32 ∧
          ∀ p ∈ fields, p.1.length < 2 ^ 32 ∧ p.2.length < 2 ^ 32) ∧ old.entries = [])) :=
  ⟨fun hnew _ m s hold => zadd_extends_iff hok hnew hold m s,
    fun hnew _ m hold => zrem_removes_iff hnew hold m,
    fun hnew _ v hold => lpush_extends_iff hok hnew hold v,
    fun hnew _ v hold => rpush_extends_iff hok hnew hold v,
    fun hnew _ f v hold => hset_extends_iff hok hnew hold f v,
    fun hnew _ m hold => sadd_extends_iff hok hnew hold m,
    fun hnew _ _ _ _ fields hid hold => xadd_extends_iff hok hnew hold hid fields⟩

/-- A hash of one field and a list of one element, written before the engine was opened anew: the
field is overwritten as it should be, and the element is lost. -/
theorem writes_extend_iff_stored :
    ∃ e h lst, e = (final step (new Env.bare ⟨[47], 0, .k2Q⟩ (some ∅))
        [(.ofNow 5, .hset [107] [102] [118]), (.ofNow 5, .rpush [108] [97])]).reopen ∧
      e.loadHash [107] ∅ = (true, h) ∧ h.lookup [102] = some [118] ∧
      (∃ h', (e.hset (.ofNow 6) [107] [102] [119]).2.loadHash [107] ∅ = (true, h') ∧
        ∀ f', h'.lookup f' = if f' = [102] then some [119] else h.lookup f') ∧
      e.loadList [108] .empty = (true, lst) ∧ lst.items = [[97]] ∧
      ¬ ∃ lst', (e.rpush (.ofNow 6) [108] [98]).2.loadList [108] .empty = (true, lst') ∧
        lst'.items = lst.items ++ [[98]] := by
  refine ⟨_, AList.insert [102] [118] ∅, LinkedList.empty.pushRight [97], rfl, rfl, by decide,
    ?_, ?_, rfl, ?_⟩
  · refine ((writes_extend_iff _ [107] (c := .ofNow 6) fun _ => rfl).2.2.2.2.1 (by decide +kernel) _
      [102] [119] rfl).mpr ⟨by decide, fun f' hf' => ?_⟩
    rw [Dict.lookup_insert_ite, if_neg hf', AList.lookup_empty]
  · decide +kernel
  · rw [(writes_extend_iff _ [108] (c := .ofNow 6) fun _ => rfl).2.2.2.1 (by decide +kernel) _ [98]
      (by decide +kernel)]
    rintro ⟨-, hitems⟩
    contradiction

/-- A sorted set of one member, written before the engine was opened anew, and another member. -/
theorem zadd_forgets_stored :
    ∃ e old, e = (final step (new Env.bare ⟨[47], 0, .k2Q⟩ (some ∅))
        [(.ofNow 5, .zadd [107] [109] ⟨0⟩)]).reopen ∧
      [107] ∉ e.data .kZSet ∧ e.loadZset [107] .empty = (true, old) ∧
      ¬ ∃ zs, (e.zadd (.ofNow 6) [107] [110] ⟨0⟩).2.loadZset [107] .empty = (true, zs) ∧
        ∀ m', zs.getScore m' = if m' = [110] then some ⟨0⟩ else old.getScore m' := by
  refine ⟨_, _, rfl, by decide +kernel, Prod.ext (by decide +kernel) rfl, ?_⟩
  rintro ⟨zs, hload, hscore⟩
  have hgone : zs.getScore [109] = none :=
    (congrArg (fun res => res.2.getScore [109]) hload).symm.trans (by decide +kernel)
  have hkept : zs.getScore [109] = some ⟨0⟩ := (hscore [109]).trans (by decide +kernel)
  rw [hgone] at hkept
  contradiction

end Engine

end AstraKV
