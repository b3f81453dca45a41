import AstraKV.Engine.Slot

/-!
# AstraKV.Engine.Local

Every operation of the engine acts on the slot of its key as
`AstraKV.Engine.Slot` says, and leaves every other slot to the pass at its
end (`step_slot`).

The lemmas go upwards. First the parts that touch one map, the metadata or the
record, each as an update of one slot; then what can be composed of them
(`Leaves` is closed under every part); then the ways to look a value up, which
all are `Fetches`; and last the operations, each with the shape that
`AstraKV.Engine.Slot` gives it. A change to an operation of the source changes
one of the last lemmas and its shape.
-/

namespace AstraKV

open Slot

namespace Engine

variable {E : Env} {e : Engine E} {c : Call} {t : KeyType} {key k : Bytes}

/-! ## maps and records -/

/-- A value set in a map is set in the slot. -/
theorem slot_insert (v : Value E t) :
    (e.insert t key v).slot = Function.update e.slot key ((e.slot key).set t v) := by
  funext k
  by_cases hk : k = key
  · subst hk
    rw [Function.update_self]
    refine Slot.ext (funext fun t' => ?_) rfl rfl
    by_cases ht : t' = t
    · subst ht
      simp [slot, find, insert, Slot.set]
    · simp [slot, find, insert, Slot.set, ht]
  · rw [Function.update_of_ne hk]
    refine Slot.ext (funext fun t' => ?_) rfl rfl
    by_cases ht : t' = t
    · subst ht
      simp [slot, find, insert, AList.lookup_insert_ne hk]
    · simp [slot, find, insert, ht]

/-- A value removed from a map is dropped from the slot. -/
theorem slot_remove :
    (e.remove t key).slot = Function.update e.slot key ((e.slot key).drop t) := by
  funext k
  by_cases hk : k = key
  · subst hk
    rw [Function.update_self]
    refine Slot.ext (funext fun t' => ?_) rfl rfl
    by_cases ht : t' = t
    · subst ht
      simp [slot, find, remove, Slot.drop]
    · simp [slot, find, remove, Slot.drop, ht]
  · rw [Function.update_of_ne hk]
    refine Slot.ext (funext fun t' => ?_) rfl rfl
    by_cases ht : t' = t
    · subst ht
      simp [slot, find, remove, AList.lookup_erase_ne hk]
    · simp [slot, find, remove, ht]

/-- A key removed from all maps has no value in its slot. -/
theorem slot_removeAll :
    (e.removeAll key).slot =
      Function.update e.slot key { e.slot key with value := fun _ => none } := by
  funext k
  by_cases hk : k = key
  · subst hk
    simp [slot, find, removeAll, rocksGet]
  · rw [Function.update_of_ne hk]
    exact Slot.ext (funext fun t' => AList.lookup_erase_ne hk) rfl rfl

/-- A change of the metadata of one key. -/
theorem slot_metas {metas : KeyMetadataManager} {m : Option KeyMetadata}
    (h : ∀ k, metas.lookup k = if k = key then m else e.metas.lookup k) :
    slot { e with metas := metas } =
      Function.update e.slot key { e.slot key with metadata := m } := by
  funext k
  by_cases hk : k = key
  · subst hk
    rw [Function.update_self]
    exact Slot.ext rfl ((h k).trans (if_pos rfl)) rfl
  · rw [Function.update_of_ne hk]
    exact Slot.ext rfl ((h k).trans (if_neg hk)) rfl

/-- A key registered is registered in its slot. -/
theorem slot_registerKey :
    (e.registerKey key t).slot = Function.update e.slot key ((e.slot key).register t) :=
  slot_metas fun _ => Dict.lookup_insert_ite

/-- A key unregistered has no metadata in its slot. -/
theorem slot_unregisterKey :
    (e.unregisterKey key).slot =
      Function.update e.slot key { e.slot key with metadata := none } :=
  slot_metas fun _ => Dict.lookup_erase_ite

/-- A change of the record of one key. -/
theorem slot_rocksdb {db : Option (Dict Bytes Bytes)} {r : Option Bytes}
    (h : ∀ k, (db.bind fun db => db.lookup k) = if k = key then r else e.rocksGet k) :
    slot { e with rocksdb := db } =
      Function.update e.slot key { e.slot key with record := r } := by
  funext k
  by_cases hk : k = key
  · subst hk
    rw [Function.update_self]
    exact Slot.ext rfl rfl ((h k).trans (if_pos rfl))
  · rw [Function.update_of_ne hk]
    exact Slot.ext rfl rfl ((h k).trans (if_neg hk))

/-- A record written is saved in the slot. -/
theorem slot_rocksPut (ok : Bool) (record : Bytes) :
    (e.rocksPut ok key record).slot =
      Function.update e.slot key (save e.disk ok (e.slot key) record) := by
  unfold rocksPut save disk
  cases ok with
  | false => simp
  | true =>
      cases hdb : e.rocksdb with
      | none =>
          have hsame : { e with rocksdb := (none : Option (Dict Bytes Bytes)) } = e := by
            rw [← hdb]
          simp [hsame]
      | some db =>
          refine slot_rocksdb fun k => ?_
          simp [rocksGet, hdb, Dict.lookup_insert_ite]

/-- A record deleted is gone from the slot. -/
theorem slot_rocksDelete :
    (e.rocksDelete key).slot = Function.update e.slot key { e.slot key with record := none } := by
  refine slot_rocksdb fun k => ?_
  cases hdb : e.rocksdb with
  | none => simp [rocksGet, hdb]
  | some db => simp [rocksGet, hdb, Dict.lookup_erase_ite]

/-! ## one slot changed -/

/-- `e'` is `e` with the slot `s` under `key`. -/
structure Leaves (e : Engine E) (key : Bytes) (s : Slot E) (e' : Engine E) : Prop where
  slot : e'.slot = Function.update e.slot key s
  disk : e'.disk = e.disk
  opts : e'.opts = e.opts

namespace Leaves

variable {s s' : Slot E} {e' e'' : Engine E}

/-- Nothing done leaves the slot there is. -/
theorem refl (e : Engine E) (key : Bytes) : Leaves e key (e.slot key) e :=
  ⟨(Function.update_eq_self key e.slot).symm, rfl, rfl⟩

/-- The slot left is the one found afterwards. -/
theorem slot_self (h : Leaves e key s e') : e'.slot key = s := by
  rw [h.slot, Function.update_self]

/-- What is left at last counts. -/
theorem trans (h : Leaves e key s e') (h' : Leaves e' key s' e'') : Leaves e key s' e'' := by
  constructor
  · rw [h'.slot, h.slot, Function.update_idem]
  · rw [h'.disk, h.disk]
  · rw [h'.opts, h.opts]

/-- The slots are all there is to agree on. -/
theorem same (h : Leaves e key s e') (hslot : e''.slot = e'.slot) (hdisk : e''.disk = e'.disk)
    (hopts : e''.opts = e'.opts) : Leaves e key s e'' :=
  ⟨hslot.trans h.slot, hdisk.trans h.disk, hopts.trans h.opts⟩

/-- Setting a value sets it in the slot left. -/
theorem insert (h : Leaves e key s e') (v : Value E t) :
    Leaves e key (s.set t v) (e'.insert t key v) :=
  h.trans ⟨h.slot_self ▸ slot_insert v, rfl, rfl⟩

/-- Removing one drops it. -/
theorem remove (h : Leaves e key s e') (t : KeyType) : Leaves e key (s.drop t) (e'.remove t key) :=
  h.trans ⟨h.slot_self ▸ slot_remove, rfl, rfl⟩

/-- Removing all drops all. -/
theorem removeAll (h : Leaves e key s e') :
    Leaves e key { s with value := fun _ => none } (e'.removeAll key) :=
  h.trans ⟨h.slot_self ▸ slot_removeAll, rfl, rfl⟩

/-- Changing the metadata of the key changes them in the slot left. -/
theorem metas (h : Leaves e key s e') {metas : KeyMetadataManager} {m : Option KeyMetadata}
    (hmetas : ∀ k, metas.lookup k = if k = key then m else e'.metas.lookup k) :
    Leaves e key { s with metadata := m } { e' with metas := metas } :=
  h.trans ⟨h.slot_self ▸ slot_metas hmetas, rfl, rfl⟩

/-- Registering the key registers the slot. -/
theorem registerKey (h : Leaves e key s e') (t : KeyType) :
    Leaves e key (s.register t) (e'.registerKey key t) :=
  h.trans ⟨h.slot_self ▸ slot_registerKey, rfl, rfl⟩

/-- Unregistering it takes the metadata away. -/
theorem unregisterKey (h : Leaves e key s e') :
    Leaves e key { s with metadata := none } (e'.unregisterKey key) :=
  h.trans ⟨h.slot_self ▸ slot_unregisterKey, rfl, rfl⟩

/-- Writing a record saves it. -/
theorem rocksPut (h : Leaves e key s e') (ok : Bool) (record : Bytes) :
    Leaves e key (save e.disk ok s record) (e'.rocksPut ok key record) := by
  refine h.trans ⟨?_, ?_, ?_⟩
  · rw [slot_rocksPut, h.slot_self, h.disk]
  · unfold Engine.rocksPut Engine.disk
    split <;> simp
  · unfold Engine.rocksPut
    split <;> rfl

/-- Deleting it takes it away. -/
theorem rocksDelete (h : Leaves e key s e') :
    Leaves e key { s with record := none } (e'.rocksDelete key) :=
  h.trans ⟨h.slot_self ▸ slot_rocksDelete, by simp [Engine.rocksDelete, Engine.disk], rfl⟩

end Leaves

/-! ## validity -/

/-- The metadata say whether a key is valid. -/
theorem isValid_fst (now : Int) : (e.isValid now key).1 = (e.slot key).valid now := by
  unfold isValid KeyMetadataManager.isValid Slot.valid slot
  cases e.metas.lookup key with
  | none => rfl
  | some m => cases hm : m.isExpired now <;> simp [hm]

/-- Asking them checks the slot. -/
theorem isValid_leaves (e : Engine E) (now : Int) (key : Bytes) :
    Leaves e key ((e.slot key).check now) (e.isValid now key).2 := by
  unfold isValid KeyMetadataManager.isValid Slot.check Slot.expired
  have hmeta : (e.slot key).metadata = e.metas.lookup key := rfl
  rw [hmeta]
  cases e.metas.lookup key with
  | none => exact .refl e key
  | some m =>
      cases hm : m.isExpired now with
      | false => simpa [hm] using Leaves.refl e key
      | true => simpa [hm] using (Leaves.refl e key).metas fun _ => Dict.lookup_erase_ite

/-- Nothing is forgotten about a valid key. -/
theorem isValid_of_valid {now : Int} (h : (e.slot key).valid now = true) :
    e.isValid now key = (true, e) := by
  unfold Slot.valid slot at h
  unfold isValid KeyMetadataManager.isValid
  cases hm : e.metas.lookup key with
  | none => simp [hm] at h
  | some m =>
      simp only [hm, Option.any_some, Bool.not_eq_true'] at h
      simp [h]

section Guarded

variable {α : Type} {absent : α} {read : Engine E → α × Engine E} {now : Int}

/-- A guarded read of a valid key reads. -/
theorem guarded_of_valid (h : (e.slot key).valid now = true) :
    e.guarded now key absent read = read e := by
  rw [guarded, isValid_of_valid h]

/-- A guarded read reports a key that is not valid absent. -/
theorem guarded_of_not_valid (h : (e.slot key).valid now = false) :
    e.guarded now key absent read = (absent, (e.isValid now key).2) := by
  have hfst : (e.isValid now key).1 = _ := isValid_fst now
  rw [h] at hfst
  unfold guarded
  split
  · rename_i e' heq
    rw [heq]
  · rename_i e' heq
    rw [heq] at hfst
    contradiction

end Guarded

/-! ## values found -/

/-- `res` is what looking for the value of type `t` under `key` gives. -/
structure Fetches (c : Call) (e : Engine E) (t : KeyType) (key : Bytes) (dim : Nat)
    (res : Option (Value E t) × Engine E) : Prop where
  found : res.1 = (e.slot key).found c t dim
  leaves : Leaves e key ((e.slot key).fetch c t dim) res.2

/-- Looking in the map and then in the record fetches the value. -/
theorem getOrCreate_fetches {dim : Nat} {load : Bool × Value E t}
    (hload : complete load = (e.slot key).load c t dim) :
    Fetches c e t key dim (e.getOrCreate t key load) := by
  have hvalue : (e.slot key).value t = e.find t key := rfl
  unfold getOrCreate
  cases hfind : e.find t key with
  | some v =>
      rw [hfind] at hvalue
      constructor
      · simp [Slot.found, hvalue]
      · simpa [Slot.fetch, hvalue] using Leaves.refl e key
  | none =>
      rw [hfind] at hvalue
      unfold complete at hload
      cases hok : load.1 with
      | true =>
          rw [hok, if_pos rfl] at hload
          constructor
          · simp [Slot.found, hvalue, ← hload]
          · simpa [Slot.fetch, hvalue, ← hload] using
              ((Leaves.refl e key).insert load.2).registerKey t
      | false =>
          rw [hok, if_neg Bool.false_ne_true] at hload
          constructor
          · simp [Slot.found, hvalue, ← hload]
          · simpa [Slot.fetch, hvalue, ← hload] using Leaves.refl e key

/-- A load that succeeded has decoded the record. -/
theorem complete_load {β : Type} (deserialize : Bytes → β → Bool × β) (x : β) :
    complete (e.load key deserialize x) =
      (e.rocksGet key).bind fun data => complete (deserialize data x) := by
  unfold load
  cases e.rocksGet key <;> rfl

section Families

variable (c e key)

theorem getOrCreateZset_fetches : Fetches c e .kZSet key 0 (e.getOrCreateZset key) :=
  getOrCreate_fetches (complete_load _ _)

theorem getOrCreateList_fetches : Fetches c e .kList key 0 (e.getOrCreateList key) :=
  getOrCreate_fetches (complete_load _ _)

theorem getOrCreateHash_fetches : Fetches c e .kHash key 0 (e.getOrCreateHash key) :=
  getOrCreate_fetches (complete_load _ _)

theorem getOrCreateSet_fetches : Fetches c e .kSet key 0 (e.getOrCreateSet key) :=
  getOrCreate_fetches (complete_load _ _)

theorem getOrCreateStream_fetches : Fetches c e .kStream key 0 (e.getOrCreateStream c.now key) :=
  getOrCreate_fetches (complete_load _ _)

theorem getOrCreateJson_fetches : Fetches c e .kJson key 0 (e.getOrCreateJson key) :=
  getOrCreate_fetches (complete_load _ _)

theorem getOrCreateVector_fetches (dim : Nat) :
    Fetches c e .kVector key dim (e.getOrCreateVector c.beyond key dim) :=
  getOrCreate_fetches (complete_load _ _)

end Families

/-- After a look the value found is in the map. -/
theorem value_fetch (s : Slot E) (c : Call) (t : KeyType) (dim : Nat) :
    (s.fetch c t dim).value t = s.found c t dim := by
  unfold Slot.fetch Slot.found
  cases hvalue : s.value t with
  | some v => simp [hvalue]
  | none =>
      cases s.load c t dim with
      | none => simp [hvalue]
      | some v => simp [Slot.set, Slot.register]

section Parts

variable {α : Type} {absent : α} {s : Slot E} {dim : Nat} {e' : Engine E}
  {res : Option (Value E t) × Engine E}

/-- Reading what was found changes nothing more. -/
theorem answer_snd {β : Type} {res : Option β × Engine E} (read : β → α) :
    (answer absent read res).2 = res.2 := by
  unfold answer
  cases res.1 <;> rfl

/-- A read acts on the slot as a look does. -/
theorem Fetches.answer_leaves (h : Fetches c e t key dim res) (read : Value E t → α) :
    Leaves e key ((e.slot key).act c e.disk (.read false t dim)) (answer absent read res).2 := by
  rw [answer_snd]
  exact h.leaves

/-- A read behind the check of the metadata. -/
theorem Fetches.guarded_leaves (h : Fetches c e t key dim res) {read : Engine E → α × Engine E}
    (hread : (read e).2 = res.2) :
    Leaves e key ((e.slot key).act c e.disk (.read true t dim))
      (e.guarded c.now key absent read).2 := by
  have hleaves : Leaves e key ((e.slot key).fetch c t dim) (read e).2 := hread ▸ h.leaves
  unfold Slot.act
  cases hvalid : (e.slot key).valid c.now with
  | true =>
      rw [guarded_of_valid hvalid]
      exact hleaves
  | false =>
      rw [guarded_of_not_valid hvalid]
      exact isValid_leaves e c.now key

/-- Storing a value stores it in the slot left. -/
theorem Leaves.store (h : Leaves e key s e') (ok : Bool) (keep : α → Bool) (res : α × Value E t) :
    Leaves e key (Slot.store e.disk ok s t (keep res.1, res.2)) (e'.store ok t key keep res).2 := by
  unfold Engine.store Slot.store
  cases keep res.1 with
  | true => exact (h.insert res.2).rocksPut ok _
  | false => exact h.insert res.2

/-- A change of the value there is. -/
theorem Leaves.update (h : Leaves e key s res.2) (hfound : res.1 = s.value t) (ok : Bool)
    (change : Value E t → α × Value E t) (keep : α → Bool) :
    Leaves e key (Slot.change e.disk ok s t (persistIf keep change))
      (update ok t key absent change keep res).2 := by
  unfold Engine.update Slot.change
  rw [← hfound]
  cases res.1 with
  | none => exact h
  | some v => exact h.store ok keep (change v)

/-- A change acts on the slot as its shape says. -/
theorem Fetches.update_leaves (h : Fetches c e t key dim res)
    (change : Value E t → α × Value E t) (keep : α → Bool) :
    Leaves e key ((e.slot key).act c e.disk (.update t dim (persistIf keep change)))
      (update (c.putOk 0) t key absent change keep res).2 :=
  h.leaves.update (h.found.trans (value_fetch _ c t dim).symm) (c.putOk 0) change keep

theorem edit_leaves (e : Engine E) (c : Call) (key : Bytes) (fresh : Option Bytes → Value E t)
    (change : Value E t → α × Value E t) (keep : α → Bool) :
    Leaves e key ((e.slot key).act c e.disk (.edit t fresh (persistIf keep change)))
      (e.edit (c.putOk 0) t key (fresh (e.rocksGet key)) change keep).2 := by
  have hvalue : (e.slot key).value t = e.find t key := rfl
  unfold edit Slot.act
  dsimp only
  rw [hvalue]
  cases e.find t key with
  | some v => exact (Leaves.refl e key).store (c.putOk 0) keep (change v)
  | none =>
      exact (((Leaves.refl e key).insert _).registerKey t).store (c.putOk 0) keep (change _)

end Parts

/-! ## the other operations -/

/-- An access touches the slot left. -/
theorem Leaves.recordAccess {s : Slot E} {e' : Engine E} (h : Leaves e key s e') (now : Int) :
    Leaves e key (s.touch now) (e'.recordAccess now key) := by
  have hmeta : e'.metas.lookup key = s.metadata := congrArg Slot.metadata h.slot_self
  have hmetas : Leaves e key (s.touch now)
      { e' with metas := (e'.metas.updateAccessInfo now key).2 } := by
    refine h.metas fun k => ?_
    unfold KeyMetadataManager.updateAccessInfo
    rw [hmeta]
    cases hm : s.metadata with
    | none =>
        by_cases hk : k = key
        · subst hk
          simp [hmeta, hm]
        · simp [hk]
    | some m => exact Dict.lookup_insert_ite
  unfold Engine.recordAccess
  dsimp only
  split
  · exact hmetas.same rfl rfl rfl
  · exact hmetas

/-- What looking a byte string up does to its slot. -/
theorem lookUp_leaves (e : Engine E) (c : Call) (key : Bytes) :
    Leaves e key ((e.slot key).act c e.disk .get) (e.lookUp c key).2 := by
  unfold lookUp Slot.act
  have hvalue : (e.slot key).value .kBytes = e.find .kBytes key := rfl
  have hrecord : (e.slot key).record = e.rocksGet key := rfl
  cases hvalid : (e.slot key).valid c.now with
  | false =>
      have hcheck : e.isValid c.now key = (false, (e.isValid c.now key).2) :=
        Prod.ext ((isValid_fst c.now).trans hvalid) rfl
      rw [hcheck]
      exact (isValid_leaves e c.now key).same rfl rfl rfl
  | true =>
      rw [isValid_of_valid hvalid, hvalue, hrecord]
      dsimp only
      cases e.find .kBytes key with
      | some value => exact ((Leaves.refl e key).recordAccess c.now).same rfl rfl rfl
      | none =>
          cases e.rocksGet key with
          | some bytes =>
              have hinsert := (Leaves.refl e key).insert (t := .kBytes) bytes
              exact (hinsert.recordAccess c.now).same rfl rfl rfl
          | none => exact (Leaves.refl e key).same rfl rfl rfl

/-- What `get` does to its slot. -/
theorem get_leaves (e : Engine E) (c : Call) (key : Bytes) :
    Leaves e key ((e.slot key).act c e.disk .get) (e.get c key).2 := by
  have hcount : Leaves e key (e.slot key) { e with getCount := e.getCount + 1 } :=
    (Leaves.refl e key).same rfl rfl rfl
  exact hcount.trans (lookUp_leaves _ c key)

/-- What `del` does to its slot. -/
theorem del_leaves (e : Engine E) (c : Call) (key : Bytes) :
    Leaves e key ((e.slot key).act c e.disk .del) (e.del key).2 :=
  Leaves.same ((Leaves.refl e key).removeAll.unregisterKey.rocksDelete) rfl rfl rfl

/-- What `jsondel` does to its slot. -/
theorem jsondel_leaves (e : Engine E) (c : Call) (key path : Bytes) :
    Leaves e key ((e.slot key).act c e.disk ((Op.jsondel key path).shape E c))
      (e.jsondel key path).2 := by
  unfold jsondel
  simp only [Op.shape]
  split
  · exact ((Leaves.refl e key).remove .kJson).unregisterKey.rocksDelete
  · exact .refl e key

/-- What `jsonset` does to its slot. -/
theorem jsonset_leaves (e : Engine E) (c : Call) (key path json : Bytes) :
    Leaves e key ((e.slot key).act c e.disk ((Op.jsonset key path json).shape E c))
      (e.jsonset c key path json).2 := by
  unfold jsonset
  simp only [Op.shape]
  cases E.simdjson.parse json with
  | none => exact .refl e key
  | some doc => exact edit_leaves (t := .kJson) e c key (fun _ => []) _ _

/-- What `expire` does to its slot. -/
theorem expire_leaves (e : Engine E) (c : Call) (key : Bytes) (ms : Int) :
    Leaves e key ((e.slot key).act c e.disk (.expire ms)) (e.expire c key ms).2 := by
  unfold expire Slot.act
  cases hvalid : (e.slot key).valid c.now with
  | true =>
      rw [guarded_of_valid hvalid]
      refine (Leaves.refl e key).metas fun k => ?_
      have hmeta : (e.slot key).metadata = e.metas.lookup key := rfl
      unfold KeyMetadataManager.setExpireMs
      rw [hmeta]
      cases hm : e.metas.lookup key with
      | none =>
          by_cases hk : k = key
          · subst hk
            simp [hm]
          · simp [hk]
      | some m => exact Dict.lookup_insert_ite
  | false =>
      rw [guarded_of_not_valid hvalid]
      exact isValid_leaves e c.now key

/-- `ttl` checks its slot. -/
theorem ttl_leaves (e : Engine E) (c : Call) (key : Bytes) :
    Leaves e key ((e.slot key).act c e.disk .check) (e.ttl c key).2 := by
  unfold ttl
  cases hvalid : (e.slot key).valid c.now with
  | true =>
      have hcheck := isValid_leaves e c.now key
      rw [isValid_of_valid hvalid] at hcheck
      rw [guarded_of_valid hvalid]
      exact hcheck
  | false =>
      rw [guarded_of_not_valid hvalid]
      exact isValid_leaves e c.now key

/-- `type` checks its slot. -/
theorem type_leaves (e : Engine E) (c : Call) (key : Bytes) :
    Leaves e key ((e.slot key).act c e.disk .check) (e.type c key).2 := by
  unfold type
  dsimp only
  rw [KeyMetadataManager.getKeyType_snd]
  exact isValid_leaves e c.now key

end Engine

end AstraKV
