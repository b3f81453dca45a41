import AstraKV.Engine.Course

/-!
# AstraKV.Engine.Reply

What an operation answers, as a function of the slot of its key
(`step_reply`).  Two engines that hold the same about a key answer the same.

The answer of an operation needs the slot of its key and the surroundings of
the call and nothing else. As with the effects, the operations fall into a few
kinds: an answer from the value found (`answer`), one guarded by the metadata
(`guarded`), and the answer of a change. The equations for single operations
are what later modules rewrite with when they speak about one by name.
-/

namespace AstraKV

namespace Slot

variable {E : Env} {α : Type}

/-- Read from the value of type `t`, in the map or in the record. -/
def answer (s : Slot E) (c : Call) (t : KeyType) (dim : Nat) (absent : α) (read : Value E t → α) :
    α :=
  (s.found c t dim).elim absent read

/-- Read from the value of a valid key. -/
def guarded (s : Slot E) (c : Call) (t : KeyType) (dim : Nat) (absent : α)
    (read : Value E t → α) : α :=
  if s.valid c.now then s.answer c t dim absent read else absent

/-- The value of type `t` in the map, else the fresh one. -/
def edited (s : Slot E) (t : KeyType) (fresh : Value E t) : Value E t := (s.value t).getD fresh

/-- The answer to an operation on the key. -/
def reply (c : Call) (s : Slot E) : Op → Reply
  | .put _ _ => .bool true
  | .get _ => .bytesOption (if s.valid c.now then (s.value .kBytes).or s.record else none)
  | .del _ => .bool (Engine.mapTypes.any fun t => (s.value t).isSome)
  | .existsKey _ | .expire _ _ => .bool (s.valid c.now)
  | .type _ =>
      .type (if s.valid c.now then (s.metadata.map KeyMetadata.type).getD .kNone else .kNone)
  | .ttl _ =>
      .intOption (if s.valid c.now then s.metadata.map fun m =>
        if m.expireTimeMs = none then -1 else (m.getTtlMs c.now).getD (-1) else none)
  | .zadd _ _ _ | .lpush _ _ | .rpush _ _ | .hset _ _ _ | .sadd _ _ => .bool true
  | .zscore _ member => .score (s.guarded c .kZSet 0 none fun zs => zs.getScore member)
  | .zrem _ member =>
      .bool ((s.value .kZSet).elim false fun zs => (zs.remove E.memberHash member).1)
  | .zcard _ => .int (s.answer c .kZSet 0 0 fun zs => zs.size.toNat)
  | .zrange _ start stop reverse =>
      .scored (s.answer c .kZSet 0 (some []) fun zs =>
        zs.getRangeByRank (UInt64.ofInt start) (UInt64.ofInt stop) reverse true)
  | .zrangebyscore _ min max =>
      .scored (s.answer c .kZSet 0 (some []) fun zs => zs.getRangeByScore min max true)
  | .lpop _ => .bytesOption (s.answer c .kList 0 none fun lst => lst.popLeft.1)
  | .rpop _ => .bytesOption (s.answer c .kList 0 none fun lst => lst.popRight.1)
  | .llen _ => .int (s.answer c .kList 0 0 fun lst => lst.size)
  | .hget _ field => .bytesOption (s.guarded c .kHash 0 none fun h => h.lookup field)
  | .hdel _ field => .bool (s.answer c .kHash 0 false fun h => (h.lookup field).isSome)
  | .hexists _ field => .bool (s.guarded c .kHash 0 false fun h => (h.lookup field).isSome)
  | .hgetall _ => .fields (s.guarded c .kHash 0 [] Engine.fieldsOf)
  | .hlen _ => .int (s.answer c .kHash 0 0 fun h => h.keys.length)
  | .hincrby _ field delta =>
      .intOption (Engine.increment field delta (s.edited .kHash
        ((s.record.map fun data => deserializeHash data ∅).getD (false, ∅)).2)).1
  | .srem _ member => .bool (s.answer c .kSet 0 false fun h => (h.lookup member).isSome)
  | .sismember _ member => .bool (s.guarded c .kSet 0 false fun h => (h.lookup member).isSome)
  | .smembers _ => .members (s.guarded c .kSet 0 [] AList.keys)
  | .scard _ => .int (s.answer c .kSet 0 0 fun h => h.keys.length)
  | .xadd _ id fields => .bytes ((s.edited .kStream .empty).xAdd c.now id fields).1
  | .xread _ startId count =>
      .entries (s.guarded c .kStream 0 [] fun st => st.xRead startId count)
  | .xrange _ startId endId count =>
      .entries (s.guarded c .kStream 0 [] fun st => st.xRange startId endId count)
  | .xlen _ => .int (s.answer c .kStream 0 0 fun st => st.xLen)
  | .xdel _ id => .bool (s.answer c .kStream 0 false fun st => (st.xDel id).1)
  | .xtrim _ maxlen => .int (s.answer c .kStream 0 0 fun st => (st.xTrim maxlen).1 : Nat)
  | .jsonset _ _ json => .bool (E.simdjson.parse json).isSome
  | .jsonget _ path => .bytesOption (s.guarded c .kJson 0 none (Engine.jsonText E path))
  | .jsondel _ path => .bool (Engine.isRoot path)
  | .vecadd _ id vec => .bool ((s.edited .kVector (.new E.hnsw vec.length)).add id vec).1
  | .vecget _ id => .vector (s.guarded c .kVector 0 [] fun v => v.get id)
  | .vecdel _ id => .bool (s.answer c .kVector 0 false fun v => (v.remove id).1)
  | .vecsearch _ query k =>
      .nearest (s.guarded c .kVector query.length [] fun v => v.search query k)
  | .vecsize _ => .int (s.answer c .kVector 0 0 fun v => v.size)
  | .astrakvHgetall _ => .bytes (s.answer c .kHash 0 [] fun h =>
      (Engine.fieldsOf h).flatMap fun p =>
        LittleEndian.put 4 p.1.length ++ p.1 ++ (LittleEndian.put 4 p.2.length ++ p.2))
  | .astrakvSmembers _ => .bytes (s.answer c .kSet 0 [] fun h =>
      h.keys.flatMap fun m => LittleEndian.put 4 m.length ++ m)
  | .astrakvHscan _ => .fields (s.answer c .kHash 0 [] Engine.fieldsOf)
  | .astrakvSscan _ => .members (s.answer c .kSet 0 [] AList.keys)
  | .allEntries | .allKeys | .count | .memoryUsage | .cleanupExpired | .setEviction _ => .unit

section Parts

variable {s : Slot E} {c : Call} {t : KeyType} {dim : Nat} {absent : α} {read : Value E t → α}

/-- A guarded answer of a valid slot is the answer. -/
theorem guarded_valid (h : s.valid c.now = true) :
    s.guarded c t dim absent read = s.answer c t dim absent read := if_pos h

/-- A guarded answer of a slot that is not valid is that of an absent key. -/
theorem guarded_absent (h : s.valid c.now = false) :
    s.guarded c t dim absent read = absent := if_neg (by rw [h]; exact Bool.false_ne_true)

/-- Where nothing is found the answer is that of an absent key. -/
theorem answer_absent (h : s.found c t dim = none) :
    s.answer c t dim absent read = absent := by
  rw [answer, h]
  rfl

/-- Where a value is found it is read. -/
theorem answer_found {v : Value E t} (h : s.found c t dim = some v) :
    s.answer c t dim absent read = read v := by
  rw [answer, h]
  rfl

/-- The value in the map comes first. -/
theorem found_of_value {v : Value E t} (h : s.value t = some v) : s.found c t dim = some v := by
  rw [found, h]
  rfl

end Parts

section Edit

variable {s : Slot E} {c : Call} {t : KeyType} {disk : Bool} {fresh : Option Bytes → Value E t}
  {f : Value E t → Bool × Value E t}

/-- Storing a value, part by part. -/
theorem store_eq (ok : Bool) (res : Bool × Value E t) :
    store disk ok s t res =
      { s.set t res.2 with
        record := if res.1 && disk && ok then some (Engine.serialize t res.2) else s.record } := by
  unfold store save
  cases res.1 <;> cases disk <;> cases ok <;> rfl

/-- The value after a write. -/
theorem value_edit :
    (s.act c disk (.edit t fresh f)).value t = some (f (s.edited t (fresh s.record))).2 := by
  unfold act edited
  dsimp only
  cases s.value t <;> simp [store_eq]

/-- The value after a change. -/
theorem value_change {ok : Bool} {v : Value E t} (h : s.value t = some v) :
    (change disk ok s t f).value t = some (f v).2 := by
  unfold change
  rw [h]
  simp [store_eq]

/-- The metadata is new only if there was no value. -/
theorem metadata_edit :
    (s.act c disk (.edit t fresh f)).metadata =
      if s.value t = none then (s.register t).metadata else s.metadata := by
  unfold act
  dsimp only
  cases s.value t <;> simp [register]

/-- The record after a write. -/
theorem record_edit :
    (s.act c disk (.edit t fresh f)).record =
      if (f (s.edited t (fresh s.record))).1 && disk && c.putOk 0 then
        some (Engine.serialize t (f (s.edited t (fresh s.record))).2)
      else s.record := by
  unfold act edited
  dsimp only
  cases s.value t <;> simp [store_eq]

/-- An edit makes the key valid unless the value was there and the metadata was not. -/
theorem valid_edit (now : Int) :
    (s.act c disk (.edit t fresh f)).valid now = true ↔ s.value t = none ∨ s.valid now = true := by
  unfold valid
  rw [metadata_edit]
  by_cases h : s.value t = none
  · simp [h, register, KeyMetadata.ofType, KeyMetadata.isExpired]
  · simp [h]

/-- The record after an eviction. -/
theorem record_evict {ok : Bool} :
    (evict disk ok s t).record =
      (s.value t).elim s.record fun v =>
        if disk && ok then some (Engine.serialize t v) else s.record := by
  unfold evict
  cases s.value t with
  | none => rfl
  | some v => simp [record_save]

/-- The value evicted is gone. -/
theorem value_evict_self {ok : Bool} :
    (evict disk ok s t).value t = none := by
  unfold evict
  cases hvalue : s.value t <;> simp [hvalue]

/-- Those of other types stay. -/
theorem value_evict_of_ne {t' : KeyType} {ok : Bool} (h : t' ≠ t) :
    (evict disk ok s t).value t' = s.value t' := by
  unfold evict
  cases s.value t <;> simp [h]

end Edit

end Slot

namespace Engine

variable {E : Env} {e : Engine E} {c : Call} {t : KeyType} {key : Bytes} {α : Type} {absent : α}
  {dim : Nat}

/-! ## the parts -/

/-- What a read answers. -/
theorem Fetches.answer_fst {res : Option (Value E t) × Engine E} (h : Fetches c e t key dim res)
    (read : Value E t → α) :
    (Engine.answer absent read res).1 = (e.slot key).answer c t dim absent read := by
  unfold Engine.answer Slot.answer
  rw [← h.found]
  cases res.1 <;> rfl

/-- What a read behind the metadata answers. -/
theorem guarded_fst {x : α} {read : Engine E → α × Engine E} (hread : (read e).1 = x) :
    (e.guarded c.now key absent read).1 = if (e.slot key).valid c.now then x else absent := by
  cases hvalid : (e.slot key).valid c.now with
  | true => rw [guarded_of_valid hvalid, hread, if_pos rfl]
  | false => rw [guarded_of_not_valid hvalid, if_neg Bool.false_ne_true]

/-- What a guarded look answers. -/
theorem Fetches.guarded_fst {res : Option (Value E t) × Engine E} (h : Fetches c e t key dim res)
    (read : Value E t → α) {look : Engine E → α × Engine E}
    (hlook : look e = Engine.answer absent read res) :
    (e.guarded c.now key absent look).1 = (e.slot key).guarded c t dim absent read :=
  Engine.guarded_fst (by rw [hlook, h.answer_fst read])

/-- What a change answers. -/
theorem update_fst (ok : Bool) (change : Value E t → α × Value E t) (keep : α → Bool)
    (res : Option (Value E t) × Engine E) :
    (update ok t key absent change keep res).1 = res.1.elim absent fun v => (change v).1 := by
  unfold update
  cases res.1 <;> rfl

/-- What a change answers, from the slot. -/
theorem Fetches.update_fst {res : Option (Value E t) × Engine E} (h : Fetches c e t key dim res)
    (change : Value E t → α × Value E t) (keep : α → Bool) :
    (update (c.putOk 0) t key absent change keep res).1 =
      (e.slot key).answer c t dim absent fun v => (change v).1 := by
  rw [Engine.update_fst, h.found]
  rfl

/-- What a write answers. -/
theorem edit_fst (ok : Bool) (fresh : Value E t) (change : Value E t → α × Value E t)
    (keep : α → Bool) :
    (e.edit ok t key fresh change keep).1 = (change ((e.slot key).edited t fresh)).1 := by
  have hvalue : (e.slot key).value t = e.find t key := rfl
  unfold edit Slot.edited
  rw [hvalue]
  cases e.find t key <;> rfl

/-! ## the other operations -/

/-- What looking a byte string up finds. -/
theorem lookUp_fst (e : Engine E) (c : Call) (key : Bytes) :
    (e.lookUp c key).1 =
      if (e.slot key).valid c.now then ((e.slot key).value .kBytes).or (e.slot key).record
      else none := by
  have hvalue : (e.slot key).value .kBytes = e.find .kBytes key := rfl
  have hrecord : (e.slot key).record = e.rocksGet key := rfl
  unfold lookUp
  cases hvalid : (e.slot key).valid c.now with
  | false =>
      have hcheck : e.isValid c.now key = (false, (e.isValid c.now key).2) :=
        Prod.ext ((isValid_fst c.now).trans hvalid) rfl
      rw [hcheck]
      rfl
  | true =>
      rw [isValid_of_valid hvalid, hvalue, hrecord]
      dsimp only
      cases e.find .kBytes key with
      | some value => rfl
      | none => cases e.rocksGet key <;> rfl

theorem get_fst (e : Engine E) (c : Call) (key : Bytes) :
    (e.get c key).1 =
      if (e.slot key).valid c.now then ((e.slot key).value .kBytes).or (e.slot key).record
      else none :=
  lookUp_fst { e with getCount := e.getCount + 1 } c key

theorem type_fst (e : Engine E) (c : Call) (key : Bytes) :
    (e.type c key).1 =
      if (e.slot key).valid c.now then ((e.slot key).metadata.map KeyMetadata.type).getD .kNone
      else .kNone := by
  unfold type KeyMetadataManager.getKeyType Slot.valid slot
  cases e.metas.lookup key with
  | none => rfl
  | some m => cases hm : m.isExpired c.now <;> simp [hm]

theorem ttl_fst (e : Engine E) (c : Call) (key : Bytes) :
    (e.ttl c key).1 =
      if (e.slot key).valid c.now then (e.slot key).metadata.map fun m =>
        if m.expireTimeMs = none then -1 else (m.getTtlMs c.now).getD (-1)
      else none := by
  have hmeta : (e.slot key).metadata = e.metas.lookup key := rfl
  unfold ttl
  cases hvalid : (e.slot key).valid c.now with
  | false => rw [guarded_of_not_valid hvalid, if_neg Bool.false_ne_true]
  | true =>
      rw [guarded_of_valid hvalid, if_pos rfl]
      unfold Slot.valid at hvalid
      rw [hmeta] at hvalid ⊢
      unfold KeyMetadataManager.getTtlMs
      cases hm : e.metas.lookup key with
      | none => simp [hm] at hvalid
      | some m =>
          simp only [hm, Option.any_some, Bool.not_eq_true'] at hvalid
          cases hexpire : m.expireTimeMs with
          | none => simp [hvalid, hexpire]
          | some d => simp [hvalid, hexpire]

/-- What `jsonset` answers: whether the text parses. -/
theorem jsonset_fst (e : Engine E) (c : Call) (key path json : Bytes) :
    (e.jsonset c key path json).1 = (E.simdjson.parse json).isSome := by
  unfold jsonset
  cases E.simdjson.parse json with
  | none => rfl
  | some doc => exact edit_fst (t := .kJson) _ _ _ _

/-- What `jsondel` answers: whether the path is the root. -/
theorem jsondel_fst (e : Engine E) (key path : Bytes) : (e.jsondel key path).1 = isRoot path := by
  unfold jsondel
  cases isRoot path <;> rfl

/-- What `expire` answers: whether the key is valid. -/
theorem expire_fst (e : Engine E) (c : Call) (key : Bytes) (ms : Int) :
    (e.expire c key ms).1 = (e.slot key).valid c.now := by
  unfold expire
  rw [guarded_fst rfl]
  cases (e.slot key).valid c.now <;> rfl

/-- What `exists` answers: the same. -/
theorem existsKey_fst (e : Engine E) (c : Call) (key : Bytes) :
    (e.existsKey c key).1 = (e.slot key).valid c.now := isValid_fst c.now

theorem hincrby_fst (e : Engine E) (c : Call) (key field : Bytes) (delta : Int) :
    (e.hincrby c key field delta).1 = ((increment field delta) ((e.slot key).edited .kHash
      (((e.slot key).record.map fun data => deserializeHash data ∅).getD (false, ∅)).2)).1 := by
  unfold hincrby
  rw [loadHash_snd]
  exact edit_fst (t := .kHash) _ _ _ _

theorem zscore_fst (e : Engine E) (c : Call) (key member : Bytes) :
    (e.zscore c key member).1 =
      (e.slot key).guarded c .kZSet 0 none fun zs => zs.getScore member :=
  (getOrCreateZset_fetches e c key).guarded_fst _ rfl

theorem hget_fst (e : Engine E) (c : Call) (key field : Bytes) :
    (e.hget c key field).1 = (e.slot key).guarded c .kHash 0 none fun h => h.lookup field :=
  (getOrCreateHash_fetches e c key).guarded_fst _ rfl

theorem hgetall_fst (e : Engine E) (c : Call) (key : Bytes) :
    (e.hgetall c key).1 = (e.slot key).guarded c .kHash 0 [] fieldsOf :=
  (getOrCreateHash_fetches e c key).guarded_fst _ rfl

theorem sismember_fst (e : Engine E) (c : Call) (key member : Bytes) :
    (e.sismember c key member).1 =
      (e.slot key).guarded c .kSet 0 false fun s => (s.lookup member).isSome :=
  (getOrCreateSet_fetches e c key).guarded_fst _ rfl

theorem smembers_fst (e : Engine E) (c : Call) (key : Bytes) :
    (e.smembers c key).1 = (e.slot key).guarded c .kSet 0 [] AList.keys :=
  (getOrCreateSet_fetches e c key).guarded_fst _ rfl

theorem xrange_fst (e : Engine E) (c : Call) (key startId endId : Bytes) (count : Int) :
    (e.xrange c key startId endId count).1 =
      (e.slot key).guarded c .kStream 0 [] fun s => s.xRange startId endId count :=
  (getOrCreateStream_fetches e c key).guarded_fst _ rfl

/-- What is done with an answer. -/
theorem answer_map {β : Type} (s : Slot E) (read : Value E t → α) (f : α → β) :
    f (s.answer c t dim absent read) = s.answer c t dim (f absent) fun v => f (read v) := by
  unfold Slot.answer
  cases s.found c t dim <;> rfl

theorem astrakvHgetall_fst (e : Engine E) (c : Call) (key : Bytes) :
    (e.astrakvHgetall key).1 = (e.slot key).answer c .kHash 0 [] fun h =>
      (fieldsOf h).flatMap fun p =>
        LittleEndian.put 4 p.1.length ++ p.1 ++ (LittleEndian.put 4 p.2.length ++ p.2) := by
  unfold astrakvHgetall forEachHash
  dsimp only
  rw [(getOrCreateHash_fetches e c key).answer_fst]
  exact answer_map (t := .kHash) _ fieldsOf
    fun fields : List (Bytes × Bytes) => fields.flatMap _

theorem astrakvSmembers_fst (e : Engine E) (c : Call) (key : Bytes) :
    (e.astrakvSmembers key).1 = (e.slot key).answer c .kSet 0 [] fun h =>
      h.keys.flatMap fun m => LittleEndian.put 4 m.length ++ m := by
  unfold astrakvSmembers forEachSet
  dsimp only
  rw [(getOrCreateSet_fetches e c key).answer_fst]
  exact answer_map (t := .kSet) _ AList.keys fun members : List Bytes => members.flatMap _

/-! ## a whole step -/

/-- Every operation on a key answers from its slot. -/
theorem replies (e : Engine E) (c : Call) (op : Op) :
    op.key.elim True fun key => (e.step (c, op)).1 = (e.slot key).reply c op := by
  cases op with
  | put k value => rfl
  | get k => exact congrArg Reply.bytesOption (get_fst e c k)
  | del k => rfl
  | existsKey k => exact congrArg Reply.bool (isValid_fst c.now)
  | type k => exact congrArg Reply.type (type_fst e c k)
  | expire k ms => exact congrArg Reply.bool (expire_fst e c k ms)
  | ttl k => exact congrArg Reply.intOption (ttl_fst e c k)
  | zadd k member score => exact congrArg Reply.bool (edit_fst _ _ _ _)
  | zscore k member => exact congrArg Reply.score (zscore_fst e c k member)
  | zrem k member => exact congrArg Reply.bool (update_fst _ _ _ _)
  | zcard k => exact congrArg Reply.int ((getOrCreateZset_fetches e c k).answer_fst _)
  | zrange k start stop reverse =>
      exact congrArg Reply.scored ((getOrCreateZset_fetches e c k).answer_fst _)
  | zrangebyscore k min max =>
      exact congrArg Reply.scored ((getOrCreateZset_fetches e c k).answer_fst _)
  | lpush k value => exact congrArg Reply.bool (edit_fst _ _ _ _)
  | rpush k value => exact congrArg Reply.bool (edit_fst _ _ _ _)
  | lpop k => exact congrArg Reply.bytesOption ((getOrCreateList_fetches e c k).update_fst _ _)
  | rpop k => exact congrArg Reply.bytesOption ((getOrCreateList_fetches e c k).update_fst _ _)
  | llen k => exact congrArg Reply.int ((getOrCreateList_fetches e c k).answer_fst _)
  | hset k field value => exact congrArg Reply.bool (edit_fst _ _ _ _)
  | hget k field => exact congrArg Reply.bytesOption (hget_fst e c k field)
  | hdel k field => exact congrArg Reply.bool ((getOrCreateHash_fetches e c k).update_fst _ _)
  | hexists k field => exact congrArg Reply.bool ((getOrCreateHash_fetches e c k).guarded_fst _ rfl)
  | hgetall k => exact congrArg Reply.fields ((getOrCreateHash_fetches e c k).guarded_fst _ rfl)
  | hlen k => exact congrArg Reply.int ((getOrCreateHash_fetches e c k).answer_fst _)
  | hincrby k field delta => exact congrArg Reply.intOption (hincrby_fst e c k field delta)
  | sadd k member => exact congrArg Reply.bool (edit_fst _ _ _ _)
  | srem k member => exact congrArg Reply.bool ((getOrCreateSet_fetches e c k).update_fst _ _)
  | sismember k member => exact congrArg Reply.bool (sismember_fst e c k member)
  | smembers k => exact congrArg Reply.members ((getOrCreateSet_fetches e c k).guarded_fst _ rfl)
  | scard k => exact congrArg Reply.int ((getOrCreateSet_fetches e c k).answer_fst _)
  | xadd k id fields => exact congrArg Reply.bytes (edit_fst _ _ _ _)
  | xread k startId count =>
      exact congrArg Reply.entries ((getOrCreateStream_fetches e c k).guarded_fst _ rfl)
  | xrange k startId endId count =>
      exact congrArg Reply.entries (xrange_fst e c k startId endId count)
  | xlen k => exact congrArg Reply.int ((getOrCreateStream_fetches e c k).answer_fst _)
  | xdel k id => exact congrArg Reply.bool ((getOrCreateStream_fetches e c k).update_fst _ _)
  | xtrim k maxlen =>
      exact congrArg (fun n : Nat => Reply.int n) ((getOrCreateStream_fetches e c k).update_fst _ _)
  | jsonset k path json => exact congrArg Reply.bool (jsonset_fst e c k path json)
  | jsonget k path =>
      exact congrArg Reply.bytesOption ((getOrCreateJson_fetches e c k).guarded_fst _ rfl)
  | jsondel k path => exact congrArg Reply.bool (jsondel_fst e k path)
  | vecadd k id vec => exact congrArg Reply.bool (edit_fst _ _ _ _)
  | vecget k id =>
      exact congrArg Reply.vector ((getOrCreateVector_fetches e c k 0).guarded_fst _ rfl)
  | vecdel k id => exact congrArg Reply.bool ((getOrCreateVector_fetches e c k 0).update_fst _ _)
  | vecsearch k query n =>
      have hfetch := getOrCreateVector_fetches e c k query.length
      exact congrArg Reply.nearest (hfetch.guarded_fst _ rfl)
  | vecsize k => exact congrArg Reply.int ((getOrCreateVector_fetches e c k 0).answer_fst _)
  | astrakvHgetall k => exact congrArg Reply.bytes (astrakvHgetall_fst e c k)
  | astrakvSmembers k => exact congrArg Reply.bytes (astrakvSmembers_fst e c k)
  | astrakvHscan k => exact congrArg Reply.fields ((getOrCreateHash_fetches e c k).answer_fst _)
  | astrakvSscan k => exact congrArg Reply.members ((getOrCreateSet_fetches e c k).answer_fst _)
  | _ => trivial

/-- **Locality of answers.**  An operation answers from the slot of its key. -/
theorem step_reply {op : Op} (hkey : op.key = some key) :
    (e.step (c, op)).1 = (e.slot key).reply c op := by
  have h := replies e c op
  rw [hkey] at h
  exact h

end Engine

end AstraKV
