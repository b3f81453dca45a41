import AstraKV.Engine.Step

/-!
# AstraKV.Engine.Slot

The engine one key at a time.  A slot is what the engine holds about one
key: the value of each type, the metadata and the record.  An operation acts
on the slot of its key alone, in one of a few shapes, and the pass at the end
of a write may sweep any slot.

`AstraKV.Engine.Local` proves that the engine's steps are these.

The shapes are those of the parts in `AstraKV.Engine.Ops`, with everything but
the one key left out: to look, to look and change, to change what is in the
map, to change it or make it, and a few that are one operation each. `Swept`
is all that a pass may do to a slot that no operation is about: leave it,
empty it when it has expired, or write its value out and drop it. Below the
definitions stand the equations for each field after each update, which is how
the slots are computed with from here on.
-/

namespace AstraKV

@[ext] structure Slot (E : Env) where
  value : (t : KeyType) → Option (Value E t)
  metadata : Option KeyMetadata
  record : Option Bytes

namespace Slot

variable {E : Env}

def empty : Slot E := ⟨fun _ => none, none, none⟩

def set (s : Slot E) (t : KeyType) (v : Value E t) : Slot E :=
  { s with value := Function.update s.value t (some v) }

def drop (s : Slot E) (t : KeyType) : Slot E := { s with value := Function.update s.value t none }

def register (s : Slot E) (t : KeyType) : Slot E :=
  let version :=
    match s.metadata with
    | none => 1
    | some existing => existing.version + 1
  { s with metadata := some { KeyMetadata.ofType t with version := version } }

/-- There is metadata, and it is not expired. -/
def valid (s : Slot E) (now : Int) : Bool := s.metadata.any fun m => !m.isExpired now

def expired (s : Slot E) (now : Int) : Bool := s.metadata.any fun m => m.isExpired now

/-- Forget the metadata if it is expired. -/
def check (s : Slot E) (now : Int) : Slot E :=
  if s.expired now then { s with metadata := none } else s

def save (disk ok : Bool) (s : Slot E) (record : Bytes) : Slot E :=
  if disk && ok then { s with record := some record } else s

def touch (s : Slot E) (now : Int) : Slot E :=
  { s with metadata := s.metadata.map fun m => m.updateAccess now }

/-- The outcome of a load that succeeded. -/
def complete {β : Type} (res : Bool × β) : Option β := if res.1 then some res.2 else none

/-- The value of type `t` a record is read as. -/
def decode (E : Env) (c : Call) (dim : Nat) : (t : KeyType) → Bytes → Option (Value E t)
  | .kNone, _ => none
  | .kBytes, data => some data
  | .kZSet, data => complete (deserializeZset E.memberHash data .empty)
  | .kList, data => complete (deserializeList data .empty)
  | .kHash, data => complete (deserializeHash data ∅)
  | .kSet, data => complete (deserializeSet data ∅)
  | .kStream, data => complete (deserializeStream c.now data .empty)
  | .kJson, data => some data
  | .kVector, data => complete (deserializeVector c.beyond data (.new E.hnsw dim))

/-- The value of type `t` that the record holds. -/
def load (s : Slot E) (c : Call) (t : KeyType) (dim : Nat) : Option (Value E t) :=
  s.record.bind (decode E c dim t)

/-- The value of type `t`, from the map or else from the record. -/
def found (s : Slot E) (c : Call) (t : KeyType) (dim : Nat) : Option (Value E t) :=
  (s.value t).or (s.load c t dim)

/-- What looking for the value leaves. -/
def fetch (s : Slot E) (c : Call) (t : KeyType) (dim : Nat) : Slot E :=
  match s.value t, s.load c t dim with
  | none, some v => (s.set t v).register t
  | _, _ => s

/-- Set a value, and save it if the flag says so. -/
def store (disk ok : Bool) (s : Slot E) (t : KeyType) (res : Bool × Value E t) : Slot E :=
  let s := s.set t res.2
  if res.1 then s.save disk ok (Engine.serialize t res.2) else s

/-- Change a value that is there. -/
def change (disk ok : Bool) (s : Slot E) (t : KeyType) (f : Value E t → Bool × Value E t) :
    Slot E :=
  match s.value t with
  | none => s
  | some v => s.store disk ok t (f v)

/-- Write the value of type `t` out and drop it with the metadata. -/
def evict (disk ok : Bool) (s : Slot E) (t : KeyType) : Slot E :=
  let s :=
    match s.value t with
    | none => s
    | some v => (s.save disk ok (Engine.serialize t v)).drop t
  { s with metadata := none }

section Fields

variable {s : Slot E} {t t' : KeyType} {v : Value E t} {disk ok : Bool} {record : Bytes} {now : Int}

/-- The value set is there. -/
@[simp] theorem value_set_self : (s.set t v).value t = some v := Function.update_self _ _ _

/-- The others stay. -/
@[simp] theorem value_set_of_ne (h : t' ≠ t) : (s.set t v).value t' = s.value t' :=
  Function.update_of_ne h _ _

/-- Setting a value leaves the metadata. -/
@[simp] theorem metadata_set : (s.set t v).metadata = s.metadata := rfl

/-- Setting a value leaves the record. -/
@[simp] theorem record_set : (s.set t v).record = s.record := rfl

/-- The value dropped is gone. -/
@[simp] theorem value_drop_self : (s.drop t).value t = none := Function.update_self _ _ _

/-- The others stay. -/
@[simp] theorem value_drop_of_ne (h : t' ≠ t) : (s.drop t).value t' = s.value t' :=
  Function.update_of_ne h _ _

@[simp] theorem metadata_drop : (s.drop t).metadata = s.metadata := rfl

@[simp] theorem record_drop : (s.drop t).record = s.record := rfl

@[simp] theorem value_register : (s.register t).value = s.value := rfl

@[simp] theorem record_register : (s.register t).record = s.record := rfl

@[simp] theorem value_touch : (s.touch now).value = s.value := rfl

@[simp] theorem record_touch : (s.touch now).record = s.record := rfl

/-- Writing the record leaves the values. -/
@[simp] theorem value_save : (save disk ok s record).value = s.value := by
  unfold save
  split <;> rfl

/-- Writing the record leaves the metadata. -/
@[simp] theorem metadata_save : (save disk ok s record).metadata = s.metadata := by
  unfold save
  split <;> rfl

/-- The record is written where there is a store and the write succeeds. -/
theorem record_save :
    (save disk ok s record).record = if disk && ok then some record else s.record := by
  unfold save
  split <;> rfl

@[simp] theorem value_check : (s.check now).value = s.value := by
  unfold check
  split <;> rfl

@[simp] theorem record_check : (s.check now).record = s.record := by
  unfold check
  split <;> rfl

/-- Storing a value leaves the metadata. -/
@[simp] theorem metadata_store {res : Bool × Value E t} :
    (store disk ok s t res).metadata = s.metadata := by
  unfold store
  dsimp only
  split <;> simp

@[simp] theorem metadata_change {f : Value E t → Bool × Value E t} :
    (change disk ok s t f).metadata = s.metadata := by
  unfold change
  split <;> simp

/-- A check forgets metadata that have expired. -/
theorem metadata_check :
    (s.check now).metadata = if s.expired now then none else s.metadata := by
  unfold check
  split <;> rfl

end Fields

end Slot

/-! ## what an operation does to the slot of its key -/

inductive Shape (E : Env) where
  | idle
  | check
  | expire (ms : Int)
  | get
  | put (value : Bytes)
  | del
  | jsondel
  /-- Look for a value, in a valid slot only if `guarded`. -/
  | read (guarded : Bool) (t : KeyType) (dim : Nat)
  /-- Look for a value and change it. -/
  | update (t : KeyType) (dim : Nat) (f : Value E t → Bool × Value E t)
  /-- Change a value in the map. -/
  | change (t : KeyType) (f : Value E t → Bool × Value E t)
  /-- Change a value in the map, a fresh one if there was none. -/
  | edit (t : KeyType) (fresh : Option Bytes → Value E t) (f : Value E t → Bool × Value E t)

namespace Slot

variable {E : Env}

def act (c : Call) (disk : Bool) (s : Slot E) : Shape E → Slot E
  | .idle => s
  | .check => s.check c.now
  | .expire ms =>
      if s.valid c.now then { s with metadata := s.metadata.map fun m => m.setExpireMs ms }
      else s.check c.now
  | .get =>
      if s.valid c.now then
        match s.value .kBytes, s.record with
        | some _, _ => s.touch c.now
        | none, some record => (s.set .kBytes record).touch c.now
        | none, none => s
      else s.check c.now
  | .put value => save disk (c.putOk 0) ((s.set .kBytes value).register .kBytes) value
  | .del => empty
  | .jsondel => { s.drop .kJson with metadata := none, record := none }
  | .read guarded t dim =>
      if guarded && !s.valid c.now then s.check c.now else s.fetch c t dim
  | .update t dim f => change disk (c.putOk 0) (s.fetch c t dim) t f
  | .change t f => change disk (c.putOk 0) s t f
  | .edit t fresh f =>
      match s.value t with
      | some v => store disk (c.putOk 0) s t (f v)
      | none =>
          let v := fresh s.record
          store disk (c.putOk 0) ((s.set t v).register t) t (f v)

/-- What a pass of cleanup and eviction, with the options `o`, may do to a slot. -/
inductive Swept (c : Call) (o : Options) (disk : Bool) (s : Slot E) : Slot E → Prop where
  | kept : Swept c o disk s s
  | expired (h : s.expired c.now = true) : Swept c o disk s empty
  | evicted (i : Nat) (m : KeyMetadata) (hlimit : o.maxMb ≠ 0) (hm : s.metadata = some m)
      (hvalid : m.isExpired c.now = false) :
      Swept c o disk s (s.evict disk (c.putOk (i + 1)) m.type)

end Slot

/-- The key an operation is about. -/
def Op.key : Op → Option Bytes
  | .put k _ | .get k | .del k | .existsKey k | .type k | .expire k _ | .ttl k => some k
  | .zadd k _ _ | .zscore k _ | .zrem k _ | .zcard k | .zrange k _ _ _ => some k
  | .zrangebyscore k _ _ | .lpush k _ | .rpush k _ | .lpop k | .rpop k | .llen k => some k
  | .hset k _ _ | .hget k _ | .hdel k _ | .hexists k _ | .hgetall k | .hlen k => some k
  | .hincrby k _ _ | .sadd k _ | .srem k _ | .sismember k _ | .smembers k | .scard k => some k
  | .xadd k _ _ | .xread k _ _ | .xrange k _ _ _ | .xlen k | .xdel k _ | .xtrim k _ => some k
  | .jsonset k _ _ | .jsonget k _ | .jsondel k _ => some k
  | .vecadd k _ _ | .vecget k _ | .vecdel k _ | .vecsearch k _ _ | .vecsize k => some k
  | .astrakvHgetall k | .astrakvSmembers k | .astrakvHscan k | .astrakvSscan k => some k
  | .allEntries | .allKeys | .count | .memoryUsage | .cleanupExpired | .setEviction _ => none

variable {E : Env}

/-- A change with an answer, as a change that says whether to persist. -/
def persistIf {α β : Type} (keep : α → Bool) (f : β → α × β) (v : β) : Bool × β :=
  (keep (f v).1, (f v).2)

def Op.shape (E : Env) (c : Call) : Op → Shape E
  | .put _ value => .put value
  | .get _ => .get
  | .del _ => .del
  | .existsKey _ | .type _ | .ttl _ => .check
  | .expire _ ms => .expire ms
  | .zadd _ member score => .edit .kZSet (fun _ => .empty)
      (persistIf (fun _ => true) fun zs => (true, (zs.add E.memberHash member score).2))
  | .zscore _ _ => .read true .kZSet 0
  | .zrem _ member => .change .kZSet
      (persistIf (fun _ => true) fun zs => zs.remove E.memberHash member)
  | .zcard _ | .zrange _ _ _ _ | .zrangebyscore _ _ _ => .read false .kZSet 0
  | .lpush _ value => .edit .kList (fun _ => .empty)
      (persistIf (fun _ => true) fun lst => (true, lst.pushLeft value))
  | .rpush _ value => .edit .kList (fun _ => .empty)
      (persistIf (fun _ => true) fun lst => (true, lst.pushRight value))
  | .lpop _ => .update .kList 0 (persistIf Option.isSome LinkedList.popLeft)
  | .rpop _ => .update .kList 0 (persistIf Option.isSome LinkedList.popRight)
  | .llen _ => .read false .kList 0
  | .hset _ field value => .edit .kHash (fun _ => ∅)
      (persistIf (fun _ => true) fun h => (true, AList.insert field value h))
  | .hget _ _ | .hexists _ _ | .hgetall _ => .read true .kHash 0
  | .hdel _ field => .update .kHash 0
      (persistIf (fun _ => true) fun h => ((h.lookup field).isSome, AList.erase field h))
  | .hlen _ | .astrakvHgetall _ | .astrakvHscan _ => .read false .kHash 0
  | .hincrby _ field delta => .edit .kHash
      (fun record => ((record.map fun data => deserializeHash data ∅).getD (false, ∅)).2)
      (persistIf (fun _ => true) (Engine.increment field delta))
  | .sadd _ member => .edit .kSet (fun _ => ∅)
      (persistIf (fun _ => true) fun s => (true, AList.insert member 0 s))
  | .srem _ member => .update .kSet 0
      (persistIf (fun _ => true) fun s => ((s.lookup member).isSome, AList.erase member s))
  | .sismember _ _ | .smembers _ => .read true .kSet 0
  | .scard _ | .astrakvSmembers _ | .astrakvSscan _ => .read false .kSet 0
  | .xadd _ id fields => .edit .kStream (fun _ => .empty)
      (persistIf (fun result => result ≠ []) fun s => s.xAdd c.now id fields)
  | .xread _ _ _ | .xrange _ _ _ _ => .read true .kStream 0
  | .xlen _ => .read false .kStream 0
  | .xdel _ id => .update .kStream 0 (persistIf (fun ok => ok) fun s => s.xDel id)
  | .xtrim _ maxlen => .update .kStream 0 (persistIf (fun n => 0 < n) fun s => s.xTrim maxlen)
  | .jsonset _ _ json =>
      if (E.simdjson.parse json).isSome then
        .edit .kJson (fun _ => []) (persistIf (fun _ => true) fun _ => (true, json))
      else .idle
  | .jsonget _ _ => .read true .kJson 0
  | .jsondel _ path => if Engine.isRoot path then .jsondel else .idle
  | .vecadd _ id vec => .edit .kVector (fun _ => .new E.hnsw vec.length)
      (persistIf (fun added => added) fun v => v.add id vec)
  | .vecget _ _ => .read true .kVector 0
  | .vecdel _ id => .update .kVector 0 (persistIf (fun ok => ok) fun v => v.remove id)
  | .vecsearch _ query _ => .read true .kVector query.length
  | .vecsize _ => .read false .kVector 0
  | .allEntries | .allKeys | .count | .memoryUsage | .cleanupExpired | .setEviction _ => .idle

namespace Engine

def disk (e : Engine E) : Bool := e.rocksdb.isSome

def slot (e : Engine E) (key : Bytes) : Slot E :=
  ⟨fun t => e.find t key, e.metas.lookup key, e.rocksGet key⟩

/-- The slots after an operation and before the pass at its end. -/
def acted (e : Engine E) (c : Call) (op : Op) : Bytes → Slot E :=
  match op.key with
  | none => e.slot
  | some key => Function.update e.slot key ((e.slot key).act c e.disk (op.shape E c))

variable {e : Engine E} {c : Call} {op : Op} {key : Bytes}

/-- The slot of the operation's key is acted on. -/
theorem acted_self (h : op.key = some key) :
    e.acted c op key = (e.slot key).act c e.disk (op.shape E c) := by
  unfold acted
  rw [h]
  exact Function.update_self _ _ _

/-- Every other slot is as it was. -/
theorem acted_of_ne (h : op.key ≠ some key) : e.acted c op key = e.slot key := by
  unfold acted
  cases hkey : op.key with
  | none => rfl
  | some key' =>
      refine Function.update_of_ne (fun heq => h ?_) _ _
      rw [hkey, heq]

end Engine

end AstraKV
