import AstraKV.Engine.Evict

/-!
# AstraKV.Engine.Ops

The public operations of the engine, and the bulk reads of the C interface.

An operation is made of a few parts in one of four orders: a read that asks
the metadata first (`guarded`), a read that goes straight to the value
(`answer`), a change to a value that is there (`update`), and a change that
makes the value when the map has none (`edit`), with the eviction pass after
it (`write`).

Every operation is written under its own name as one of these with the
operation's own values, so that the order of lookups, loads, checks and writes
can be compared with the source line by line. The surroundings of a call come
in as one argument (`Call`): the clock, the outcome of each write to RocksDB,
the random numbers, and the byte beyond a sketch. No operation reads them from
anywhere else.
-/

namespace AstraKV

namespace Engine

variable {E : Env} {α β : Type}

/-! ## the parts -/

/-- Read from what `get_or_create_*` found. -/
def answer (absent : α) (read : β → α) (found : Option β × Engine E) : α × Engine E :=
  match found.1 with
  | none => (absent, found.2)
  | some v => (read v, found.2)

/-- Go on only if the key is valid. -/
def guarded (e : Engine E) (now : Int) (key : Bytes) (absent : α)
    (read : Engine E → α × Engine E) : α × Engine E :=
  match e.isValid now key with
  | (false, e) => (absent, e)
  | (true, e) => read e

/-- Put a changed value back, and persist it if the result says so. -/
def store (e : Engine E) (ok : Bool) (t : KeyType) (key : Bytes) (keep : α → Bool)
    (res : α × Value E t) : α × Engine E :=
  let e := e.insert t key res.2
  (res.1, if keep res.1 then e.persist ok t key res.2 else e)

/-- Change the value that was found. -/
def update (ok : Bool) (t : KeyType) (key : Bytes) (absent : α) (change : Value E t → α × Value E t)
    (keep : α → Bool) (found : Option (Value E t) × Engine E) : α × Engine E :=
  match found.1 with
  | none => (absent, found.2)
  | some v => found.2.store ok t key keep (change v)

/-- Change the value in the map, `fresh` and newly registered if there was none. -/
def edit (e : Engine E) (ok : Bool) (t : KeyType) (key : Bytes) (fresh : Value E t)
    (change : Value E t → α × Value E t) (keep : α → Bool) : α × Engine E :=
  match e.find t key with
  | some v => e.store ok t key keep (change v)
  | none => ((e.insert t key fresh).registerKey key t).store ok t key keep (change fresh)

def write (e : Engine E) (c : Call) (t : KeyType) (key : Bytes) (fresh : Value E t)
    (change : Value E t → α × Value E t) (keep : α → Bool) : α × Engine E :=
  let res := e.edit (c.putOk 0) t key fresh change keep
  (res.1, res.2.checkMemoryAndEvict c)

/-! ## byte strings -/

def put (c : Call) (e : Engine E) (key value : Bytes) : Bool × Engine E :=
  let e := (e.insert .kBytes key value).registerKey key .kBytes
  let e := { e with
    eviction2q := e.eviction2q.recordAccess E.maxProtected key
    putCount := e.putCount + 1 }
  let e := e.rocksPut (c.putOk 0) key value
  (true, e.checkMemoryAndEvict c)

def hit (c : Call) (e : Engine E) (key : Bytes) : Engine E :=
  let e := e.recordAccess c.now key
  { e with hits := e.hits + 1 }

def miss (e : Engine E) : Engine E := { e with misses := e.misses + 1 }

/-- `get` once the call is counted: a record that is read from RocksDB goes into the map of byte
strings as it is. -/
def lookUp (c : Call) (e : Engine E) (key : Bytes) : Option Bytes × Engine E :=
  match e.isValid c.now key with
  | (false, e) => (none, e.miss)
  | (true, e) =>
      match e.find .kBytes key with
      | some value => (some value, e.hit c key)
      | none =>
          match e.rocksGet key with
          | some bytes => (some bytes, (e.insert .kBytes key bytes).hit c key)
          | none => (none, e.miss)

def get (c : Call) (e : Engine E) (key : Bytes) : Option Bytes × Engine E :=
  lookUp c { e with getCount := e.getCount + 1 } key

/-- The eight types with a map. -/
def mapTypes : List KeyType :=
  [.kBytes, .kZSet, .kList, .kHash, .kSet, .kStream, .kJson, .kVector]

def del (e : Engine E) (key : Bytes) : Bool × Engine E :=
  let removed := mapTypes.any fun t => (e.find t key).isSome
  let e := e.removeAll key
  let e := { e with eviction2q := e.eviction2q.removeKey key }
  (removed, (e.unregisterKey key).rocksDelete key)

/-- `exists`. -/
def existsKey (c : Call) (e : Engine E) (key : Bytes) : Bool × Engine E := e.isValid c.now key

def type (c : Call) (e : Engine E) (key : Bytes) : KeyType × Engine E :=
  let res := e.metas.getKeyType c.now key
  (res.1.getD .kNone, { e with metas := res.2 })

/-! ## time to live -/

/-- `expire`: the number given becomes the expiry time as it is. -/
def expire (c : Call) (e : Engine E) (key : Bytes) (ms : Int) : Bool × Engine E :=
  e.guarded c.now key false fun e => (true, { e with metas := (e.metas.setExpireMs key ms).2 })

def ttl (c : Call) (e : Engine E) (key : Bytes) : Option Int × Engine E :=
  e.guarded c.now key none fun e => (some (e.metas.getTtlMs c.now key), e)

/-! ## sorted sets -/

def zadd (c : Call) (e : Engine E) (key member : Bytes) (score : Binary64) : Bool × Engine E :=
  e.write c .kZSet key .empty (fun zs => (true, (zs.add E.memberHash member score).2))
    fun _ => true

def zscore (c : Call) (e : Engine E) (key member : Bytes) : Option Binary64 × Engine E :=
  e.guarded c.now key none fun e =>
    answer none (fun zs => zs.getScore member) (e.getOrCreateZset key)

/-- `zrem` does not look for the key in RocksDB. -/
def zrem (c : Call) (e : Engine E) (key member : Bytes) : Bool × Engine E :=
  update (c.putOk 0) .kZSet key false (fun zs => zs.remove E.memberHash member) (fun _ => true)
    (e.find .kZSet key, e)

def zcard (e : Engine E) (key : Bytes) : Int × Engine E :=
  answer 0 (fun zs => zs.size.toNat) (e.getOrCreateZset key)

def zrange (e : Engine E) (key : Bytes) (start stop : Int) (reverse : Bool) :
    Option (List (Bytes × Binary64)) × Engine E :=
  answer (some [])
    (fun zs => zs.getRangeByRank (UInt64.ofInt start) (UInt64.ofInt stop) reverse true)
    (e.getOrCreateZset key)

def zrangebyscore (e : Engine E) (key : Bytes) (min max : Binary64) :
    Option (List (Bytes × Binary64)) × Engine E :=
  answer (some []) (fun zs => zs.getRangeByScore min max true) (e.getOrCreateZset key)

/-! ## lists -/

def lpush (c : Call) (e : Engine E) (key value : Bytes) : Bool × Engine E :=
  e.write c .kList key .empty (fun lst => (true, lst.pushLeft value)) fun _ => true

def rpush (c : Call) (e : Engine E) (key value : Bytes) : Bool × Engine E :=
  e.write c .kList key .empty (fun lst => (true, lst.pushRight value)) fun _ => true

def lpop (c : Call) (e : Engine E) (key : Bytes) : Option Bytes × Engine E :=
  update (c.putOk 0) .kList key none LinkedList.popLeft Option.isSome (e.getOrCreateList key)

def rpop (c : Call) (e : Engine E) (key : Bytes) : Option Bytes × Engine E :=
  update (c.putOk 0) .kList key none LinkedList.popRight Option.isSome (e.getOrCreateList key)

def llen (e : Engine E) (key : Bytes) : Int × Engine E :=
  answer 0 (fun lst => lst.size) (e.getOrCreateList key)

/-! ## hashes -/

def hset (c : Call) (e : Engine E) (key field value : Bytes) : Bool × Engine E :=
  e.write c .kHash key ∅ (fun h => (true, AList.insert field value h)) fun _ => true

def hget (c : Call) (e : Engine E) (key field : Bytes) : Option Bytes × Engine E :=
  e.guarded c.now key none fun e =>
    answer none (fun h => h.lookup field) (e.getOrCreateHash key)

def hdel (c : Call) (e : Engine E) (key field : Bytes) : Bool × Engine E :=
  update (c.putOk 0) .kHash key false (fun h => ((h.lookup field).isSome, AList.erase field h))
    (fun _ => true) (e.getOrCreateHash key)

def hexists (c : Call) (e : Engine E) (key field : Bytes) : Bool × Engine E :=
  e.guarded c.now key false fun e =>
    answer false (fun h => (h.lookup field).isSome) (e.getOrCreateHash key)

/-- `AllEntries`. -/
def fieldsOf (h : Dict Bytes Bytes) : List (Bytes × Bytes) :=
  h.entries.map fun entry => (entry.1, entry.2)

def hgetall (c : Call) (e : Engine E) (key : Bytes) : List (Bytes × Bytes) × Engine E :=
  e.guarded c.now key [] fun e => answer [] fieldsOf (e.getOrCreateHash key)

def hlen (e : Engine E) (key : Bytes) : Int × Engine E :=
  answer 0 (fun h => h.keys.length) (e.getOrCreateHash key)

/-- The sum of two `int64_t`, wrapped. -/
def addInt64 (m n : Int) : Int := (m + n).bmod (2 ^ 64)

/-- The field with `delta` added, and the new value; what is no number counts as zero. -/
def increment (field : Bytes) (delta : Int) (h : Dict Bytes Bytes) :
    Option Int × Dict Bytes Bytes :=
  let current := ((h.lookup field).map Decimal.strtoll).getD 0
  let newVal := addInt64 current delta
  (some newVal, AList.insert field (Decimal.ofInt newVal) h)

/-- `hincrby`: whatever a load leaves in the new hash stays there. -/
def hincrby (c : Call) (e : Engine E) (key field : Bytes) (delta : Int) :
    Option Int × Engine E :=
  e.edit (c.putOk 0) .kHash key (e.loadHash key ∅).2 (increment field delta) fun _ => true

/-- `forEachHash`: the calls of the callback. -/
def forEachHash (e : Engine E) (key : Bytes) : List (Bytes × Bytes) × Engine E :=
  answer [] fieldsOf (e.getOrCreateHash key)

/-! ## sets -/

def sadd (c : Call) (e : Engine E) (key member : Bytes) : Bool × Engine E :=
  e.write c .kSet key ∅ (fun s => (true, AList.insert member 0 s)) fun _ => true

def srem (c : Call) (e : Engine E) (key member : Bytes) : Bool × Engine E :=
  update (c.putOk 0) .kSet key false (fun s => ((s.lookup member).isSome, AList.erase member s))
    (fun _ => true) (e.getOrCreateSet key)

def sismember (c : Call) (e : Engine E) (key member : Bytes) : Bool × Engine E :=
  e.guarded c.now key false fun e =>
    answer false (fun s => (s.lookup member).isSome) (e.getOrCreateSet key)

def smembers (c : Call) (e : Engine E) (key : Bytes) : List Bytes × Engine E :=
  e.guarded c.now key [] fun e => answer [] AList.keys (e.getOrCreateSet key)

def scard (e : Engine E) (key : Bytes) : Int × Engine E :=
  answer 0 (fun s => s.keys.length) (e.getOrCreateSet key)

/-- `forEachSet`: the calls of the callback. -/
def forEachSet (e : Engine E) (key : Bytes) : List Bytes × Engine E :=
  answer [] AList.keys (e.getOrCreateSet key)

/-! ## streams -/

def xadd (c : Call) (e : Engine E) (key id : Bytes) (fields : List (Bytes × Bytes)) :
    Bytes × Engine E :=
  e.write c .kStream key .empty (fun s => s.xAdd c.now id fields) fun result => result ≠ []

def xread (c : Call) (e : Engine E) (key startId : Bytes) (count : Int) :
    List StreamEntry × Engine E :=
  e.guarded c.now key [] fun e =>
    answer [] (fun s => s.xRead startId count) (e.getOrCreateStream c.now key)

def xrange (c : Call) (e : Engine E) (key startId endId : Bytes) (count : Int) :
    List StreamEntry × Engine E :=
  e.guarded c.now key [] fun e =>
    answer [] (fun s => s.xRange startId endId count) (e.getOrCreateStream c.now key)

def xlen (c : Call) (e : Engine E) (key : Bytes) : Int × Engine E :=
  answer 0 (fun s => s.xLen) (e.getOrCreateStream c.now key)

def xdel (c : Call) (e : Engine E) (key id : Bytes) : Bool × Engine E :=
  update (c.putOk 0) .kStream key false (fun s => s.xDel id) (fun ok => ok)
    (e.getOrCreateStream c.now key)

def xtrim (c : Call) (e : Engine E) (key : Bytes) (maxlen : Int) : Nat × Engine E :=
  update (c.putOk 0) .kStream key 0 (fun s => s.xTrim maxlen) (fun removed => 0 < removed)
    (e.getOrCreateStream c.now key)

/-! ## JSON -/

/-- The empty path, `.` and `$`. -/
def isRoot (path : Bytes) : Bool := path = [] ∨ path = [46] ∨ path = [36]

/-- `jsonset` takes no notice of the path. -/
def jsonset (c : Call) (e : Engine E) (key _path json : Bytes) : Bool × Engine E :=
  match E.simdjson.parse json with
  | none => (false, e)
  | some _ => e.edit (c.putOk 0) .kJson key [] (fun _ => (true, json)) fun _ => true

/-- The text at a path of a document. -/
def jsonText (E : Env) (path json : Bytes) : Option Bytes := do
  let doc ← E.simdjson.parse json
  if isRoot path then some (E.simdjson.toString doc)
  else (E.simdjson.atPointer doc path).map E.simdjson.toString

def jsonget (c : Call) (e : Engine E) (key path : Bytes) : Option Bytes × Engine E :=
  e.guarded c.now key none fun e => answer none (jsonText E path) (e.getOrCreateJson key)

/-- `jsondel` forgets the key of whatever type it is. -/
def jsondel (e : Engine E) (key path : Bytes) : Bool × Engine E :=
  if isRoot path then (true, ((e.remove .kJson key).unregisterKey key).rocksDelete key)
  else (false, e)

/-! ## vectors -/

def vecadd (c : Call) (e : Engine E) (key id : Bytes) (vec : List Binary32) : Bool × Engine E :=
  e.write c .kVector key (.new E.hnsw vec.length) (fun v => v.add id vec) fun added => added

def vecget (c : Call) (e : Engine E) (key id : Bytes) : List Binary32 × Engine E :=
  e.guarded c.now key [] fun e =>
    answer [] (fun v => v.get id) (e.getOrCreateVector c.beyond key 0)

def vecdel (c : Call) (e : Engine E) (key id : Bytes) : Bool × Engine E :=
  update (c.putOk 0) .kVector key false (fun v => v.remove id) (fun ok => ok)
    (e.getOrCreateVector c.beyond key 0)

def vecsearch (c : Call) (e : Engine E) (key : Bytes) (query : List Binary32) (k : Nat) :
    List (Bytes × Binary32) × Engine E :=
  e.guarded c.now key [] fun e =>
    answer [] (fun v => v.search query k) (e.getOrCreateVector c.beyond key query.length)

def vecsize (c : Call) (e : Engine E) (key : Bytes) : Int × Engine E :=
  answer 0 (fun v => v.size) (e.getOrCreateVector c.beyond key 0)

/-! ## iteration -/

def allEntries (e : Engine E) : List (Bytes × Bytes) :=
  (e.data .kBytes).entries.map fun entry => (entry.1, entry.2)

def allKeys (e : Engine E) : List Bytes := e.metas.keys

/-! ## the C interface -/

/-- `astrakv_hgetall`: each field and value behind its length. -/
def astrakvHgetall (e : Engine E) (key : Bytes) : Bytes × Engine E :=
  let res := e.forEachHash key
  (res.1.flatMap fun p =>
    LittleEndian.put 4 p.1.length ++ p.1 ++ (LittleEndian.put 4 p.2.length ++ p.2), res.2)

/-- `astrakv_smembers`: each member behind its length. -/
def astrakvSmembers (e : Engine E) (key : Bytes) : Bytes × Engine E :=
  let res := e.forEachSet key
  (res.1.flatMap fun m => LittleEndian.put 4 m.length ++ m, res.2)

/-- `astrakv_hscan`: the calls of the callback. -/
def astrakvHscan (e : Engine E) (key : Bytes) : List (Bytes × Bytes) × Engine E :=
  e.forEachHash key

/-- `astrakv_sscan`: the calls of the callback. -/
def astrakvSscan (e : Engine E) (key : Bytes) : List Bytes × Engine E := e.forEachSet key

end Engine

end AstraKV
