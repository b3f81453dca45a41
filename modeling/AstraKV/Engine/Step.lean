import AstraKV.Engine.Ops
import AstraKV.Lib.Machine

/-!
# AstraKV.Engine.Step

The engine as a machine: one public operation with what it finds in its
surroundings is one step, its answer the output.

A run is a list of such steps, and everything about runs comes from the
general rules in `AstraKV.Lib.Machine`: what every step keeps a run keeps, and
what two machines do alike step by step they do alike over runs. Because the
surroundings are part of the step, a statement about all runs is one about all
clocks, all failures of writes and all random choices.
-/

namespace AstraKV

inductive Op where
  | put (key value : Bytes)
  | get (key : Bytes)
  | del (key : Bytes)
  | existsKey (key : Bytes)
  | type (key : Bytes)
  | expire (key : Bytes) (ms : Int)
  | ttl (key : Bytes)
  | zadd (key member : Bytes) (score : Binary64)
  | zscore (key member : Bytes)
  | zrem (key member : Bytes)
  | zcard (key : Bytes)
  | zrange (key : Bytes) (start stop : Int) (reverse : Bool)
  | zrangebyscore (key : Bytes) (min max : Binary64)
  | lpush (key value : Bytes)
  | rpush (key value : Bytes)
  | lpop (key : Bytes)
  | rpop (key : Bytes)
  | llen (key : Bytes)
  | hset (key field value : Bytes)
  | hget (key field : Bytes)
  | hdel (key field : Bytes)
  | hexists (key field : Bytes)
  | hgetall (key : Bytes)
  | hlen (key : Bytes)
  | hincrby (key field : Bytes) (delta : Int)
  | sadd (key member : Bytes)
  | srem (key member : Bytes)
  | sismember (key member : Bytes)
  | smembers (key : Bytes)
  | scard (key : Bytes)
  | xadd (key id : Bytes) (fields : List (Bytes × Bytes))
  | xread (key startId : Bytes) (count : Int)
  | xrange (key startId endId : Bytes) (count : Int)
  | xlen (key : Bytes)
  | xdel (key id : Bytes)
  | xtrim (key : Bytes) (maxlen : Int)
  | jsonset (key path json : Bytes)
  | jsonget (key path : Bytes)
  | jsondel (key path : Bytes)
  | vecadd (key id : Bytes) (vec : List Binary32)
  | vecget (key id : Bytes)
  | vecdel (key id : Bytes)
  | vecsearch (key : Bytes) (query : List Binary32) (k : Nat)
  | vecsize (key : Bytes)
  | allEntries
  | allKeys
  | count
  | memoryUsage
  | cleanupExpired
  | setEviction (policy : EvictionPolicy)
  | astrakvHgetall (key : Bytes)
  | astrakvSmembers (key : Bytes)
  | astrakvHscan (key : Bytes)
  | astrakvSscan (key : Bytes)
deriving DecidableEq

inductive Reply where
  | unit
  | bool (b : Bool)
  | int (n : Int)
  | intOption (n : Option Int)
  | type (t : KeyType)
  | bytes (bs : Bytes)
  | bytesOption (bs : Option Bytes)
  | score (s : Option Binary64)
  /-- Nothing where the source dereferences a node that is not there. -/
  | scored (range : Option (List (Bytes × Binary64)))
  | members (ms : List Bytes)
  | fields (fs : List (Bytes × Bytes))
  | entries (es : List StreamEntry)
  | vector (vec : List Binary32)
  | nearest (res : List (Bytes × Binary32))
deriving DecidableEq

namespace Engine

variable {E : Env}

/-- Wrap the answer of an operation. -/
def reply {α : Type} (wrap : α → Reply) (res : α × Engine E) : Reply × Engine E :=
  (wrap res.1, res.2)

def step (e : Engine E) : Call × Op → Reply × Engine E
  | (c, .put key value) => reply .bool (e.put c key value)
  | (c, .get key) => reply .bytesOption (e.get c key)
  | (_, .del key) => reply .bool (e.del key)
  | (c, .existsKey key) => reply .bool (e.existsKey c key)
  | (c, .type key) => reply .type (e.type c key)
  | (c, .expire key ms) => reply .bool (e.expire c key ms)
  | (c, .ttl key) => reply .intOption (e.ttl c key)
  | (c, .zadd key member score) => reply .bool (e.zadd c key member score)
  | (c, .zscore key member) => reply .score (e.zscore c key member)
  | (c, .zrem key member) => reply .bool (e.zrem c key member)
  | (_, .zcard key) => reply .int (e.zcard key)
  | (_, .zrange key start stop reverse) => reply .scored (e.zrange key start stop reverse)
  | (_, .zrangebyscore key min max) => reply .scored (e.zrangebyscore key min max)
  | (c, .lpush key value) => reply .bool (e.lpush c key value)
  | (c, .rpush key value) => reply .bool (e.rpush c key value)
  | (c, .lpop key) => reply .bytesOption (e.lpop c key)
  | (c, .rpop key) => reply .bytesOption (e.rpop c key)
  | (_, .llen key) => reply .int (e.llen key)
  | (c, .hset key field value) => reply .bool (e.hset c key field value)
  | (c, .hget key field) => reply .bytesOption (e.hget c key field)
  | (c, .hdel key field) => reply .bool (e.hdel c key field)
  | (c, .hexists key field) => reply .bool (e.hexists c key field)
  | (c, .hgetall key) => reply .fields (e.hgetall c key)
  | (_, .hlen key) => reply .int (e.hlen key)
  | (c, .hincrby key field delta) => reply .intOption (e.hincrby c key field delta)
  | (c, .sadd key member) => reply .bool (e.sadd c key member)
  | (c, .srem key member) => reply .bool (e.srem c key member)
  | (c, .sismember key member) => reply .bool (e.sismember c key member)
  | (c, .smembers key) => reply .members (e.smembers c key)
  | (_, .scard key) => reply .int (e.scard key)
  | (c, .xadd key id fields) => reply .bytes (e.xadd c key id fields)
  | (c, .xread key startId count) => reply .entries (e.xread c key startId count)
  | (c, .xrange key startId endId count) => reply .entries (e.xrange c key startId endId count)
  | (c, .xlen key) => reply .int (e.xlen c key)
  | (c, .xdel key id) => reply .bool (e.xdel c key id)
  | (c, .xtrim key maxlen) => reply (fun removed : Nat => .int removed) (e.xtrim c key maxlen)
  | (c, .jsonset key path json) => reply .bool (e.jsonset c key path json)
  | (c, .jsonget key path) => reply .bytesOption (e.jsonget c key path)
  | (_, .jsondel key path) => reply .bool (e.jsondel key path)
  | (c, .vecadd key id vec) => reply .bool (e.vecadd c key id vec)
  | (c, .vecget key id) => reply .vector (e.vecget c key id)
  | (c, .vecdel key id) => reply .bool (e.vecdel c key id)
  | (c, .vecsearch key query k) => reply .nearest (e.vecsearch c key query k)
  | (c, .vecsize key) => reply .int (e.vecsize c key)
  | (_, .allEntries) => (.fields e.allEntries, e)
  | (_, .allKeys) => (.members e.allKeys, e)
  | (_, .count) => (.int e.count, e)
  | (c, .memoryUsage) => (.int (e.memoryUsage c), e)
  | (c, .cleanupExpired) => reply .int (e.cleanupExpired c)
  | (_, .setEviction policy) => (.unit, { e with opts := { e.opts with eviction := policy } })
  | (_, .astrakvHgetall key) => reply .bytes (e.astrakvHgetall key)
  | (_, .astrakvSmembers key) => reply .bytes (e.astrakvSmembers key)
  | (_, .astrakvHscan key) => reply .fields (e.astrakvHscan key)
  | (_, .astrakvSscan key) => reply .members (e.astrakvSscan key)

end Engine

/-! ## closed runs -/

/-- Libraries as runs without JSON and vectors see them. -/
def Env.bare : Env where
  memberHash := fun m => UInt64.ofNat (LittleEndian.value m)
  hnsw := ⟨Unit, fun _ => (), fun _ _ _ => some (), fun _ _ => some (), fun _ _ _ => none⟩
  simdjson := ⟨Unit, fun _ => none, fun _ _ => none, fun _ => []⟩
  maxProtected := id

/-- A call at time `now` in which every RocksDB write succeeds. -/
def Call.ofNow (now : Int) : Call :=
  ⟨now, fun _ => true, fun _ => 0, List.length, List.length, fun _ => 0⟩

end AstraKV
