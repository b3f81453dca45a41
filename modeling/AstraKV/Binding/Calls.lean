import AstraKV.Binding.Rust

/-!
# AstraKV.Binding.Calls

The calls of the Rust binding, as they are made through the C interface and
its heap, and as they would be without: the engine answers, and all that is
seen of the heap is that a request for a buffer may be refused.

`KvCall` has one constructor for each method of the binding, and two functions
run it: `Kv.call` through the C interface, with a heap of blocks, and
`Bound.answer` without. The second is the specification: its replies are
computed from the engine's answer alone, and where a buffer would be needed
the reply depends on whether the next request is given. Nothing is proved
here.
-/

namespace AstraKV

open CApi Utf8 Machine

variable {E : Env} {α β : Type}

inductive KvCall where
  | put (key value : Bytes)
  | get (key : Bytes)
  | delete (key : Bytes)
  | existsKey (key : Bytes)
  | putStr (key value : Bytes)
  | getStr (key : Bytes)
  | expire (key : Bytes) (ms : Int)
  | ttl (key : Bytes)
  | zadd (key member : Bytes) (score : Binary64)
  | zscore (key member : Bytes)
  | zrem (key member : Bytes)
  | zcard (key : Bytes)
  | zrange (key : Bytes) (start stop : Int) (reverse : Bool)
  | zrangebyscore (key : Bytes) (min max : Binary64)
  | lpush (key value : Bytes)
  | rpush (key value : Bytes)
  | lpop (key : Bytes)
  | rpop (key : Bytes)
  | llen (key : Bytes)
  | hset (key field value : Bytes)
  | hget (key field : Bytes)
  | hdel (key field : Bytes)
  | hexists (key field : Bytes)
  | hgetall (key : Bytes)
  | hlen (key : Bytes)
  | hincrby (key field : Bytes) (delta : Int)
  | sadd (key member : Bytes)
  | srem (key member : Bytes)
  | sismember (key member : Bytes)
  | smembers (key : Bytes)
  | scard (key : Bytes)
  | xadd (key id fields : Bytes)
  | xread (key startId : Bytes) (count : Int)
  | xlen (key : Bytes)
  | jsonset (key path jsonVal : Bytes)
  | jsonget (key path : Bytes)
  | vecadd (key id : Bytes) (vec : List Binary32)
  | vecsearch (key : Bytes) (query : List Binary32) (k : Nat)
  | count
  | memoryUsage
  | iter
  | next (it : Nat)
  | dropIter (it : Nat)

deriving instance DecidableEq for HashEntries, SetMembers

inductive KvReply where
  | done (res : Except KvError Unit)
  | bytes (res : Except KvError (Option Bytes))
  | bool (b : Bool)
  | int (n : Int)
  | duration (res : Except KvError (Option Nat))
  | score (res : Except KvError (Option Binary64))
  | scored (res : Except KvError (List (Bytes × Binary64)))
  | hash (res : Except KvError HashEntries)
  | set (res : Except KvError SetMembers)
  | number (res : Except KvError Int)
  | buffer (res : Except KvError Bytes)
  | handle (it : Nat)
  | item (entry : Option (Bytes × Bytes))
  | unit
deriving DecidableEq

/-! ## through the C interface -/

namespace Kv

variable (A : Allocator) (c : Call)

def call : KvCall → CM E KvReply
  | .put key value => .done <$> put c key value
  | .get key => .bytes <$> get A c key
  | .delete key => .bool <$> delete key
  | .existsKey key => .bool <$> existsKey c key
  | .putStr key value => .done <$> putStr c key value
  | .getStr key => .bytes <$> getStr A c key
  | .expire key ms => .done <$> expire c key ms
  | .ttl key => .duration <$> ttl c key
  | .zadd key member score => .done <$> zadd c key member score
  | .zscore key member => .score <$> zscore c key member
  | .zrem key member => .bool <$> zrem c key member
  | .zcard key => .int <$> zcard key
  | .zrange key start stop reverse => .scored <$> zrange A key start stop reverse
  | .zrangebyscore key min max => .scored <$> zrangebyscore A key min max
  | .lpush key value => .done <$> lpush c key value
  | .rpush key value => .done <$> rpush c key value
  | .lpop key => .bytes <$> lpop A c key
  | .rpop key => .bytes <$> rpop A c key
  | .llen key => .int <$> llen key
  | .hset key field value => .done <$> hset c key field value
  | .hget key field => .bytes <$> hget A c key field
  | .hdel key field => .bool <$> hdel c key field
  | .hexists key field => .bool <$> hexists c key field
  | .hgetall key => .hash <$> hgetall A key
  | .hlen key => .int <$> hlen key
  | .hincrby key field delta => .number <$> hincrby c key field delta
  | .sadd key member => .done <$> sadd c key member
  | .srem key member => .bool <$> srem c key member
  | .sismember key member => .bool <$> sismember c key member
  | .smembers key => .set <$> smembers A key
  | .scard key => .int <$> scard key
  | .xadd key id fields => .buffer <$> xadd A c key id fields
  | .xread key startId count => .buffer <$> xread A c key startId count
  | .xlen key => .int <$> xlen c key
  | .jsonset key path jsonVal => .done <$> jsonset c key path jsonVal
  | .jsonget key path => .bytes <$> jsonget A c key path
  | .vecadd key id vec => .done <$> vecadd c key id vec
  | .vecsearch key query k => .buffer <$> vecsearch A c key query k
  | .count => .int <$> count
  | .memoryUsage => .int <$> memoryUsage c
  | .iter => .handle <$> iter
  | .next it => .item <$> next A it
  | .dropIter it => (fun _ => .unit) <$> dropIter it

/-- A call made in a state; nothing after a call that does what C or Rust leaves undefined. -/
def step (s : Option (CState E)) (i : Call × KvCall) : Option KvReply × Option (CState E) :=
  match s.bind (call A i.1 i.2) with
  | none => (none, none)
  | some (reply, s') => (some reply, some s')

end Kv

/-! ## without it -/

/-- The engine, the number of buffers asked for, and what the iterators have before them. -/
structure Bound (E : Env) where
  engine : Engine E
  requests : Nat
  iters : Dict Nat (List (Bytes × Bytes))
  made : Nat

namespace Bound

variable (A : Allocator) (c : Call) (t : Bound E)

def ask (f : Engine E → α × Engine E) (wrap : α → KvReply) : KvReply × Bound E :=
  let res := f t.engine
  (wrap res.1, { t with engine := res.2 })

/-- An answer that takes a buffer of the size given, if any; when there is none to be had, the
operation is done all the same. -/
def askBuffer (f : Engine E → α × Engine E) (size : α → Option Nat) (wrap : α → KvReply)
    (refused : KvReply) : KvReply × Bound E :=
  let res := f t.engine
  match size res.1 with
  | none => (wrap res.1, { t with engine := res.2 })
  | some n =>
      (if A.gives t.requests n then wrap res.1 else refused,
        { t with engine := res.2, requests := t.requests + 1 })

def done (error : KvError) (ok : Bool) : KvReply := .done (if ok then .ok () else .error error)

/-- The size of a buffer for some elements; none is needed for no elements. -/
def sizeOf (size : List α → Nat) (as : List α) : Option Nat :=
  if as.isEmpty then none else some (size as)

def scored (entries : Option (List (Bytes × Binary64))) : KvReply :=
  .scored (.ok ((entries.getD []).map fun entry => (fromUtf8Lossy entry.1, entry.2)))

/-- The format that `kv.h` gives for the entries of a stream, and nothing for none. -/
def streamBytes (entries : List StreamEntry) : Bytes :=
  if entries.isEmpty then [] else LittleEndian.put 4 entries.length ++ entries.flatMap putEntry

def putNearest (result : Bytes × Binary32) : Bytes :=
  Framed.putBytes result.1 ++ LittleEndian.put 4 result.2.bits.toNat

/-- The format that `kv.h` gives for the results of a search. -/
def nearestBytes (results : List (Bytes × Binary32)) : Bytes :=
  if results.isEmpty then [] else LittleEndian.put 4 results.length ++ results.flatMap putNearest

/-- The string made of an ID, which ends at its first zero byte. -/
def text (id : Bytes) : KvReply :=
  .buffer (if id.isEmpty then .error (.ioError "xadd failed")
    else .ok (fromUtf8Lossy (id.takeWhile (· ≠ 0))))

/-- An iterator over the byte strings that there are now. -/
def iter : KvReply × Bound E :=
  (.handle t.made,
    { t with iters := t.iters.insert t.made t.engine.allEntries, made := t.made + 1 })

def next (it : Nat) : KvReply × Bound E :=
  match t.iters.lookup it with
  | some (entry :: rest) =>
      (.item (some entry),
        { t with iters := t.iters.insert it rest, requests := t.requests + 2 })
  | some [] | none => (.item none, t)

def dropIter (it : Nat) : KvReply × Bound E := (.unit, { t with iters := t.iters.erase it })

def answer : KvCall → KvReply × Bound E
  | .put key value | .putStr key value =>
      t.ask (·.put c key value) (done (.ioError "put failed"))
  | .get key =>
      t.askBuffer A (·.get c key) (Option.map List.length) (.bytes <| .ok ·) (.bytes (.ok none))
  | .getStr key =>
      t.askBuffer A (·.get c key) (Option.map List.length)
        (fun v => .bytes (.ok (v.map fromUtf8Lossy))) (.bytes (.ok none))
  | .delete key => t.ask (·.del key) .bool
  | .existsKey key => t.ask (·.existsKey c key) .bool
  | .expire key ms => t.ask (·.expire c key ms) (done .notFound)
  | .ttl key =>
      t.ask (·.ttl c key) fun ms => .duration (.ok (ms.map fun ms => (ms % 2 ^ 64).toNat))
  | .zadd key member score => t.ask (·.zadd c key member score) (done (.ioError "zadd failed"))
  | .zscore key member => t.ask (·.zscore c key member) (.score <| .ok ·)
  | .zrem key member => t.ask (·.zrem c key member) .bool
  | .zcard key => t.ask (·.zcard key) .int
  | .zrange key start stop reverse =>
      t.askBuffer A (·.zrange key start stop reverse) (fun r => sizeOf packedSize (r.getD []))
        scored (.scored (.error (.ioError "zrange failed")))
  | .zrangebyscore key min max =>
      t.askBuffer A (·.zrangebyscore key min max) (fun r => sizeOf packedSize (r.getD [])) scored
        (.scored (.error (.ioError "zrangebyscore failed")))
  | .lpush key value => t.ask (·.lpush c key value) (done (.ioError "lpush failed"))
  | .rpush key value => t.ask (·.rpush c key value) (done (.ioError "rpush failed"))
  | .lpop key =>
      t.askBuffer A (·.lpop c key) (Option.map List.length) (.bytes <| .ok ·) (.bytes (.ok none))
  | .rpop key =>
      t.askBuffer A (·.rpop c key) (Option.map List.length) (.bytes <| .ok ·) (.bytes (.ok none))
  | .llen key => t.ask (·.llen key) .int
  | .hset key field value => t.ask (·.hset c key field value) (done (.ioError "hset failed"))
  | .hget key field =>
      t.askBuffer A (·.hget c key field) (Option.map List.length) (.bytes <| .ok ·)
        (.bytes (.ok none))
  | .hdel key field => t.ask (·.hdel c key field) .bool
  | .hexists key field => t.ask (·.hexists c key field) .bool
  | .hgetall key =>
      t.askBuffer A (·.astrakvHgetall key) (sizeOf List.length) (fun buf => .hash (.ok ⟨buf⟩))
        (.hash (.error (.ioError "hgetall failed")))
  | .hlen key => t.ask (·.hlen key) .int
  | .hincrby key field delta =>
      t.ask (·.hincrby c key field delta) fun n =>
        .number (n.elim (.error (.ioError "hincrby failed")) .ok)
  | .sadd key member => t.ask (·.sadd c key member) (done (.ioError "sadd failed"))
  | .srem key member => t.ask (·.srem c key member) .bool
  | .sismember key member => t.ask (·.sismember c key member) .bool
  | .smembers key =>
      t.askBuffer A (·.astrakvSmembers key) (sizeOf List.length) (fun buf => .set (.ok ⟨buf⟩))
        (.set (.error (.ioError "smembers failed")))
  | .scard key => t.ask (·.scard key) .int
  | .xadd key id fields =>
      t.askBuffer A (·.xadd c key id ((decodeFields fields).getD []))
        (sizeOf fun id => id.length + 1) text (text [])
  | .xread key startId count =>
      t.askBuffer A (·.xread c key startId count) (sizeOf streamBufferSize)
        (fun entries => .buffer (.ok (streamBytes entries)))
        (.buffer (.error (.ioError "xread failed")))
  | .xlen key => t.ask (·.xlen c key) .int
  | .jsonset key path jsonVal =>
      t.ask (·.jsonset c key path jsonVal) (done (.ioError "jsonset failed"))
  | .jsonget key path =>
      t.askBuffer A (·.jsonget c key path) (Option.map fun v => v.length + 1) (.bytes <| .ok ·)
        (.bytes (.ok none))
  | .vecadd key id vec => t.ask (·.vecadd c key id vec) (done (.ioError "vecadd failed"))
  | .vecsearch key query k =>
      t.askBuffer A (·.vecsearch c key query k) (sizeOf nearestSize)
        (fun results => .buffer (.ok (nearestBytes results)))
        (.buffer (.error (.ioError "vecsearch failed")))
  | .count => t.ask (fun e => ((e.count : Int), e)) .int
  | .memoryUsage => t.ask (fun e => (e.memoryUsage c, e)) .int
  | .iter => t.iter
  | .next it => t.next it
  | .dropIter it => t.dropIter it

def step (t : Bound E) (i : Call × KvCall) : Option KvReply × Bound E :=
  let res := t.answer A i.1 i.2
  (some res.1, res.2)

/-- What a call needs: the lengths it packs have 32 bits, no sorted set is walked off its end, an
iterator is alive, and the buffers of `Iter::next`, which no one checks, are there. -/
def Fits (t : Bound E) (i : Call × KvCall) : Prop :=
  match i.2 with
  | .zrange key start stop reverse =>
      ∃ entries, (t.engine.zrange key start stop reverse).1 = some entries ∧
        ∀ entry ∈ entries, entry.1.length < 2 ^ 32
  | .zrangebyscore key min max =>
      ∃ entries, (t.engine.zrangebyscore key min max).1 = some entries ∧
        ∀ entry ∈ entries, entry.1.length < 2 ^ 32
  | .xread key startId count => ∀ entry ∈ (t.engine.xread i.1 key startId count).1, FitsEntry entry
  | .vecsearch key query k =>
      ∀ result ∈ (t.engine.vecsearch i.1 key query k).1, result.1.length < 2 ^ 32
  | .next it =>
      ∃ entries, t.iters.lookup it = some entries ∧
        ∀ entry ∈ entries.head?, A.gives t.requests entry.1.length = true ∧
          A.gives (t.requests + 1) entry.2.length = true
  | .dropIter it => it ∈ t.iters
  | _ => True

end Bound

end AstraKV
