import AstraKV.Engine.StreamBuffer
import AstraKV.Engine.ZsetBuffer
import AstraKV.Engine.Step
import AstraKV.Lib.CHeap

/-!
# AstraKV.Binding.CApi

The C interface (`kv_impl.cpp`) as the Rust binding calls it: what its
functions return, and the buffers that they allocate for their callers.

A function gives its return value and what its out-pointers hold afterwards.
The callers set the pointers to null and the lengths to 0 before the call, and
so they are where nothing is written.

Where `malloc` is checked, a refused request makes the function return -1 and
leave its out-pointers alone; where it is not checked, a refused request has
no result, since the code would write through a null pointer. The buffers are
filled by the same cursors as in the source, one field after the other, so
that their sizes and their contents are separate computations that have to
agree. Functions that only pass a number or a status on are written as such.
-/

namespace AstraKV

open LittleEndian Filling

/-- `astrakv_iter_t`. -/
structure AstrakvIter where
  entries : List (Bytes × Bytes)
  pos : Nat

/-- The engine behind the handle, the heap that the library and its callers share, and the iterators
that are alive. -/
structure CState (E : Env) where
  engine : Engine E
  heap : CHeap
  iters : Dict Nat AstrakvIter
  /-- The number of iterators made so far; their addresses. -/
  made : Nat

/-- Code that works on the state, with no result where it does what C leaves undefined. -/
abbrev CM (E : Env) (α : Type) : Type := StateT (CState E) Option α

namespace CApi

variable {E : Env} {α : Type} (A : Allocator) (c : Call)

/-! ## the parts -/

/-- An operation of the engine. -/
def onEngine (f : Engine E → α × Engine E) : CM E α := fun s =>
  let res := f s.engine
  some (res.1, { s with engine := res.2 })

/-- An operation that may dereference a node that is not there. -/
def onEngineUnsafe (f : Engine E → Option α × Engine E) : CM E α := fun s =>
  let res := f s.engine
  res.1.map fun a => (a, { s with engine := res.2 })

def malloc (size : Nat) : CM E (Option Nat) := fun s =>
  let res := s.heap.malloc A size
  some (res.1, { s with heap := res.2 })

def fill (p : Option Nat) (write : Filling → Option Filling) : CM E Unit := fun s =>
  (s.heap.fill p write).map fun heap => ((), { s with heap := heap })

/-- `f(...) ? 0 : -1`. -/
def status (f : Engine E → Bool × Engine E) : CM E Int := do
  let ok ← onEngine f
  return if ok then 0 else -1

/-- -1 without a value. -/
def scalar (f : Engine E → Option α × Engine E) : CM E (Int × Option α) := do
  let v ← onEngine f
  return (if v.isSome then 0 else -1, v)

def total (f : Engine E → Int × Engine E) : CM E (Int × Int) := do
  let n ← onEngine f
  return (0, n)

/-- A buffer of `size` bytes for the caller, `len` in the out-parameter for the length. -/
def handOut (size len : Nat) (write : Filling → Option Filling) :
    CM E (Int × Option Nat × Nat) := do
  let p ← malloc A size
  if p.isNone then return (-1, none, len)
  fill p write
  return (0, p, len)

/-- A copy of a byte string, with `tail` behind it. -/
def copyOut (tail : Bytes) (f : Engine E → Option Bytes × Engine E) :
    CM E (Int × Option Nat × Nat) := do
  match ← onEngine f with
  | none => return (-1, none, 0)
  | some v =>
      handOut A (v.length + tail.length) v.length fun w => memcpy v w >>= memcpy tail

/-- A buffer with all `entries`, a null pointer for none. -/
def packOut (size : List α → Nat) (write : List α → Filling → Option Filling)
    (entries : List α) : CM E (Int × Option Nat × Nat) := do
  if entries.isEmpty then return (0, none, 0)
  handOut A (size entries) (size entries) (write entries)

/-! ## byte strings -/

def astrakvPut (key val : Bytes) : CM E Int := status fun e => e.put c key val

def astrakvGet (key : Bytes) : CM E (Int × Option Nat × Nat) := copyOut A [] fun e => e.get c key

def astrakvDel (key : Bytes) : CM E Int := status fun e => e.del key

def astrakvExists (key : Bytes) : CM E Int := status fun e => e.existsKey c key

/-! ## time to live -/

def astrakvExpire (key : Bytes) (ms : Int) : CM E Int := status fun e => e.expire c key ms

def astrakvTtl (key : Bytes) : CM E (Int × Option Int) := scalar fun e => e.ttl c key

/-! ## sorted sets -/

def astrakvZadd (key member : Bytes) (score : Binary64) : CM E Int :=
  status fun e => e.zadd c key member score

def astrakvZscore (key member : Bytes) : CM E (Int × Option Binary64) :=
  scalar fun e => e.zscore c key member

def astrakvZrem (key member : Bytes) : CM E Int := status fun e => e.zrem c key member

def astrakvZcard (key : Bytes) : CM E (Int × Int) := total fun e => e.zcard key

def writeScored (entry : Bytes × Binary64) (w : Filling) : Option Filling :=
  copyBytes entry.1 w >>= memcpy (put 8 entry.2.bits.toNat)

def astrakvZrange (key : Bytes) (start stop : Int) (reverse : Int) :
    CM E (Int × Option Nat × Nat) := do
  let entries ← onEngineUnsafe fun e => e.zrange key start stop (reverse ≠ 0)
  packOut A packedSize (copyEach writeScored) entries

def astrakvZrangebyscore (key : Bytes) (min max : Binary64) : CM E (Int × Option Nat × Nat) := do
  let entries ← onEngineUnsafe fun e => e.zrangebyscore key min max
  packOut A packedSize (copyEach writeScored) entries

/-! ## lists -/

def astrakvLpush (key val : Bytes) : CM E Int := status fun e => e.lpush c key val

def astrakvRpush (key val : Bytes) : CM E Int := status fun e => e.rpush c key val

def astrakvLpop (key : Bytes) : CM E (Int × Option Nat × Nat) := copyOut A [] fun e => e.lpop c key

def astrakvRpop (key : Bytes) : CM E (Int × Option Nat × Nat) := copyOut A [] fun e => e.rpop c key

def astrakvLlen (key : Bytes) : CM E (Int × Int) := total fun e => e.llen key

/-! ## hashes -/

def astrakvHset (key field val : Bytes) : CM E Int := status fun e => e.hset c key field val

def astrakvHget (key field : Bytes) : CM E (Int × Option Nat × Nat) :=
  copyOut A [] fun e => e.hget c key field

def astrakvHdel (key field : Bytes) : CM E Int := status fun e => e.hdel c key field

def astrakvHexists (key field : Bytes) : CM E Int := status fun e => e.hexists c key field

def astrakvHgetall (key : Bytes) : CM E (Int × Option Nat × Nat) := do
  let buf ← onEngine fun e => e.astrakvHgetall key
  packOut A List.length memcpy buf

def astrakvHlen (key : Bytes) : CM E (Int × Int) := total fun e => e.hlen key

def astrakvHincrby (key field : Bytes) (delta : Int) : CM E (Int × Option Int) :=
  scalar fun e => e.hincrby c key field delta

/-- `astrakv_hscan` with a callback or without one; the calls of the callback. -/
def astrakvHscan (key : Bytes) (cb : Bool) : CM E (Int × List (Bytes × Bytes)) := do
  if !cb then return (-1, [])
  let calls ← onEngine fun e => e.astrakvHscan key
  return (0, calls)

/-! ## sets -/

def astrakvSadd (key member : Bytes) : CM E Int := status fun e => e.sadd c key member

def astrakvSrem (key member : Bytes) : CM E Int := status fun e => e.srem c key member

def astrakvSismember (key member : Bytes) : CM E Int := status fun e => e.sismember c key member

def astrakvSmembers (key : Bytes) : CM E (Int × Option Nat × Nat) := do
  let buf ← onEngine fun e => e.astrakvSmembers key
  packOut A List.length memcpy buf

def astrakvScard (key : Bytes) : CM E (Int × Int) := total fun e => e.scard key

def astrakvSscan (key : Bytes) (cb : Bool) : CM E (Int × List Bytes) := do
  if !cb then return (-1, [])
  let calls ← onEngine fun e => e.astrakvSscan key
  return (0, calls)

/-! ## streams -/

/-- `astrakv_xadd`: the out-parameter is a C string. -/
def astrakvXadd (key id fields : Bytes) : CM E (Int × Option Nat) := do
  let fvec ← decodeFields fields
  let resultId ← onEngine fun e => e.xadd c key id fvec
  if resultId.isEmpty then return (-1, none)
  let (ret, p, _) ← handOut A (resultId.length + 1) 0 fun w => memcpy resultId w >>= memcpy [0]
  return (ret, p)

def astrakvXread (key startId : Bytes) (count : Int) : CM E (Int × Option Nat × Nat) := do
  let entries ← onEngine fun e => e.xread c key startId count
  packOut A streamBufferSize writeEntries entries

def astrakvXrange (key startId endId : Bytes) (count : Int) : CM E (Int × Option Nat × Nat) := do
  let entries ← onEngine fun e => e.xrange c key startId endId count
  packOut A streamBufferSize writeEntries entries

def astrakvXlen (key : Bytes) : CM E (Int × Int) := total fun e => e.xlen c key

/-! ## JSON -/

def astrakvJsonset (key path jsonVal : Bytes) : CM E Int :=
  status fun e => e.jsonset c key path jsonVal

def astrakvJsonget (key path : Bytes) : CM E (Int × Option Nat × Nat) :=
  copyOut A [0] fun e => e.jsonget c key path

/-! ## vectors -/

def astrakvVecadd (key id : Bytes) (vec : List Binary32) : CM E Int :=
  status fun e => e.vecadd c key id vec

/-- The size pass of `astrakv_vecsearch`. -/
def nearestSize (results : List (Bytes × Binary32)) : Nat :=
  4 + (results.map fun result => 4 + result.1.length + 4).sum

def writeNearest (result : Bytes × Binary32) (w : Filling) : Option Filling :=
  copyBytes result.1 w >>= memcpy (put 4 result.2.bits.toNat)

/-- The write pass of `astrakv_vecsearch`. -/
def writeResults (results : List (Bytes × Binary32)) (w : Filling) : Option Filling :=
  memcpy (put 4 results.length) w >>= copyEach writeNearest results

def astrakvVecsearch (key : Bytes) (query : List Binary32) (k : Nat) :
    CM E (Int × Option Nat × Nat) := do
  let results ← onEngine fun e => e.vecsearch c key query k
  packOut A nearestSize writeResults results

/-! ## iterators -/

def astrakvIterCreate : CM E Nat := fun s =>
  let it : AstrakvIter := ⟨s.engine.allEntries, 0⟩
  some (s.made, { s with iters := s.iters.insert s.made it, made := s.made + 1 })

/-- A copy of `bs` for the caller, made without a look at what `malloc` returned. -/
def copyUnchecked (bs : Bytes) : CM E (Option Nat) := do
  let p ← malloc A bs.length
  fill p (memcpy bs)
  return p

/-- `it->entries[it->pos++]`, if there is one. -/
def advance (it : Nat) : CM E (Option (Bytes × Bytes)) := fun s => do
  let iter ← s.iters.lookup it
  match iter.entries[iter.pos]? with
  | none => some (none, s)
  | some entry =>
      some (some entry, { s with iters := s.iters.insert it ⟨iter.entries, iter.pos + 1⟩ })

def astrakvIterNext (it : Nat) : CM E (Int × (Option Nat × Nat) × Option Nat × Nat) := do
  match ← advance it with
  | none => return (-1, (none, 0), none, 0)
  | some (k, v) =>
      let key ← copyUnchecked A k
      let val ← copyUnchecked A v
      return (0, (key, k.length), val, v.length)

def astrakvIterDestroy (it : Nat) : CM E Unit := fun s => do
  let _ ← s.iters.lookup it
  some ((), { s with iters := s.iters.erase it })

/-! ## statistics -/

def astrakvCount : CM E Int := onEngine fun e => (e.count, e)

def astrakvMemoryUsage : CM E Int := onEngine fun e => (e.memoryUsage c, e)

end CApi

end AstraKV
