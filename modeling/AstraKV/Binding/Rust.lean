import AstraKV.Binding.CApi

/-!
# AstraKV.Binding.Rust

The Rust binding (`rust/src/lib.rs`): each method calls a function of the C
interface, copies the buffer that it is handed and frees it.

A string is kept as its bytes.

The methods come in few kinds, after how they read the return value: as done
or failed, as a truth value, as a number, as bytes or none, as bytes or an
error. Each kind is one function with its null checks and its `free` in the
order of the source, and each method is that function at its own C call. Which
methods check for null and which do not is part of what is modelled.
-/

namespace AstraKV

open CApi Utf8

/-- `Error`. -/
inductive KvError where
  | notFound
  | ioError (msg : String)
deriving DecidableEq

namespace Kv

variable {E : Env} {α : Type} (A : Allocator) (c : Call)

/-! ## the parts -/

/-- `std::slice::from_raw_parts(p, len).to_vec()`. -/
def fromRawParts (p : Option Nat) (len : Nat) : CM E Bytes := fun s =>
  (s.heap.read p len).map fun bs => (bs, s)

/-- `CStr::from_ptr(p).to_bytes()`. -/
def fromPtr (p : Option Nat) : CM E Bytes := fun s => (s.heap.readCStr p).map fun bs => (bs, s)

def free (p : Option Nat) : CM E Unit := fun s =>
  (s.heap.free p).map fun heap => ((), { s with heap := heap })

/-- A copy of a buffer, which is freed. -/
def takeOver (p : Option Nat) (len : Nat) : CM E Bytes := do
  let v ← fromRawParts p len
  free p
  return v

/-- `ret == 0`. -/
def isZero (call : CM E Int) : CM E Bool := do
  let ret ← call
  return ret == 0

def orError (error : KvError) (call : CM E Int) : CM E (Except KvError Unit) := do
  let ret ← call
  return if ret ≠ 0 then .error error else .ok ()

/-- The out-parameter, 0 before the call; the return value is not looked at. -/
def outOf (call : CM E (Int × Int)) : CM E Int := do
  let (_, n) ← call
  return n

/-- Nothing for a return value other than 0, and for a null pointer where that is looked at. -/
def bytesOrNone (nullCheck : Bool) (call : CM E (Int × Option Nat × Nat)) :
    CM E (Except KvError (Option Bytes)) := do
  let (ret, val, vlen) ← call
  if ret ≠ 0 then return .ok none
  if nullCheck && val.isNone then return .ok none
  let v ← takeOver val vlen
  return .ok (some v)

/-- The bytes of a buffer, none for a null pointer. -/
def bytesOrError (msg : String) (call : CM E (Int × Option Nat × Nat)) :
    CM E (Except KvError Bytes) := do
  let (ret, out, outLen) ← call
  if ret ≠ 0 then return .error (.ioError msg)
  if out.isNone then return .ok []
  let data ← takeOver out outLen
  return .ok data

/-- `parse_zset_entries` on a buffer; no entries for a null pointer. -/
def scoredOrError (msg : String) (call : CM E (Int × Option Nat × Nat)) :
    CM E (Except KvError (List (Bytes × Binary64))) := do
  let (ret, out, outLen) ← call
  if ret ≠ 0 then return .error (.ioError msg)
  if out.isNone then return .ok []
  let buf ← takeOver out outLen
  return .ok (parseZsetEntries buf)

/-! ## byte strings -/

def put (key value : Bytes) : CM E (Except KvError Unit) :=
  orError (.ioError "put failed") (astrakvPut c key value)

def get (key : Bytes) : CM E (Except KvError (Option Bytes)) :=
  bytesOrNone true (astrakvGet A c key)

def delete (key : Bytes) : CM E Bool := isZero (astrakvDel key)

def existsKey (key : Bytes) : CM E Bool := isZero (astrakvExists c key)

/-- `put_str`. -/
def putStr (key value : Bytes) : CM E (Except KvError Unit) := put c key value

/-- `get_str`. -/
def getStr (key : Bytes) : CM E (Except KvError (Option Bytes)) := do
  let v ← get A c key
  return v.map (Option.map fromUtf8Lossy)

/-! ## time to live -/

def expire (key : Bytes) (ms : Int) : CM E (Except KvError Unit) :=
  orError .notFound (astrakvExpire c key ms)

/-- `ttl`, in milliseconds. -/
def ttl (key : Bytes) : CM E (Except KvError (Option Nat)) := do
  let (ret, ms) ← astrakvTtl c key
  return if ret ≠ 0 then .ok none else .ok (some (ms.getD 0 % 2 ^ 64).toNat)

/-! ## sorted sets -/

def zadd (key member : Bytes) (score : Binary64) : CM E (Except KvError Unit) :=
  orError (.ioError "zadd failed") (astrakvZadd c key member score)

def zscore (key member : Bytes) : CM E (Except KvError (Option Binary64)) := do
  let (ret, score) ← astrakvZscore c key member
  return if ret ≠ 0 then .ok none else .ok (some (score.getD ⟨0⟩))

def zrem (key member : Bytes) : CM E Bool := isZero (astrakvZrem c key member)

def zcard (key : Bytes) : CM E Int := outOf (astrakvZcard key)

def zrange (key : Bytes) (start stop : Int) (reverse : Bool) :
    CM E (Except KvError (List (Bytes × Binary64))) :=
  scoredOrError "zrange failed" (astrakvZrange A key start stop (if reverse then 1 else 0))

def zrangebyscore (key : Bytes) (min max : Binary64) :
    CM E (Except KvError (List (Bytes × Binary64))) :=
  scoredOrError "zrangebyscore failed" (astrakvZrangebyscore A key min max)

/-! ## lists -/

def lpush (key value : Bytes) : CM E (Except KvError Unit) :=
  orError (.ioError "lpush failed") (astrakvLpush c key value)

def rpush (key value : Bytes) : CM E (Except KvError Unit) :=
  orError (.ioError "rpush failed") (astrakvRpush c key value)

def lpop (key : Bytes) : CM E (Except KvError (Option Bytes)) :=
  bytesOrNone false (astrakvLpop A c key)

def rpop (key : Bytes) : CM E (Except KvError (Option Bytes)) :=
  bytesOrNone false (astrakvRpop A c key)

def llen (key : Bytes) : CM E Int := outOf (astrakvLlen key)

/-! ## hashes -/

def hset (key field value : Bytes) : CM E (Except KvError Unit) :=
  orError (.ioError "hset failed") (astrakvHset c key field value)

def hget (key field : Bytes) : CM E (Except KvError (Option Bytes)) :=
  bytesOrNone true (astrakvHget A c key field)

def hdel (key field : Bytes) : CM E Bool := isZero (astrakvHdel c key field)

def hexists (key field : Bytes) : CM E Bool := isZero (astrakvHexists c key field)

def hgetall (key : Bytes) : CM E (Except KvError HashEntries) := do
  let buf ← bytesOrError "hgetall failed" (astrakvHgetall A key)
  return buf.map HashEntries.mk

def hlen (key : Bytes) : CM E Int := outOf (astrakvHlen key)

def hincrby (key field : Bytes) (delta : Int) : CM E (Except KvError Int) := do
  let (ret, result) ← astrakvHincrby c key field delta
  return if ret ≠ 0 then .error (.ioError "hincrby failed") else .ok (result.getD 0)

/-! ## sets -/

def sadd (key member : Bytes) : CM E (Except KvError Unit) :=
  orError (.ioError "sadd failed") (astrakvSadd c key member)

def srem (key member : Bytes) : CM E Bool := isZero (astrakvSrem c key member)

def sismember (key member : Bytes) : CM E Bool := isZero (astrakvSismember c key member)

def smembers (key : Bytes) : CM E (Except KvError SetMembers) := do
  let buf ← bytesOrError "smembers failed" (astrakvSmembers A key)
  return buf.map SetMembers.mk

def scard (key : Bytes) : CM E Int := outOf (astrakvScard key)

/-! ## streams -/

def xadd (key id fields : Bytes) : CM E (Except KvError Bytes) := do
  let (ret, idOut) ← astrakvXadd A c key id fields
  if ret ≠ 0 then return .error (.ioError "xadd failed")
  let s ← fromPtr idOut
  free idOut
  return .ok (fromUtf8Lossy s)

def xread (key startId : Bytes) (count : Int) : CM E (Except KvError Bytes) :=
  bytesOrError "xread failed" (astrakvXread A c key startId count)

def xlen (key : Bytes) : CM E Int := outOf (astrakvXlen c key)

/-! ## JSON and vectors -/

def jsonset (key path jsonVal : Bytes) : CM E (Except KvError Unit) :=
  orError (.ioError "jsonset failed") (astrakvJsonset c key path jsonVal)

def jsonget (key path : Bytes) : CM E (Except KvError (Option Bytes)) :=
  bytesOrNone true (astrakvJsonget A c key path)

def vecadd (key id : Bytes) (vec : List Binary32) : CM E (Except KvError Unit) :=
  orError (.ioError "vecadd failed") (astrakvVecadd c key id vec)

def vecsearch (key : Bytes) (query : List Binary32) (k : Nat) : CM E (Except KvError Bytes) :=
  bytesOrError "vecsearch failed" (astrakvVecsearch A c key query k)

/-! ## statistics and iterators -/

def count : CM E Int := astrakvCount

def memoryUsage : CM E Int := astrakvMemoryUsage c

def iter : CM E Nat := astrakvIterCreate

/-- `Iter::next`. -/
def next (it : Nat) : CM E (Option (Bytes × Bytes)) := do
  let (ret, (key, klen), val, vlen) ← astrakvIterNext A it
  if ret ≠ 0 then return none
  let k ← fromRawParts key klen
  let v ← fromRawParts val vlen
  free key
  free val
  return some (k, v)

/-- `drop` of an `Iter`. -/
def dropIter (it : Nat) : CM E Unit := astrakvIterDestroy it

end Kv

end AstraKV
