import AstraKV.Data.Eviction2Q
import AstraKV.Data.Metadata
import AstraKV.Engine.Codec

/-!
# AstraKV.Engine.State

The state of the engine (`Engine` of `engine.cpp`): eight maps, one for each
type of value, the metadata, the 2Q tracker and the RocksDB records, and the
helpers that move values between the maps and the records.

The third-party libraries are parameters (`Env`), and so is what a call finds
in its surroundings (`Call`): one reading of the clock, the outcome of the
RocksDB writes, random numbers, the capacities of containers.

The maps are association lists without duplicates: nothing in the source
depends on their order except the listings, whose order is that of a hash
table and is never promised. A value in a map is shared by pointer in the
source and a plain value here; where pointers matter, because two clients hold
one, they are modelled on their own (`AstraKV.Engine.FirstWrite`).
`SameContents` is what two values of one type have in common when their tables
are listed differently.
-/

namespace AstraKV

/-- `simdjson::dom` as far as it is used. -/
structure SimdJson where
  Doc : Type
  parse : Bytes → Option Doc
  atPointer : Doc → Bytes → Option Doc
  toString : Doc → Bytes

/-- The code outside the repository, and the bound of the 2Q tracker. -/
structure Env where
  memberHash : Bytes → UInt64
  hnsw : Hnsw
  simdjson : SimdJson
  maxProtected : Nat → Nat

/-- What one call reads from outside: `putOk 0` is the outcome of its own RocksDB write,
`putOk (i + 1)` that of round `i` of an eviction; `beyond` is the memory behind a record. -/
structure Call where
  now : Int
  putOk : Nat → Bool
  rand : Nat → Nat
  stringCapacity : Bytes → Nat
  listCapacity : List Bytes → Nat
  beyond : Nat → UInt8

inductive EvictionPolicy where
  | kNoEviction
  | kAllKeysLRU
  | kVolatileLRU
  | kAllKeysLFU
  | kVolatileLFU
  | kAllKeysRandom
  | kVolatileRandom
  | kVolatileTTL
  | k2Q
deriving DecidableEq

/-- `Engine::Options` but for the number of shards; `max_mb` is a `size_t`. -/
structure Options where
  path : Bytes
  maxMb : UInt64
  eviction : EvictionPolicy

/-- The values a map holds.  There is no map for `kNone`. -/
abbrev Value (E : Env) : KeyType → Type
  | .kNone => Empty
  | .kBytes => Bytes
  | .kZSet => ZSetBPlus Bytes
  | .kList => LinkedList Bytes
  | .kHash => Dict Bytes Bytes
  | .kSet => Dict Bytes UInt8
  | .kStream => StreamData
  | .kJson => Bytes
  | .kVector => VectorData E.hnsw

structure Engine (E : Env) where
  opts : Options
  eviction2q : Eviction2Q
  putCount : Int
  getCount : Int
  hits : Int
  misses : Int
  evicted : Int
  expired : Int
  /-- `bytes_`, `zsets_`, `lists_`, `hashes_`, `sets_`, `streams_`, `jsons_`, `vectors_`. -/
  data : (t : KeyType) → Dict Bytes (Value E t)
  metas : KeyMetadataManager
  /-- Absent without a path, and when the database does not open. -/
  rocksdb : Option (Dict Bytes Bytes)

namespace Engine

variable {E : Env}

/-- A new engine over the records found at its path, if the database there opens. -/
def new (E : Env) (opts : Options) (stored : Option (Dict Bytes Bytes)) : Engine E :=
  ⟨opts, .empty, 0, 0, 0, 0, 0, 0, fun _ => ∅, ∅, if opts.path = [] then none else stored⟩

/-! ## maps and records -/

/-- The value of type `t` under `key`. -/
def find (e : Engine E) (t : KeyType) (key : Bytes) : Option (Value E t) := (e.data t).lookup key

/-- `Insert` into the map of type `t`. -/
def insert (e : Engine E) (t : KeyType) (key : Bytes) (v : Value E t) : Engine E :=
  { e with data := Function.update e.data t ((e.data t).insert key v) }

/-- `Remove` from the map of type `t`. -/
def remove (e : Engine E) (t : KeyType) (key : Bytes) : Engine E :=
  { e with data := Function.update e.data t ((e.data t).erase key) }

/-- `Remove` from all eight maps. -/
def removeAll (e : Engine E) (key : Bytes) : Engine E :=
  { e with data := fun t => (e.data t).erase key }

def registerKey (e : Engine E) (key : Bytes) (t : KeyType) : Engine E :=
  { e with metas := e.metas.registerKey key t }

def unregisterKey (e : Engine E) (key : Bytes) : Engine E :=
  { e with metas := e.metas.unregisterKey key }

/-- `IsValid`, with what it forgets. -/
def isValid (e : Engine E) (now : Int) (key : Bytes) : Bool × Engine E :=
  let res := e.metas.isValid now key
  (res.1, { e with metas := res.2 })

def rocksGet (e : Engine E) (key : Bytes) : Option Bytes := e.rocksdb.bind fun db => db.lookup key

/-- `Put`: a write that fails stores nothing, and nobody looks at the outcome. -/
def rocksPut (e : Engine E) (ok : Bool) (key record : Bytes) : Engine E :=
  if ok then { e with rocksdb := e.rocksdb.map fun db => db.insert key record } else e

/-- `Delete`, which is taken to succeed. -/
def rocksDelete (e : Engine E) (key : Bytes) : Engine E :=
  { e with rocksdb := e.rocksdb.map fun db => db.erase key }

/-! ## persistence helpers -/

/-- The record of a value. -/
def serialize : (t : KeyType) → Value E t → Bytes
  | .kBytes, bytes => bytes
  | .kZSet, zs => serializeZset zs
  | .kList, lst => serializeList lst
  | .kHash, h => serializeHash h
  | .kSet, s => serializeSet s
  | .kStream, s => serializeStream s
  | .kJson, j => j
  | .kVector, v => serializeVector v

/-- The same contents: it does not matter in which order a map lists its entries. -/
def SameContents : (t : KeyType) → Value E t → Value E t → Prop
  | .kZSet, zs, zs' => ∀ m, zs.getScore m = zs'.getScore m
  | .kList, lst, lst' => lst.items = lst'.items
  | .kHash, h, h' => ∀ f, h.lookup f = h'.lookup f
  | .kSet, s, s' => ∀ m, (s.lookup m).isSome = (s'.lookup m).isSome
  | _, v, v' => v = v'

/-- A value has its own contents. -/
theorem SameContents.refl (t : KeyType) (v : Value E t) : SameContents t v v := by
  cases t <;> simp [SameContents]

/-- `persist_*`. -/
def persist (e : Engine E) (ok : Bool) (t : KeyType) (key : Bytes) (v : Value E t) : Engine E :=
  e.rocksPut ok key (serialize t v)

/-- `load_*`: read the record of `key`, if there is one, into the container `x`. -/
def load {β : Type} (e : Engine E) (key : Bytes) (deserialize : Bytes → β → Bool × β) (x : β) :
    Bool × β :=
  match e.rocksGet key with
  | none => (false, x)
  | some data => deserialize data x

def loadZset (e : Engine E) : Bytes → ZSetBPlus Bytes → Bool × ZSetBPlus Bytes :=
  fun key => e.load key (deserializeZset E.memberHash)

def loadList (e : Engine E) : Bytes → LinkedList Bytes → Bool × LinkedList Bytes :=
  fun key => e.load key deserializeList

def loadHash (e : Engine E) : Bytes → Dict Bytes Bytes → Bool × Dict Bytes Bytes :=
  fun key => e.load key deserializeHash

def loadSet (e : Engine E) : Bytes → Dict Bytes UInt8 → Bool × Dict Bytes UInt8 :=
  fun key => e.load key deserializeSet

def loadStream (e : Engine E) (now : Int) : Bytes → StreamData → Bool × StreamData :=
  fun key => e.load key (deserializeStream now)

def loadJson (e : Engine E) : Bytes → Bytes → Bool × Bytes :=
  fun key => e.load key fun data _ => (true, data)

def loadVector (e : Engine E) (beyond : Nat → UInt8) :
    Bytes → VectorData E.hnsw → Bool × VectorData E.hnsw :=
  fun key => e.load key (deserializeVector beyond)

/-- `get_or_create_*`: the value in the map, else the one `load` finds, which goes into the map. -/
def getOrCreate (e : Engine E) (t : KeyType) (key : Bytes) (load : Bool × Value E t) :
    Option (Value E t) × Engine E :=
  match e.find t key with
  | some v => (some v, e)
  | none =>
      if load.1 then (some load.2, (e.insert t key load.2).registerKey key t) else (none, e)

def getOrCreateZset (e : Engine E) (key : Bytes) : Option (ZSetBPlus Bytes) × Engine E :=
  e.getOrCreate .kZSet key (e.loadZset key .empty)

def getOrCreateList (e : Engine E) (key : Bytes) : Option (LinkedList Bytes) × Engine E :=
  e.getOrCreate .kList key (e.loadList key .empty)

def getOrCreateHash (e : Engine E) (key : Bytes) : Option (Dict Bytes Bytes) × Engine E :=
  e.getOrCreate .kHash key (e.loadHash key ∅)

def getOrCreateSet (e : Engine E) (key : Bytes) : Option (Dict Bytes UInt8) × Engine E :=
  e.getOrCreate .kSet key (e.loadSet key ∅)

def getOrCreateStream (e : Engine E) (now : Int) (key : Bytes) : Option StreamData × Engine E :=
  e.getOrCreate .kStream key (e.loadStream now key .empty)

def getOrCreateJson (e : Engine E) (key : Bytes) : Option Bytes × Engine E :=
  e.getOrCreate .kJson key (e.loadJson key [])

/-- A vector loaded from its record has the dimension of the caller, not of the record. -/
def getOrCreateVector (e : Engine E) (beyond : Nat → UInt8) (key : Bytes) (dim : Nat) :
    Option (VectorData E.hnsw) × Engine E :=
  e.getOrCreate .kVector key (e.loadVector beyond key (.new E.hnsw dim))

/-! ## access -/

def recordAccess (e : Engine E) (now : Int) (key : Bytes) : Engine E :=
  let e := { e with metas := (e.metas.updateAccessInfo now key).2 }
  if e.opts.eviction = .k2Q then
    { e with eviction2q := e.eviction2q.recordAccess E.maxProtected key }
  else e

end Engine

end AstraKV
