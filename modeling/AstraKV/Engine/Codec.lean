import AstraKV.Data.LinkedList
import AstraKV.Data.StreamData
import AstraKV.Data.VectorData
import AstraKV.Lib.Framed
import AstraKV.ZSet.ZSetBPlus

/-!
# AstraKV.Engine.Codec

The RocksDB records of the container types (`serialize_*` and
`deserialize_*` of `engine.cpp`): counts and lengths as 32-bit little-endian
numbers, every record built in a string sized beforehand.

A record that ends early is refused, but what was read of it so far has gone
into the container.

What is read so far is not thrown away: a decoder returns both whether the
record was complete and the container as far as it got, because one caller
(`hincrby`) uses the second without asking for the first. Lengths are cast to
32 bits on the way out, so a string from 2^32 bytes on would be written with
the wrong length; which values fit is a matter of the round trips
(`AstraKV.Engine.RoundTrip`).
-/

namespace AstraKV

open Framed LittleEndian

/-! ## sorted sets -/

def serializeZset (zs : ZSetBPlus Bytes) : Bytes :=
  let all := zs.getAll
  let total := 4 + (all.map fun entry => 4 + entry.1.length + 8).sum
  resize total
    (put 4 all.length ++ all.flatMap fun entry => putBytes entry.1 ++ put 8 entry.2.bits.toNat)

def zsetItem (data : Bytes) : Option ((Bytes × Binary64) × Bytes) := do
  let (member, rest) ← getBytes? data
  let (score, rest) ← get? 8 rest
  some ((member, ⟨UInt64.ofNat score⟩), rest)

def deserializeZset (hash : Bytes → UInt64) (data : Bytes) (zs : ZSetBPlus Bytes) :
    Bool × ZSetBPlus Bytes :=
  readRecord zsetItem (fun zs entry => (zs.add hash entry.1 entry.2).2) data zs

/-! ## lists -/

def serializeList (lst : LinkedList Bytes) : Bytes :=
  let range := lst.range 0 (-1)
  let total := 4 + (range.map fun item => 4 + item.length).sum
  resize total (put 4 range.length ++ range.flatMap putBytes)

def deserializeList (data : Bytes) (lst : LinkedList Bytes) : Bool × LinkedList Bytes :=
  readRecord getBytes? LinkedList.pushRight data lst

/-! ## hashes -/

def putPair (p : Bytes × Bytes) : Bytes := putBytes p.1 ++ putBytes p.2

def pairItem (data : Bytes) : Option ((Bytes × Bytes) × Bytes) := do
  let (field, rest) ← getBytes? data
  let (value, rest) ← getBytes? rest
  some ((field, value), rest)

def serializeHash (h : Dict Bytes Bytes) : Bytes :=
  let all := h.entries.map fun entry => (entry.1, entry.2)
  let total := 4 + (all.map fun entry => 4 + entry.1.length + 4 + entry.2.length).sum
  resize total (put 4 all.length ++ all.flatMap putPair)

def deserializeHash (data : Bytes) (h : Dict Bytes Bytes) : Bool × Dict Bytes Bytes :=
  readRecord pairItem (fun h entry => h.insert entry.1 entry.2) data h

/-! ## sets -/

def serializeSet (s : Dict Bytes UInt8) : Bytes :=
  let total := 4 + (s.keys.map fun member => 4 + member.length).sum
  resize total (put 4 s.keys.length ++ s.keys.flatMap putBytes)

def deserializeSet (data : Bytes) (s : Dict Bytes UInt8) : Bool × Dict Bytes UInt8 :=
  readRecord getBytes? (fun s member => s.insert member 0) data s

/-! ## streams -/

def putEntry (entry : StreamEntry) : Bytes :=
  putBytes entry.id ++ (put 4 entry.fields.length ++ entry.fields.flatMap putPair)

def serializeStream (s : StreamData) : Bytes :=
  let total := 4 + (s.entries.map fun entry => 4 + entry.id.length + 4 +
    (entry.fields.map fun field => 4 + field.1.length + 4 + field.2.length).sum).sum
  resize total (put 4 s.entries.length ++ s.entries.flatMap putEntry)

def streamItem (data : Bytes) : Option (StreamEntry × Bytes) := do
  let (id, rest) ← getBytes? data
  let (count, rest) ← get? 4 rest
  match readItems pairItem (fun fields field => fields ++ [field]) count rest [] with
  | (none, _) => none
  | (some rest, fields) => some (⟨id, fields⟩, rest)

/-- The clock matters to an entry whose ID is `*`. -/
def deserializeStream (now : Int) (data : Bytes) (s : StreamData) : Bool × StreamData :=
  readRecord streamItem (fun s entry => (s.xAdd now entry.id entry.fields).2) data s

/-! ## vectors -/

variable {H : Hnsw}

/-- The size of a vector is computed in 32 bits. -/
def floatBytes (dim : Nat) : Nat := dim * 4 % 2 ^ 32

def serializeVector (v : VectorData H) : Bytes :=
  let all := v.allEntries
  let total := 8 + (all.map fun entry => 4 + entry.1.length + floatBytes v.dim).sum
  resize total
    (put 4 v.dim ++ put 4 all.length ++ all.flatMap fun entry =>
      putBytes entry.1 ++
        (entry.2.flatMap fun x => put 4 x.bits.toNat).take (floatBytes v.dim))

/-- The `dim` floats from the front of `data` on; `beyond` is the memory behind it. -/
def floats (beyond : Nat → UInt8) (dim : Nat) (data : Bytes) : List Binary32 :=
  (List.range dim).map fun i =>
    ⟨UInt32.ofNat <| value <| (List.range' (4 * i) 4).map fun n =>
      data[n]?.getD (beyond (n - data.length))⟩

def vectorItem (beyond : Nat → UInt8) (dim : Nat) (data : Bytes) :
    Option ((Bytes × List Binary32) × Bytes) := do
  let (id, vec) ← getBytes? data
  let (_, rest) ← take? (floatBytes dim) vec
  some ((id, floats beyond dim vec), rest)

def deserializeVector (beyond : Nat → UInt8) (data : Bytes) (v : VectorData H) :
    Bool × VectorData H :=
  match get? 4 data with
  | none => (false, v)
  | some (dim, rest) =>
      readRecord (vectorItem beyond dim) (fun v entry => (v.add entry.1 entry.2).2) rest v

end AstraKV
