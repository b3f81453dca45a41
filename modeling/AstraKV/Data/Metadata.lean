import AstraKV.Lib.Dict
import AstraKV.Lib.LittleEndian

/-!
# AstraKV.Data.Metadata

What is known of a key besides its value (`KeyMetadata` and
`KeyMetadataManager` of `metadata.hpp`).

Times are milliseconds of the wall clock.  The reading `now` that the source
takes inside each function is an argument here.

A deadline of zero stands for none, as in the source, and every test of an
expiry asks for that first. Reading a key through the manager may remove it:
`IsValid` unregisters a key whose deadline is past before it answers. The
type, the version and the two numbers for eviction are kept with the deadline
in one record and go with it.
-/

namespace AstraKV

inductive KeyType where
  | kNone
  | kBytes
  | kZSet
  | kList
  | kHash
  | kSet
  | kStream
  | kJson
  | kVector
deriving DecidableEq

structure KeyMetadata where
  type : KeyType
  expireTimeMs : Option Int
  version : UInt64
  accessTimeMs : UInt32
  lfuCounter : UInt8
deriving DecidableEq

namespace KeyMetadata

/-- `KeyMetadata(type)`. -/
def ofType (type : KeyType) : KeyMetadata := ⟨type, none, 0, 0, 0⟩

/-- Only a positive time counts, and at the very time the key still lives. -/
def isExpired (m : KeyMetadata) (now : Int) : Bool :=
  match m.expireTimeMs with
  | none => false
  | some expireTimeMs => 0 < expireTimeMs ∧ expireTimeMs < now

def setExpireMs (m : KeyMetadata) (ms : Int) : KeyMetadata :=
  if ms ≤ 0 then { m with expireTimeMs := none } else { m with expireTimeMs := some ms }

def getTtlMs (m : KeyMetadata) (now : Int) : Option Int :=
  match m.expireTimeMs with
  | none => none
  | some expireTimeMs =>
      if expireTimeMs ≤ 0 ∨ expireTimeMs ≤ now then none else some (expireTimeMs - now)

/-- The counter is incremented as a `uint8_t` before it is capped. -/
def updateAccess (m : KeyMetadata) (now : Int) : KeyMetadata :=
  { m with
    accessTimeMs := UInt32.ofNat (now % 2 ^ 24).toNat
    lfuCounter := min (m.lfuCounter + 1) 255 }

end KeyMetadata

abbrev KeyMetadataManager := Dict Bytes KeyMetadata

namespace KeyMetadataManager

def registerKey (metas : KeyMetadataManager) (key : Bytes) (type : KeyType) :
    KeyMetadataManager :=
  let version :=
    match metas.lookup key with
    | none => 1
    | some existing => existing.version + 1
  metas.insert key { KeyMetadata.ofType type with version := version }

def unregisterKey (metas : KeyMetadataManager) (key : Bytes) : KeyMetadataManager :=
  metas.erase key

/-- `IsValid`: what is expired is forgotten on the way. -/
def isValid (metas : KeyMetadataManager) (now : Int) (key : Bytes) : Bool × KeyMetadataManager :=
  match metas.lookup key with
  | none => (false, metas)
  | some metadata =>
      if metadata.isExpired now then (false, metas.erase key) else (true, metas)

def getKeyType (metas : KeyMetadataManager) (now : Int) (key : Bytes) :
    Option KeyType × KeyMetadataManager :=
  match metas.lookup key with
  | none => (none, metas)
  | some metadata =>
      if metadata.isExpired now then (none, metas.erase key) else (some metadata.type, metas)

def setExpireMs (metas : KeyMetadataManager) (key : Bytes) (expireTimeMs : Int) :
    Bool × KeyMetadataManager :=
  match metas.lookup key with
  | none => (false, metas)
  | some metadata => (true, metas.insert key (metadata.setExpireMs expireTimeMs))

/-- `GetTtlMs`: -2 for no key, -1 for no expiry. -/
def getTtlMs (metas : KeyMetadataManager) (now : Int) (key : Bytes) : Int :=
  match metas.lookup key with
  | none => -2
  | some metadata =>
      if metadata.isExpired now then -2
      else
        match metadata.expireTimeMs with
        | none => -1
        | some _ => (metadata.getTtlMs now).getD (-1)

def updateAccessInfo (metas : KeyMetadataManager) (now : Int) (key : Bytes) :
    Bool × KeyMetadataManager :=
  match metas.lookup key with
  | none => (false, metas)
  | some metadata => (true, metas.insert key (metadata.updateAccess now))

def getAccessTime (metas : KeyMetadataManager) (key : Bytes) : UInt32 :=
  match metas.lookup key with
  | none => 0
  | some metadata => metadata.accessTimeMs

def getLFUCounter (metas : KeyMetadataManager) (key : Bytes) : UInt8 :=
  match metas.lookup key with
  | none => 0
  | some metadata => metadata.lfuCounter

/-- `GetKeyType` forgets what `IsValid` does. -/
theorem getKeyType_snd (metas : KeyMetadataManager) (now : Int) (key : Bytes) :
    (metas.getKeyType now key).2 = (metas.isValid now key).2 := by
  unfold getKeyType isValid
  cases metas.lookup key with
  | none => rfl
  | some m => cases hm : m.isExpired now <;> simp [hm]

end KeyMetadataManager

end AstraKV
