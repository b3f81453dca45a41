import AstraKV.Engine.State

/-!
# AstraKV.Engine.Evict

Memory accounting, the removal of expired keys and eviction
(`memory_usage`, `CleanupExpired` and `check_memory_and_evict`).

The limit is computed as the source computes it, with casts and products of 64
bits, so a configured size near the top of its type comes out negative.
Expired keys are removed first, by a walk over a copy of the list of
registered keys; then victims are evicted one by one until the accounted
memory is within the limit, or the candidates or a fixed number of rounds are
used up.
-/

namespace AstraKV

/-- `volatile_only`. -/
def EvictionPolicy.volatileOnly : EvictionPolicy → Bool
  | .kVolatileLRU | .kVolatileLFU | .kVolatileRandom | .kVolatileTTL => true
  | _ => false

namespace Engine

variable {E : Env}

/-! ## memory -/

def count (e : Engine E) : Nat := e.metas.keys.length

/-- `MemoryUsage` of a sorted set, with 32 bytes for a string object. -/
def zsetMemory (c : Call) (zs : ZSetBPlus Bytes) : Nat :=
  zs.orderedSet.nodeCount.toNat * 256 +
    (zs.memberToScore.entries.map fun entry => 32 + c.stringCapacity entry.1 + 8 + 32).sum +
    (zs.hashToMember.entries.map fun entry => 8 + 32 + c.stringCapacity entry.2 + 32).sum

/-- What `memory_usage` counts for a value. -/
def valueMemory (c : Call) : (t : KeyType) → Value E t → Nat
  | .kBytes, bytes => bytes.length
  | .kZSet, zs => zsetMemory c zs
  | .kList, lst => lst.memoryUsage 32 (c.listCapacity lst.vector)
  | .kHash, h => h.keys.length * 64
  | .kSet, s => s.keys.length * 40
  | .kStream, s => s.memoryUsage
  | .kJson, j => j.length + 64
  | .kVector, v => v.memoryUsage

def mapMemory (c : Call) (e : Engine E) (t : KeyType) : Nat :=
  ((e.data t).entries.map fun entry => entry.1.length + valueMemory c t entry.2).sum

def memoryUsage (c : Call) (e : Engine E) : Int :=
  e.mapMemory c .kBytes + e.mapMemory c .kZSet + e.mapMemory c .kList + e.mapMemory c .kHash +
    e.mapMemory c .kSet + e.mapMemory c .kStream + e.mapMemory c .kJson +
    e.mapMemory c .kVector + (e.count * 64 : Nat)

/-! ## expired keys -/

/-- One turn of the loop of `CleanupExpired`. -/
def cleanupKey (now : Int) (acc : Int × Engine E) (key : Bytes) : Int × Engine E :=
  match acc.2.isValid now key with
  | (true, e) => (acc.1, e)
  | (false, e) =>
      let e := e.removeAll key
      let e := { e with eviction2q := e.eviction2q.removeKey key }
      (acc.1 + 1, e.rocksDelete key)

def cleanupExpired (c : Call) (e : Engine E) : Int × Engine E :=
  let res := e.metas.keys.foldl (cleanupKey c.now) (0, e)
  (res.1, { res.2 with expired := res.2.expired + res.1 })

/-! ## victims -/

/-- The loop of `select_victim_*`: the first key with the least admitted value below `bound`. -/
def selectVictim {β : Type} [LT β] [DecidableLT β] (value : Bytes → β) (counts : β → Bool) :
    List Bytes → Option Bytes → β → Option Bytes
  | [], best, _ => best
  | k :: keys, best, bound =>
      if counts (value k) ∧ value k < bound then selectVictim value counts keys (some k) (value k)
      else selectVictim value counts keys best bound

def selectVictimLru (keys : List Bytes) (metas : KeyMetadataManager) : Option Bytes :=
  selectVictim metas.getAccessTime (fun _ => true) keys none (UInt32.ofNat (2 ^ 32 - 1))

def selectVictimLfu (keys : List Bytes) (metas : KeyMetadataManager) : Option Bytes :=
  selectVictim metas.getLFUCounter (fun _ => true) keys none (UInt8.ofNat (2 ^ 8 - 1))

def selectVictimRandom (keys : List Bytes) (rand : Nat) : Option Bytes :=
  if keys = [] then none else keys[rand % keys.length]?

def selectVictimTtl (keys : List Bytes) (metas : KeyMetadataManager) (now : Int) : Option Bytes :=
  selectVictim (metas.getTtlMs now) (fun ttl => 0 < ttl) keys none (2 ^ 63 - 1)

/-- The victim of round `i`; only the 2Q tracker is changed by the choice. -/
def victim (c : Call) (e : Engine E) (i : Nat) (candidates : List Bytes) :
    Option Bytes × Engine E :=
  match e.opts.eviction with
  | .k2Q =>
      let res := e.eviction2q.getVictim
      (res.1, { e with eviction2q := res.2 })
  | .kAllKeysLRU | .kVolatileLRU => (selectVictimLru candidates e.metas, e)
  | .kAllKeysLFU | .kVolatileLFU => (selectVictimLfu candidates e.metas, e)
  | .kAllKeysRandom | .kVolatileRandom => (selectVictimRandom candidates (c.rand i), e)
  | .kVolatileTTL => (selectVictimTtl candidates e.metas c.now, e)
  | .kNoEviction => (none, e)

/-! ## eviction -/

/-- Write the value of the victim to its record and drop it, then forget the key. -/
def evictKey (e : Engine E) (ok : Bool) (t : KeyType) (victim : Bytes) : Engine E :=
  let e :=
    match e.find t victim with
    | none => e
    | some v => (e.persist ok t victim v).remove t victim
  let e := { e with eviction2q := e.eviction2q.removeKey victim }
  e.unregisterKey victim

/-- The loop of `check_memory_and_evict`: `n` rounds from round `i` on. -/
def evictLoop (c : Call) (limit : Int) (candidates : List Bytes) :
    Nat → Nat → Int → Engine E → Int × Engine E
  | 0, _, evicted, e => (evicted, e)
  | n + 1, i, evicted, e =>
      if e.memoryUsage c > limit then
        match e.victim c i candidates with
        | (none, e) => (evicted, e)
        | (some victim, e) =>
            match e.metas.getKeyType c.now victim with
            | (none, metas) =>
                evictLoop c limit candidates n (i + 1) evicted { e with metas := metas }
            | (some .kNone, metas) =>
                evictLoop c limit candidates n (i + 1) evicted { e with metas := metas }
            | (some t, metas) =>
                evictLoop c limit candidates n (i + 1) (evicted + 1)
                  (evictKey { e with metas := metas } (c.putOk (i + 1)) t victim)
      else (evicted, e)

/-- The keys in the scope of the policy. -/
def candidates (c : Call) (e : Engine E) : List Bytes :=
  e.metas.keys.filter fun k =>
    ¬ (e.opts.eviction.volatileOnly ∧ e.metas.getTtlMs c.now k ≤ 0)

/-- The limit in the arithmetic of `int64_t`.  The cast of a `max_mb` from `2 ^ 63` on is negative,
and a product that does not fit, undefined in C++, is taken to wrap as compiled code has it. -/
def limit64 (e : Engine E) : Int64 := e.opts.maxMb.toInt64 * 1024 * 1024

def limit (e : Engine E) : Int := e.limit64.toInt

/-- `limit * 8 / 10`, below which the pass does not look for victims. -/
def lowMark (e : Engine E) : Int := (e.limit64 * 8 / 10).toInt

/-- The cast and the two products wrap together. -/
theorem limit_eq (e : Engine E) :
    e.limit = (e.opts.maxMb.toNat * 2 ^ 20 : Int).bmod (2 ^ 64) := by
  have hcast : e.opts.maxMb.toInt64.toInt = (e.opts.maxMb.toNat : Int).bmod (2 ^ 64) :=
    BitVec.toInt_eq_toNat_bmod _
  have hfactor : (1024 : Int64).toInt = 1024 := rfl
  rw [limit, limit64, Int64.toInt_mul, Int64.toInt_mul, hcast, hfactor, Int.bmod_mul_bmod,
    Int.mul_assoc, Int.bmod_mul_bmod]
  rfl

/-- Below `2 ^ 43` megabytes the limit is what the option says. -/
theorem limit_of_lt {e : Engine E} (h : e.opts.maxMb.toNat < 2 ^ 43) :
    e.limit = e.opts.maxMb.toNat * 2 ^ 20 := by
  rw [limit_eq, Int.bmod_eq_of_le] <;> omega

/-- Division by 10 is exact up to its rounding toward zero; only the product may wrap. -/
theorem lowMark_eq (e : Engine E) : e.lowMark = ((e.limit * 8).bmod (2 ^ 64)).tdiv 10 := by
  have hmul : (e.limit64 * 8).toInt = (e.limit * 8).bmod (2 ^ 64) := Int64.toInt_mul _ _
  rw [lowMark, Int64.toInt_div_of_ne_right _ _ (by decide), hmul]
  rfl

/-- A limit that is not negative lies above its low mark, even where the product wraps: what it
wraps to is below `2 ^ 63`, and a tenth of that below every limit that large. -/
theorem lowMark_le {e : Engine E} (h : 0 ≤ e.limit) : e.lowMark ≤ e.limit := by
  have hlt : e.limit < 2 ^ 63 := Int64.toInt_lt e.limit64
  have hwrap : (e.limit * 8).bmod (2 ^ 64) ≤ e.limit * 8 := by
    by_cases hfits : e.limit * 8 < 2 ^ 63
    · rw [Int.bmod_eq_of_le] <;> omega
    · have hhi := Int.bmod_lt (x := e.limit * 8) (m := 2 ^ 64) (by decide)
      omega
  have hle : ((e.limit * 8).bmod (2 ^ 64)).tdiv 10 ≤ (e.limit * 8).tdiv 10 :=
    Int.tdiv_le_tdiv (by decide) hwrap
  rw [Int.tdiv_eq_ediv_of_nonneg (a := e.limit * 8) (by omega)] at hle
  rw [lowMark_eq]
  omega

def checkMemoryAndEvict (c : Call) (e : Engine E) : Engine E :=
  let e := (e.cleanupExpired c).2
  if e.opts.maxMb = 0 ∨ e.opts.eviction = .kNoEviction then e
  else if e.memoryUsage c < e.lowMark then e
  else
    let candidates := e.candidates c
    if candidates = [] then e
    else
      let maxEvict := max 1 (candidates.length / 10)
      let res := evictLoop c e.limit candidates maxEvict 0 0 e
      { res.2 with evicted := res.2.evicted + res.1 }

end Engine

end AstraKV
