import AstraKV.Lib.Dict

/-!
# AstraKV.Data.DashMap

The map under the engine (`DashMap` of `dash_map.hpp`): shards by the hash of
the key and a counter of their keys, or one map without locks.

`ThreadSafe` and the hash of a key are parameters, and so is the hash of a
view of a key, which the lookups by view use.

`Homed` is the invariant of the shards: a key lies in the shard its hash
points to and in no other. With it the shards together are one map, read by
`get`, and listing them one after the other lists every key once. The counter
is kept apart from the keys it counts; `excess` is the difference of the two,
which each operation that runs alone leaves as it is.
-/

universe u v

namespace AstraKV

/-- The first two fields are in use with `ThreadSafe`, the others without. -/
structure DashMap (α : Type u) (β : Type v) where
  shards : List (Dict α β)
  size_ : UInt64
  single : Dict α β
  sizeUnlocked : UInt64

namespace DashMap

variable {α : Type u} {β : Type v}

def new (threadSafe : Bool) (numShards : Nat) : DashMap α β :=
  ⟨if threadSafe then List.replicate numShards ∅ else [], 0, ∅, 0⟩

/-- `ShardIndex` of a hash value. -/
def shardIndex (m : DashMap α β) (hv : UInt64) : Nat := hv.toNat % m.shards.length

/-- `shards_[idx]->map`. -/
def shard (m : DashMap α β) (idx : Nat) : Dict α β := m.shards.getD idx ∅

def setShard (m : DashMap α β) (idx : Nat) (map : Dict α β) : DashMap α β :=
  { m with shards := m.shards.set idx map }

/-- One turn of the loop of `Clear`. -/
def clearShard (m : DashMap α β) (idx : Nat) : DashMap α β := m.setShard idx ∅

/-- `size_.store(0)`. -/
def storeSize (m : DashMap α β) : DashMap α β := { m with size_ := 0 }

/-- The pairs of a map in its order. -/
def pairs (map : Dict α β) : List (α × β) := map.entries.map fun entry => (entry.1, entry.2)

section Bulk

variable (threadSafe : Bool)

def size (m : DashMap α β) : UInt64 := if threadSafe then m.size_ else m.sizeUnlocked

def clear (m : DashMap α β) : DashMap α β :=
  if threadSafe then ((List.range m.shards.length).foldl clearShard m).storeSize
  else { m with single := ∅, sizeUnlocked := 0 }

def allKeys (m : DashMap α β) : List α :=
  if threadSafe then m.shards.flatMap AList.keys else m.single.keys

def allEntries (m : DashMap α β) : List (α × β) :=
  if threadSafe then m.shards.flatMap pairs else pairs m.single

/-- `ForEach`: the calls of the callback. -/
def forEach (m : DashMap α β) : List (α × β) :=
  if threadSafe then m.shards.flatMap pairs else pairs m.single

end Bulk

section Operations

variable [DecidableEq α] (threadSafe : Bool) (hash viewHash : α → UInt64)

def insert (m : DashMap α β) (key : α) (value : β) : Bool × DashMap α β :=
  if threadSafe then
    let idx := m.shardIndex (hash key)
    let inserted := ((m.shard idx).lookup key).isNone
    (inserted, { m.setShard idx ((m.shard idx).insert key value) with
      size_ := if inserted then m.size_ + 1 else m.size_ })
  else
    let inserted := (m.single.lookup key).isNone
    (inserted, { m with
      single := m.single.insert key value
      sizeUnlocked := if inserted then m.sizeUnlocked + 1 else m.sizeUnlocked })

def get (m : DashMap α β) (key : α) : Option β :=
  if threadSafe then (m.shard (m.shardIndex (hash key))).lookup key else m.single.lookup key

def remove (m : DashMap α β) (key : α) : Bool × DashMap α β :=
  if threadSafe then
    let idx := m.shardIndex (hash key)
    let erased := ((m.shard idx).lookup key).isSome
    (erased, { m.setShard idx ((m.shard idx).erase key) with
      size_ := if erased then m.size_ - 1 else m.size_ })
  else
    let erased := (m.single.lookup key).isSome
    (erased, { m with
      single := m.single.erase key
      sizeUnlocked := if erased then m.sizeUnlocked - 1 else m.sizeUnlocked })

def contains (m : DashMap α β) (key : α) : Bool :=
  if threadSafe then ((m.shard (m.shardIndex (hash key))).lookup key).isSome
  else (m.single.lookup key).isSome

/-- `Insert` of a view. -/
def insertView (m : DashMap α β) (key : α) (value : β) : Bool × DashMap α β :=
  m.insert threadSafe hash key value

/-- `Get` by a view. -/
def getView (m : DashMap α β) (key : α) : Option β :=
  if threadSafe then (m.shard (m.shardIndex (viewHash key))).lookup key else m.single.lookup key

/-- `Remove` by a view. -/
def removeView (m : DashMap α β) (key : α) : Bool × DashMap α β := m.remove threadSafe hash key

/-- `Contains` by a view. -/
def containsView (m : DashMap α β) (key : α) : Bool :=
  if threadSafe then ((m.shard (m.shardIndex (viewHash key))).lookup key).isSome
  else (m.single.lookup key).isSome

end Operations

/-! ## the shards -/

section Shards

variable {m : DashMap α β} {hash : α → UInt64} {key key' : α} {value : β} {idx idx' : Nat}
  {map : Dict α β}

/-- Every key is in the shard of its hash. -/
structure Homed (hash : α → UInt64) (m : DashMap α β) : Prop where
  pos : 0 < m.shards.length
  home : ∀ idx < m.shards.length, ∀ key ∈ m.shard idx, m.shardIndex (hash key) = idx

/-- Replacing a shard keeps their number. -/
@[simp] theorem length_shards_setShard : (m.setShard idx map).shards.length = m.shards.length :=
  List.length_set

/-- Replacing a shard keeps where a hash points to. -/
@[simp] theorem shardIndex_setShard (hv : UInt64) :
    (m.setShard idx map).shardIndex hv = m.shardIndex hv := by
  simp [shardIndex]

/-- Replacing a shard leaves the others. -/
theorem shard_setShard (hidx : idx < m.shards.length) :
    (m.setShard idx map).shard idx' = if idx' = idx then map else m.shard idx' := by
  unfold shard setShard
  dsimp only
  rw [List.getD_eq_getElem?_getD, List.getD_eq_getElem?_getD, List.getElem?_set]
  by_cases h : idx' = idx
  · simp [h, hidx]
  · simp [h, Ne.symm h]

/-- A hash points to one of the shards. -/
theorem shardIndex_lt (hpos : 0 < m.shards.length) (hv : UInt64) :
    m.shardIndex hv < m.shards.length :=
  Nat.mod_lt _ hpos

/-- Keys stay homed if those of the new shard are at home there. -/
theorem Homed.setShard (h : m.Homed hash) (hidx : idx < m.shards.length)
    (hmap : ∀ key ∈ map, m.shardIndex (hash key) = idx) : (m.setShard idx map).Homed hash := by
  refine ⟨by simpa using h.pos, fun idx' hidx' key hkey => ?_⟩
  rw [shard_setShard hidx] at hkey
  rw [shardIndex_setShard]
  split at hkey
  · rename_i heq
    rw [heq]
    exact hmap key hkey
  · exact h.home idx' (by simpa using hidx') key hkey

/-- The shards are those at the indices below their number. -/
theorem mem_shards : map ∈ m.shards ↔ ∃ idx < m.shards.length, m.shard idx = map := by
  rw [List.mem_iff_getElem]
  constructor
  · rintro ⟨idx, hidx, rfl⟩
    exact ⟨idx, hidx, List.getD_eq_getElem _ _ hidx⟩
  · rintro ⟨idx, hidx, rfl⟩
    exact ⟨idx, hidx, (List.getD_eq_getElem _ _ hidx).symm⟩

/-- A key is in some shard if it is in its own. -/
theorem Homed.exists_shard (h : m.Homed hash) {p : Dict α β → Prop}
    (hp : ∀ map, p map → key ∈ map) :
    (∃ map ∈ m.shards, p map) ↔ p (m.shard (m.shardIndex (hash key))) := by
  constructor
  · rintro ⟨map, hmap, hpmap⟩
    obtain ⟨idx, hidx, rfl⟩ := mem_shards.mp hmap
    rwa [h.home idx hidx key (hp _ hpmap)]
  · intro hpmap
    exact ⟨_, mem_shards.mpr ⟨_, shardIndex_lt h.pos _, rfl⟩, hpmap⟩

/-- `AllKeys` has every key once. -/
theorem Homed.nodup_allKeys (h : m.Homed hash) : (m.allKeys true).Nodup := by
  refine List.nodup_flatMap.mpr ⟨fun map _ => map.keys_nodup, ?_⟩
  refine List.pairwise_iff_getElem.mpr fun i j hi hj hij key hki hkj => ?_
  have hshard : ∀ idx (hidx : idx < m.shards.length), m.shards[idx] = m.shard idx :=
    fun idx hidx => (List.getD_eq_getElem _ _ hidx).symm
  rw [hshard i hi] at hki
  rw [hshard j hj] at hkj
  have heq := (h.home i hi key hki).symm.trans (h.home j hj key hkj)
  omega

/-- The pairs of a map have its keys. -/
theorem map_fst_pairs : (pairs map).map Prod.fst = map.keys := by
  unfold pairs
  rw [List.map_map]
  rfl

/-- The entries of a map have its keys. -/
theorem map_fst_allEntries (threadSafe : Bool) (m : DashMap α β) :
    (m.allEntries threadSafe).map Prod.fst = m.allKeys threadSafe := by
  unfold allEntries allKeys
  cases threadSafe
  · exact map_fst_pairs
  · simp [List.map_flatMap, map_fst_pairs]

variable [DecidableEq α]

/-- The keys listed are those with a value. -/
theorem Homed.mem_allKeys (h : m.Homed hash) :
    key ∈ m.allKeys true ↔ (m.get true hash key).isSome = true := by
  unfold allKeys get
  simp only [if_true, List.mem_flatMap]
  rw [AList.lookup_isSome]
  exact h.exists_shard fun map hmem => hmem

/-- The pairs of a map are its keys with their values. -/
theorem mem_pairs : (key, value) ∈ pairs map ↔ map.lookup key = some value := by
  unfold pairs
  rw [List.mem_map]
  constructor
  · rintro ⟨entry, hentry, heq⟩
    obtain ⟨rfl, rfl⟩ := Prod.mk.inj heq
    exact Dict.mem_entries.mp hentry
  · intro hlookup
    exact ⟨⟨key, value⟩, Dict.mem_entries.mpr hlookup, rfl⟩

/-- The entries listed are the keys with their values. -/
theorem Homed.mem_allEntries (h : m.Homed hash) :
    (key, value) ∈ m.allEntries true ↔ m.get true hash key = some value := by
  unfold allEntries get
  simp only [if_true, List.mem_flatMap, mem_pairs]
  exact h.exists_shard fun map hlookup => Dict.mem_of_lookup hlookup

end Shards

/-! ## the operations on the shards -/

section Effects

variable {m m' : DashMap α β} {hash : α → UInt64} {key key' : α} {value : β}

/-- The counter is no part of it. -/
theorem Homed.of_shards (h : m.Homed hash) (hshards : m'.shards = m.shards) : m'.Homed hash := by
  obtain ⟨hpos, hhome⟩ := h
  constructor
  · rwa [hshards]
  · unfold shard shardIndex
    rw [hshards]
    exact hhome

/-- Emptying a shard keeps the others homed. -/
theorem Homed.clearShard (h : m.Homed hash) {idx : Nat} (hidx : idx < m.shards.length) :
    (m.clearShard idx).Homed hash :=
  h.setShard hidx fun key hkey => absurd hkey (AList.notMem_empty key)

/-- Emptying some shards keeps their number. -/
@[simp] theorem length_shards_foldl_clearShard (idxs : List Nat) :
    (idxs.foldl DashMap.clearShard m).shards.length = m.shards.length := by
  induction idxs generalizing m with
  | nil => rfl
  | cons idx idxs ih =>
      rw [List.foldl_cons, ih]
      exact length_shards_setShard

/-- The first `n` turns of `Clear`. -/
theorem Homed.clearShards (h : m.Homed hash) {n : Nat} (hn : n ≤ m.shards.length) :
    ((List.range n).foldl DashMap.clearShard m).Homed hash ∧
      ∀ idx, ((List.range n).foldl DashMap.clearShard m).shard idx =
        if idx < n then ∅ else m.shard idx := by
  induction n with
  | zero => exact ⟨h, fun _ => rfl⟩
  | succ n ih =>
      obtain ⟨hhomed, hshard⟩ := ih (by omega)
      have hn' : n < ((List.range n).foldl DashMap.clearShard m).shards.length := by simpa using hn
      rw [List.range_succ, List.foldl_append, List.foldl_cons, List.foldl_nil]
      refine ⟨hhomed.clearShard hn', fun idx => ?_⟩
      rw [DashMap.clearShard, shard_setShard hn', hshard]
      by_cases hidx : idx = n
      · simp [hidx]
      · have hlt : idx < n + 1 ↔ idx < n := by omega
        simp [hidx, hlt]

/-- `Clear` keeps the keys homed, there being none. -/
theorem Homed.clear (h : m.Homed hash) : (m.clear true).Homed hash :=
  (h.clearShards le_rfl).1.of_shards rfl

variable [DecidableEq α]

/-- What is read depends on the shards alone, not on the counter. -/
theorem get_of_shards (hshards : m'.shards = m.shards) :
    m'.get true hash key = m.get true hash key := by
  unfold get shard shardIndex
  rw [hshards, if_pos rfl, if_pos rfl]

/-- A change to the shard of a key that changes only what is under the key. -/
theorem Homed.get_setShard (h : m.Homed hash) {map : Dict α β} {x : Option β}
    (hmap : ∀ key', map.lookup key' =
      if key' = key then x else (m.shard (m.shardIndex (hash key))).lookup key') :
    (m.setShard (m.shardIndex (hash key)) map).get true hash key' =
      if key' = key then x else m.get true hash key' := by
  unfold get
  simp only [if_true, shardIndex_setShard]
  rw [shard_setShard (shardIndex_lt h.pos _)]
  by_cases hidx : m.shardIndex (hash key') = m.shardIndex (hash key)
  · rw [if_pos hidx, hmap, hidx]
  · have hne : key' ≠ key := fun heq => hidx (by rw [heq])
    rw [if_neg hidx, if_neg hne]

/-- `Insert` puts the key into its own shard. -/
theorem Homed.insert (h : m.Homed hash) (key : α) (value : β) :
    (m.insert true hash key value).2.Homed hash := by
  have hidx := shardIndex_lt h.pos (hash key)
  have hkeys : ∀ key' ∈ AList.insert key value (m.shard (m.shardIndex (hash key))),
      m.shardIndex (hash key') = m.shardIndex (hash key) := by
    intro key' hkey'
    obtain rfl | hkey' := AList.mem_insert _ |>.mp hkey'
    · rfl
    · exact h.home _ hidx key' hkey'
  exact Homed.of_shards (h.setShard hidx hkeys) rfl

/-- `Insert` sets the value of its key and leaves the others. -/
theorem Homed.get_insert (h : m.Homed hash) :
    (m.insert true hash key value).2.get true hash key' =
      if key' = key then some value else m.get true hash key' :=
  (get_of_shards rfl).trans (h.get_setShard fun _ => Dict.lookup_insert_ite)

/-- `Remove` leaves the keys homed. -/
theorem Homed.remove (h : m.Homed hash) (key : α) : (m.remove true hash key).2.Homed hash := by
  have hidx := shardIndex_lt h.pos (hash key)
  have hkeys : ∀ key' ∈ AList.erase key (m.shard (m.shardIndex (hash key))),
      m.shardIndex (hash key') = m.shardIndex (hash key) :=
    fun key' hkey' => h.home _ hidx key' (AList.mem_erase.mp hkey').2
  exact Homed.of_shards (h.setShard hidx hkeys) rfl

/-- `Remove` takes its key away and leaves the others. -/
theorem Homed.get_remove (h : m.Homed hash) :
    (m.remove true hash key).2.get true hash key' =
      if key' = key then none else m.get true hash key' :=
  (get_of_shards rfl).trans (h.get_setShard fun _ => Dict.lookup_erase_ite)

/-- After `Clear` no key has a value. -/
theorem Homed.get_clear (h : m.Homed hash) : (m.clear true).get true hash key = none := by
  obtain ⟨hhomed, hshard⟩ := h.clearShards le_rfl
  have hsame : (m.clear true).get true hash key =
      ((List.range m.shards.length).foldl DashMap.clearShard m).get true hash key :=
    get_of_shards rfl
  have hidx := shardIndex_lt hhomed.pos (hash key)
  rw [length_shards_foldl_clearShard] at hidx
  rw [hsame, get, if_pos rfl, hshard, if_pos hidx]
  rfl

end Effects

/-! ## the counter -/

section Counter

variable {m m' : DashMap α β} {hash : α → UInt64} {key : α} {value : β}

/-- The number of keys in the shards. -/
def count (m : DashMap α β) : Nat := (m.allKeys true).length

/-- How far the counter is ahead of the number of keys. -/
def excess (m : DashMap α β) : UInt64 := m.size_ - UInt64.ofNat m.count

/-- No excess means that the counter is right, modulo 2^64. -/
theorem excess_eq_zero : m.excess = 0 ↔ m.size_ = UInt64.ofNat m.count := sub_eq_zero

variable [DecidableEq α]

/-- Maps with the same keys have as many of them. -/
theorem Homed.count_eq (h : m.Homed hash) (h' : m'.Homed hash)
    (hkeys : ∀ key', (m'.get true hash key').isSome = (m.get true hash key').isSome) :
    m'.count = m.count := by
  refine List.Perm.length_eq ((List.perm_ext_iff_of_nodup h'.nodup_allKeys h.nodup_allKeys).mpr ?_)
  intro key'
  rw [h'.mem_allKeys, h.mem_allKeys, hkeys]

/-- One key more. -/
theorem Homed.count_succ (h : m.Homed hash) (h' : m'.Homed hash)
    (hfresh : m.get true hash key = none)
    (hkeys : ∀ key', (m'.get true hash key').isSome = true ↔
      key' = key ∨ (m.get true hash key').isSome = true) :
    m'.count = m.count + 1 := by
  have hnodup : (key :: m.allKeys true).Nodup := by
    refine List.nodup_cons.mpr ⟨?_, h.nodup_allKeys⟩
    rw [h.mem_allKeys, hfresh]
    exact Bool.false_ne_true
  refine List.Perm.length_eq ((List.perm_ext_iff_of_nodup h'.nodup_allKeys hnodup).mpr ?_)
  intro key'
  rw [h'.mem_allKeys, List.mem_cons, h.mem_allKeys, hkeys]

/-- `Insert` leaves the excess. -/
theorem Homed.excess_insert (h : m.Homed hash) (key : α) (value : β) :
    (m.insert true hash key value).2.excess = m.excess := by
  have hget : ∀ key', (m.insert true hash key value).2.get true hash key' =
      if key' = key then some value else m.get true hash key' := fun _ => h.get_insert
  have hsize : (m.insert true hash key value).2.size_ =
      if (m.get true hash key).isNone then m.size_ + 1 else m.size_ := rfl
  unfold excess
  rw [hsize]
  cases hkey : m.get true hash key with
  | none =>
      rw [h.count_succ (h.insert key value) hkey fun key' => by
        rw [hget]
        by_cases heq : key' = key <;> simp [heq]]
      simp [UInt64.ofNat_add]
  | some value' =>
      rw [h.count_eq (h.insert key value) fun key' => by
        rw [hget]
        by_cases heq : key' = key <;> simp [heq, hkey]]
      rfl

/-- `Remove` leaves the excess. -/
theorem Homed.excess_remove (h : m.Homed hash) (key : α) :
    (m.remove true hash key).2.excess = m.excess := by
  have hget : ∀ key', (m.remove true hash key).2.get true hash key' =
      if key' = key then none else m.get true hash key' := fun _ => h.get_remove
  have hsize : (m.remove true hash key).2.size_ =
      if (m.get true hash key).isSome then m.size_ - 1 else m.size_ := rfl
  unfold excess
  rw [hsize]
  cases hkey : m.get true hash key with
  | none =>
      rw [h.count_eq (h.remove key) fun key' => by
        rw [hget]
        by_cases heq : key' = key <;> simp [heq, hkey]]
      rfl
  | some value =>
      have hgone : (m.remove true hash key).2.get true hash key = none := by
        rw [hget, if_pos rfl]
      rw [(h.remove key).count_succ h hgone fun key' => by
        rw [hget]
        by_cases heq : key' = key <;> simp [heq, hkey]]
      rw [UInt64.ofNat_add, sub_add_eq_sub_sub_swap]
      rfl

end Counter

end DashMap

end AstraKV
