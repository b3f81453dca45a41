import AstraKV.Engine.Pass
import AstraKV.Lib.Tally

/-!
# AstraKV.Engine.Stats

The statistics over whole runs.  `put_count`, `get_count`, `hits` and
`misses` count the calls they are named after, and `evicted` and `expired`
close the account of the keys: every key that came is still there, was
evicted, was found expired by a cleanup, or was forgotten by the call about it.

The account is a sum (`balance`): the keys there are plus those counted as
evicted or expired. A pass moves keys from one part of the sum to another and
leaves it; an operation changes it by one when it registers a key that was not
there or forgets one that was. The counters of calls are simpler, each grows
by one with each call of its kind, whatever the answer of the pass. All of
this is followed through the operations in the same order as their effects in
`AstraKV.Engine.Course`.
-/

namespace AstraKV

open Slot Machine

/-- The counters of `Stats`; the other two fields are computed when it is asked for. -/
@[ext] structure Counters where
  putCount : Int
  getCount : Int
  hits : Int
  misses : Int
  evicted : Int
  expired : Int
deriving DecidableEq

structure Stats extends Counters where
  keyCount : Int
  memoryBytes : Int

namespace Engine

variable {E : Env} {e e' : Engine E} {c : Call} {op : Op} {t : KeyType} {key k : Bytes}

def counters (e : Engine E) : Counters :=
  ⟨e.putCount, e.getCount, e.hits, e.misses, e.evicted, e.expired⟩

def stats (c : Call) (e : Engine E) : Stats := ⟨e.counters, e.count, e.memoryUsage c⟩

/-! ## the counters -/

section Frames

variable {α : Type} {absent : α}

/-- Looking a value up counts nothing. -/
theorem counters_getOrCreate {load : Bool × Value E t} :
    (e.getOrCreate t key load).2.counters = e.counters := by
  unfold getOrCreate
  split
  · rfl
  · split <;> rfl

theorem counters_guarded {now : Int} {read : Engine E → α × Engine E}
    (hread : (read e).2.counters = e.counters) :
    (e.guarded now key absent read).2.counters = e.counters := by
  cases hvalid : (e.slot key).valid now with
  | true => rwa [guarded_of_valid hvalid]
  | false => rw [guarded_of_not_valid hvalid]; rfl

theorem counters_answer {β : Type} (read : β → α) {res : Option β × Engine E}
    (hres : res.2.counters = e.counters) : (answer absent read res).2.counters = e.counters := by
  rwa [answer_snd]

theorem counters_rocksPut (ok : Bool) (record : Bytes) :
    (e.rocksPut ok key record).counters = e.counters := by
  unfold rocksPut
  split <;> rfl

theorem counters_store (ok : Bool) (keep : α → Bool) (res : α × Value E t) :
    (e.store ok t key keep res).2.counters = e.counters := by
  unfold store
  dsimp only
  split
  · exact counters_rocksPut ok _
  · rfl

theorem counters_update (ok : Bool) (change : Value E t → α × Value E t) (keep : α → Bool)
    {res : Option (Value E t) × Engine E} (hres : res.2.counters = e.counters) :
    (update ok t key absent change keep res).2.counters = e.counters := by
  unfold update
  split
  · exact hres
  · exact (counters_store ok keep _).trans hres

theorem counters_edit (ok : Bool) (fresh : Value E t) (change : Value E t → α × Value E t)
    (keep : α → Bool) : (e.edit ok t key fresh change keep).2.counters = e.counters := by
  unfold edit
  split <;> exact counters_store ok keep _

end Frames

/-- The answer of `get` is a value. -/
def answers (c : Call) (e : Engine E) (key : Bytes) : Bool := (e.get c key).1.isSome

/-- The counters when an operation is done, before the pass at the end of a write. -/
def counted (e : Engine E) (c : Call) : Op → Counters
  | .put _ _ => { e.counters with putCount := e.putCount + 1 }
  | .get key =>
      if e.answers c key then
        { e.counters with getCount := e.getCount + 1, hits := e.hits + 1 }
      else { e.counters with getCount := e.getCount + 1, misses := e.misses + 1 }
  | _ => e.counters

/-- A hit is counted. -/
theorem counters_hit (c : Call) (e : Engine E) (key : Bytes) :
    (e.hit c key).counters = { e.counters with hits := e.hits + 1 } := by
  unfold hit recordAccess
  dsimp only
  split <;> rfl

/-- `get` counts a hit or a miss. -/
theorem counters_lookUp (c : Call) (e : Engine E) (key : Bytes) :
    (e.lookUp c key).2.counters =
      if (e.lookUp c key).1.isSome then { e.counters with hits := e.hits + 1 }
      else { e.counters with misses := e.misses + 1 } := by
  unfold lookUp
  split
  · rename_i e₁ heq
    obtain ⟨-, rfl⟩ := Prod.mk.inj heq
    rfl
  · rename_i e₁ heq
    obtain ⟨-, rfl⟩ := Prod.mk.inj heq
    dsimp only
    split
    · exact counters_hit c _ key
    · split
      · exact counters_hit c _ key
      · rfl

theorem counters_get (c : Call) (e : Engine E) (key : Bytes) :
    (e.get c key).2.counters = e.counted c (.get key) :=
  counters_lookUp c { e with getCount := e.getCount + 1 } key

/-! ## a step -/

/-- `e'` is `e` after the operation, before a pass. -/
structure Counts (c : Call) (op : Op) (e e' : Engine E) : Prop where
  slot : e'.slot = e.acted c op
  counters : e'.counters = e.counted c op

/-- How a step goes, with what it counts. -/
inductive Counted (c : Call) (op : Op) (e : Engine E) : Engine E → Prop
  | quiet {e' : Engine E} (h : Counts c op e e') : Counted c op e e'
  | sweep {e₁ : Engine E} (h : Counts c op e e₁) : Counted c op e (e₁.checkMemoryAndEvict c)
  | cleanup (hop : op = .cleanupExpired) : Counted c op e (e.cleanupExpired c).2

/-- What is done with the answer does not matter. -/
theorem Counted.reply {α : Type} {wrap : α → Reply} {res : α × Engine E}
    (h : Counts c op e res.2) : Counted c op e (Engine.reply wrap res).2 := .quiet h

/-- An operation that acts on its slot and counts has counted. -/
theorem Leaves.counts (h : Leaves e key ((e.slot key).act c e.disk (op.shape E c)) e')
    (hkey : op.key = some key) (hcounters : e'.counters = e.counted c op) : Counts c op e e' := by
  refine ⟨?_, hcounters⟩
  rw [h.slot, acted, hkey]

/-- An operation about no key counts and changes no slot. -/
theorem counts_of_slot (hkey : op.key = none) (hslot : e'.slot = e.slot)
    (hcounters : e'.counters = e.counted c op) : Counts c op e e' := by
  refine ⟨?_, hcounters⟩
  rw [hslot, acted, hkey]

section Families

variable {α : Type} {absent : α} {dim : Nat} {res : Option (Value E t) × Engine E}

/-- What a read counts. -/
theorem Fetches.answer_counts (h : Fetches c e t key dim res)
    (hres : res.2.counters = e.counters) (read : Value E t → α) (hkey : op.key = some key)
    (hshape : op.shape E c = .read false t dim) (hcounted : e.counted c op = e.counters) :
    Counts c op e (answer absent read res).2 := by
  have hleaves : Leaves e key _ (answer absent read res).2 := h.answer_leaves read
  rw [← hshape] at hleaves
  exact hleaves.counts hkey ((counters_answer read hres).trans hcounted.symm)

/-- What a guarded read counts. -/
theorem Fetches.guarded_counts (h : Fetches c e t key dim res)
    (hres : res.2.counters = e.counters) {read : Engine E → α × Engine E}
    (hread : (read e).2 = res.2) (hkey : op.key = some key)
    (hshape : op.shape E c = .read true t dim) (hcounted : e.counted c op = e.counters) :
    Counts c op e (e.guarded c.now key absent read).2 := by
  have hleaves : Leaves e key _ (e.guarded c.now key absent read).2 := h.guarded_leaves hread
  rw [← hshape] at hleaves
  exact hleaves.counts hkey ((counters_guarded (hread ▸ hres)).trans hcounted.symm)

/-- What a change counts. -/
theorem Fetches.update_counts (h : Fetches c e t key dim res)
    (hres : res.2.counters = e.counters) {change : Value E t → α × Value E t} {keep : α → Bool}
    (hkey : op.key = some key) (hshape : op.shape E c = .update t dim (persistIf keep change))
    (hcounted : e.counted c op = e.counters) :
    Counts c op e (update (c.putOk 0) t key absent change keep res).2 := by
  have hleaves : Leaves e key _ (update (c.putOk 0) t key absent change keep res).2 :=
    h.update_leaves change keep
  rw [← hshape] at hleaves
  exact hleaves.counts hkey ((counters_update _ _ _ hres).trans hcounted.symm)

/-- What a write counts, before its pass. -/
theorem write_counted {fresh : Value E t} {change : Value E t → α × Value E t} {keep : α → Bool}
    (hkey : op.key = some key)
    (hshape : op.shape E c = .edit t (fun _ => fresh) (persistIf keep change))
    (hcounted : e.counted c op = e.counters) :
    Counted c op e (e.write c t key fresh change keep).2 := by
  have hleaves := edit_leaves e c key (fun _ => fresh) change keep
  rw [← hshape] at hleaves
  exact .sweep (hleaves.counts hkey ((counters_edit _ _ _ _).trans hcounted.symm))

end Families

theorem put_counted (c : Call) (e : Engine E) (key value : Bytes) :
    Counted c (.put key value) e (e.put c key value).2 := by
  have hregister := ((Leaves.refl e key).insert (t := .kBytes) value).registerKey .kBytes
  refine .sweep (Leaves.counts ?_ rfl (counters_rocksPut _ _))
  refine Leaves.rocksPut ?_ (c.putOk 0) value
  exact hregister.same rfl rfl rfl

theorem zrem_counts (c : Call) (e : Engine E) (key member : Bytes) :
    Counts c (.zrem key member) e (e.zrem c key member).2 := by
  have h : Leaves e key (e.slot key) ((e.find .kZSet key, e) : Option (Value E .kZSet) × _).2 :=
    .refl e key
  exact Leaves.counts (h.update rfl _ _ _) rfl (counters_update _ _ _ rfl)

theorem jsonset_counts (c : Call) (e : Engine E) (key path json : Bytes) :
    Counts c (.jsonset key path json) e (e.jsonset c key path json).2 := by
  refine (jsonset_leaves e c key path json).counts rfl ?_
  unfold jsonset
  split
  · rfl
  · exact counters_edit (t := .kJson) _ _ _ _

theorem jsondel_counts (c : Call) (e : Engine E) (key path : Bytes) :
    Counts c (.jsondel key path) e (e.jsondel key path).2 := by
  refine (jsondel_leaves e c key path).counts rfl ?_
  unfold jsondel
  split <;> rfl

/-- What any step counts. -/
theorem step_counted (e : Engine E) (c : Call) (op : Op) :
    Counted c op e (e.step (c, op)).2 := by
  cases op with
  | put key value => exact put_counted c e key value
  | zadd key | lpush key | rpush key | hset key | sadd key | xadd key | vecadd key =>
      exact write_counted rfl rfl rfl
  | cleanupExpired => exact .cleanup rfl
  | get key => exact .quiet ((get_leaves e c key).counts rfl (counters_get c e key))
  | del key => exact .quiet ((del_leaves e c key).counts rfl rfl)
  | existsKey key => exact .quiet ((isValid_leaves e c.now key).counts rfl rfl)
  | type key => exact .quiet ((type_leaves e c key).counts rfl rfl)
  | expire key ms => exact .quiet ((expire_leaves e c key ms).counts rfl (counters_guarded rfl))
  | ttl key => exact .quiet ((ttl_leaves e c key).counts rfl (counters_guarded rfl))
  | zrem key member => exact .quiet (zrem_counts c e key member)
  | hincrby key field delta =>
      exact .quiet ((hincrby_leaves c e key field delta).counts rfl (counters_edit _ _ _ _))
  | jsonset key path json => exact .quiet (jsonset_counts c e key path json)
  | jsondel key path => exact .quiet (jsondel_counts c e key path)
  | allEntries | allKeys | count | memoryUsage | setEviction =>
      exact .quiet (counts_of_slot rfl rfl rfl)
  | zscore key =>
      exact .reply ((getOrCreateZset_fetches e c key).guarded_counts counters_getOrCreate
        (answer_snd _) rfl rfl rfl)
  | zcard key | zrange key | zrangebyscore key =>
      exact .reply ((getOrCreateZset_fetches e c key).answer_counts counters_getOrCreate _ rfl rfl
        rfl)
  | lpop key | rpop key =>
      exact .reply ((getOrCreateList_fetches e c key).update_counts counters_getOrCreate rfl rfl
        rfl)
  | llen key =>
      exact .reply ((getOrCreateList_fetches e c key).answer_counts counters_getOrCreate _ rfl rfl
        rfl)
  | hget key | hexists key | hgetall key =>
      exact .reply ((getOrCreateHash_fetches e c key).guarded_counts counters_getOrCreate
        (answer_snd _) rfl rfl rfl)
  | hdel key =>
      exact .reply ((getOrCreateHash_fetches e c key).update_counts counters_getOrCreate rfl rfl
        rfl)
  | astrakvHgetall key =>
      exact .reply ((getOrCreateHash_fetches e c key).answer_counts counters_getOrCreate fieldsOf
        rfl rfl rfl)
  | astrakvSmembers key =>
      exact .reply ((getOrCreateSet_fetches e c key).answer_counts counters_getOrCreate AList.keys
        rfl rfl rfl)
  | hlen key | astrakvHscan key =>
      exact .reply ((getOrCreateHash_fetches e c key).answer_counts counters_getOrCreate _ rfl rfl
        rfl)
  | srem key =>
      exact .reply ((getOrCreateSet_fetches e c key).update_counts counters_getOrCreate rfl rfl rfl)
  | sismember key | smembers key =>
      exact .reply ((getOrCreateSet_fetches e c key).guarded_counts counters_getOrCreate
        (answer_snd _) rfl rfl rfl)
  | scard key | astrakvSscan key =>
      exact .reply ((getOrCreateSet_fetches e c key).answer_counts counters_getOrCreate _ rfl rfl
        rfl)
  | xread key | xrange key =>
      exact .reply ((getOrCreateStream_fetches e c key).guarded_counts counters_getOrCreate
        (answer_snd _) rfl rfl rfl)
  | xlen key =>
      exact .reply ((getOrCreateStream_fetches e c key).answer_counts counters_getOrCreate _ rfl
        rfl rfl)
  | xdel key | xtrim key =>
      exact .reply ((getOrCreateStream_fetches e c key).update_counts counters_getOrCreate rfl rfl
        rfl)
  | jsonget key =>
      exact .reply ((getOrCreateJson_fetches e c key).guarded_counts counters_getOrCreate
        (answer_snd _) rfl rfl rfl)
  | vecget key =>
      exact .reply ((getOrCreateVector_fetches e c key 0).guarded_counts counters_getOrCreate
        (answer_snd _) rfl rfl rfl)
  | vecsearch key query =>
      exact .reply ((getOrCreateVector_fetches e c key query.length).guarded_counts
        counters_getOrCreate (answer_snd _) rfl rfl rfl)
  | vecdel key =>
      exact .reply ((getOrCreateVector_fetches e c key 0).update_counts counters_getOrCreate rfl rfl
        rfl)
  | vecsize key =>
      exact .reply ((getOrCreateVector_fetches e c key 0).answer_counts counters_getOrCreate _ rfl
        rfl rfl)

/-! ## the pass -/

/-- Choosing a victim counts nothing. -/
theorem counters_victim (c : Call) (e : Engine E) (i : Nat) (candidates : List Bytes) :
    (e.victim c i candidates).2.counters = e.counters := by
  rw [victim_snd]
  rfl

theorem counters_evictKey (ok : Bool) (t : KeyType) (key : Bytes) :
    (e.evictKey ok t key).counters = e.counters := by
  unfold evictKey
  cases e.find t key with
  | none => rfl
  | some v => exact counters_rocksPut (E := E) ok (serialize t v)

/-- So the loop leaves the counters. -/
theorem counters_evictLoop {limit : Int} {candidates : List Bytes} {n i : Nat} {evicted : Int}
    (hfresh : ∀ k, (e.slot k).expired c.now = false) :
    (evictLoop c limit candidates n i evicted e).2.counters = e.counters := by
  induction n generalizing i evicted e with
  | zero => rfl
  | succ n ih =>
      rw [evictLoop_succ]
      split
      · have hround := round_is c candidates i hfresh
        generalize e.round c candidates i = r at hround
        cases hround with
        | stop hvictim => exact counters_victim c e i candidates
        | skip key hvictim hkey =>
            exact (ih (fresh_victim hfresh)).trans (counters_victim c e i candidates)
        | evict key m hvictim hm htype =>
            have hleaves := evictKey_victim_leaves c e i candidates (c.putOk (i + 1)) m.type key
            calc
              _ = _ := ih (fresh_evict hfresh hleaves)
              _ = _ := counters_evictKey _ _ _
              _ = _ := counters_victim c e i candidates
      · rfl

theorem counters_cleanupKey (now : Int) (acc : Int × Engine E) (key : Bytes) :
    (cleanupKey now acc key).2.counters = acc.2.counters := by
  unfold cleanupKey
  split
  · rename_i e' heq
    exact congrArg (fun res : Bool × Engine E => res.2.counters) heq.symm
  · rename_i e' heq
    exact congrArg (fun res : Bool × Engine E => res.2.counters) heq.symm

/-- A cleanup counts the keys it found expired. -/
theorem counters_cleanupExpired (c : Call) (e : Engine E) :
    (e.cleanupExpired c).2.counters =
      { e.counters with expired := e.expired + (e.cleanupExpired c).1 } := by
  have hloop : ∀ (keys : List Bytes) (acc : Int × Engine E),
      (keys.foldl (cleanupKey c.now) acc).2.counters = acc.2.counters := by
    intro keys acc
    induction keys generalizing acc with
    | nil => rfl
    | cons key keys ih => exact (ih _).trans (counters_cleanupKey c.now acc key)
  have hcounters := hloop e.metas.keys (0, e)
  have hexpired : (e.metas.keys.foldl (cleanupKey c.now) (0, e)).2.expired = e.expired :=
    congrArg Counters.expired hcounters
  have hother := congrArg (fun cs : Counters => { cs with
    expired := e.expired + (e.cleanupExpired c).1 }) hcounters
  refine Eq.trans ?_ hother
  unfold cleanupExpired counters
  dsimp only
  rw [hexpired]

/-- A pass counts those and the keys it evicted. -/
theorem counters_checkMemoryAndEvict (c : Call) (e : Engine E) :
    (e.checkMemoryAndEvict c).counters =
      { e.counters with
        evicted := e.evicted + ((e.evictedKeys c).length : Nat)
        expired := e.expired + (e.cleanupExpired c).1 } := by
  have hclean := counters_cleanupExpired c e
  have hevicted : (e.checkMemoryAndEvict c).counters.evicted = _ := evicted_checkMemoryAndEvict
  by_cases h : e.Evicts c
  · have hloop : (e.afterRounds c (e.maxEvict c)).2.counters = _ :=
      (counters_evictLoop (fresh_cleanupExpired e c)).trans hclean
    have hother : (e.checkMemoryAndEvict c).counters =
        { (e.afterRounds c (e.maxEvict c)).2.counters with
          evicted := (e.checkMemoryAndEvict c).counters.evicted } := by
      rw [h.eq.1]
      rfl
    rw [hother, hloop, hevicted]
  · have hother : (e.checkMemoryAndEvict c).counters =
        { (e.cleanupExpired c).2.counters with
          evicted := (e.checkMemoryAndEvict c).counters.evicted } := by
      rw [(eq_of_not_evicts h).1]
    rw [hother, hclean, hevicted]

/-! ## the keys -/

/-- The keys with metadata. -/
def registered (e : Engine E) : Finset Bytes := e.metas.keys.toFinset

/-- The keys with metadata are as many as `count` says. -/
theorem card_registered (e : Engine E) : e.registered.card = e.count :=
  List.toFinset_card_of_nodup e.metas.keys_nodup

/-- A key is registered if its slot has metadata. -/
theorem mem_registered : k ∈ e.registered ↔ (e.slot k).metadata ≠ none := by
  rw [registered, List.mem_toFinset, mem_keys_iff]

/-- Engines with the same slots have the same keys registered. -/
theorem registered_congr (h : e'.slot = e.slot) : e'.registered = e.registered := by
  ext k
  rw [mem_registered, mem_registered, h]

/-- Every key that cleanup drops is counted. -/
theorem count_cleanupExpired (c : Call) (e : Engine E) :
    ((e.cleanupExpired c).2.count : Int) + (e.cleanupExpired c).1 = e.count := by
  have hkept : (e.cleanupExpired c).2.registered =
      e.registered.filter fun k => ¬ (e.slot k).expired c.now = true := by
    ext k
    rw [Finset.mem_filter, mem_registered, mem_registered, slot_cleanupExpired]
    cases (e.slot k).expired c.now <;> simp [Slot.empty]
  have hdropped : (e.metas.keys.filter fun k => (e.slot k).expired c.now).length =
      (e.registered.filter fun k => (e.slot k).expired c.now = true).card := by
    rw [registered, ← List.toFinset_filter]
    exact (List.toFinset_card_of_nodup (e.metas.keys_nodup.filter _)).symm
  rw [cleanupExpired_fst, hdropped, ← card_registered, ← card_registered, hkept]
  have hsplit := Finset.card_filter_add_card_filter_not (s := e.registered)
    fun k => (e.slot k).expired c.now = true
  omega

/-- Every key that a pass drops is counted. -/
theorem count_checkMemoryAndEvict (c : Call) (e : Engine E) :
    ((e.checkMemoryAndEvict c).count : Int) + ((e.evictedKeys c).length : Nat) +
      (e.cleanupExpired c).1 = e.count := by
  have hpass := checkMemoryAndEvict_evicted c e
  have hnodup : (e.evictedKeys c).Nodup := (e.cleanupExpired c).2.metas.keys_nodup.filter _
  have hkept : (e.checkMemoryAndEvict c).registered =
      (e.cleanupExpired c).2.registered \ (e.evictedKeys c).toFinset := by
    ext k
    rw [Finset.mem_sdiff, mem_registered, mem_registered, List.mem_toFinset, mem_evictedKeys]
    by_cases hk : ∃ i, (i, k) ∈ e.evictedBy c
    · obtain ⟨i, hi⟩ := hk
      obtain ⟨m, hm, hslot⟩ := hpass.dropped i k hi
      have hnone : ((e.checkMemoryAndEvict c).slot k).metadata = none := by
        rw [hslot]
        rfl
      exact iff_of_false (fun h => h hnone) fun h => h.2 ⟨i, hi⟩
    · rw [hpass.kept k (not_exists.mp hk)]
      exact ⟨fun h => ⟨h, hk⟩, fun h => h.1⟩
  have hsub : (e.evictedKeys c).toFinset ⊆ (e.cleanupExpired c).2.registered := by
    intro k hk
    exact List.mem_toFinset.mpr (List.mem_filter.mp (List.mem_toFinset.mp hk)).1
  have hcard := Finset.card_sdiff_add_card_eq_card hsub
  rw [← hkept, card_registered, card_registered, List.toFinset_card_of_nodup hnodup] at hcard
  have hclean := count_cleanupExpired c e
  omega

/-- The operation registers a key that was not. -/
def arrives (e : Engine E) (i : Call × Op) : Bool :=
  i.2.key.any fun k => (e.slot k).metadata.isNone && (e.acted i.1 i.2 k).metadata.isSome

/-- The operation forgets a key that was registered. -/
def departs (e : Engine E) (i : Call × Op) : Bool :=
  i.2.key.any fun k => (e.slot k).metadata.isSome && (e.acted i.1 i.2 k).metadata.isNone

def arrival (e : Engine E) (i : Call × Op) : Int := if e.arrives i then 1 else 0

def departure (e : Engine E) (i : Call × Op) : Int := if e.departs i then 1 else 0

/-- The keys registered after an operation. -/
theorem mem_registered_acted (h : e'.slot = e.acted c op) :
    k ∈ e'.registered ↔ (e.acted c op k).metadata ≠ none := by
  rw [mem_registered, h]

/-- Before the pass only the key of the operation comes or goes. -/
theorem count_acted (h : e'.slot = e.acted c op) :
    (e'.count : Int) + e.departure (c, op) = e.count + e.arrival (c, op) := by
  rw [← card_registered, ← card_registered]
  unfold departure arrival departs arrives
  cases hkey : op.key with
  | none =>
      have hslot : e'.slot = e.slot := by rw [h, acted, hkey]
      rw [registered_congr hslot]
      rfl
  | some key =>
      have hother : ∀ k, k ≠ key → (k ∈ e'.registered ↔ k ∈ e.registered) := by
        intro k hk
        have hne : op.key ≠ some k := by
          rw [hkey]
          exact fun heq => hk (Option.some.inj heq).symm
        rw [mem_registered_acted h, mem_registered, acted_of_ne hne]
      have hdeparts : ((e.slot key).metadata.isSome && (e.acted c op key).metadata.isNone) = true ↔
          key ∈ e.registered ∧ key ∉ e'.registered := by
        rw [mem_registered, mem_registered_acted h, Bool.and_eq_true, Option.isSome_iff_ne_none,
          Option.isNone_iff_eq_none, not_not]
      have harrives : ((e.slot key).metadata.isNone && (e.acted c op key).metadata.isSome) = true ↔
          key ∈ e'.registered ∧ key ∉ e.registered := by
        rw [mem_registered_acted h, mem_registered, Bool.and_eq_true, Option.isSome_iff_ne_none,
          Option.isNone_iff_eq_none, not_not, and_comm]
      simp only [Option.any_some, hdeparts, harrives]
      exact card_of_agree hother

/-! ## a run -/

/-- The keys there are and those whose going was counted. -/
def balance (e : Engine E) : Int := e.count + e.evicted + e.expired

/-- An operation counts no eviction and no expiry. -/
theorem counted_evicted (c : Call) (e : Engine E) (op : Op) :
    (e.counted c op).evicted = e.evicted ∧ (e.counted c op).expired = e.expired := by
  unfold counted
  split
  · exact ⟨rfl, rfl⟩
  · split <;> exact ⟨rfl, rfl⟩
  · exact ⟨rfl, rfl⟩

/-- What an operation does to the balance, before the pass. -/
theorem Counts.balance_eq (h : Counts c op e e') :
    e'.balance = e.balance + (e.arrival (c, op) - e.departure (c, op)) := by
  have hcount := count_acted h.slot
  have hevicted : e'.evicted = e.evicted :=
    (congrArg Counters.evicted h.counters).trans (counted_evicted c e op).1
  have hexpired : e'.expired = e.expired :=
    (congrArg Counters.expired h.counters).trans (counted_evicted c e op).2
  unfold balance
  rw [hevicted, hexpired]
  omega

/-- A pass keeps the balance. -/
theorem balance_checkMemoryAndEvict (c : Call) (e : Engine E) :
    (e.checkMemoryAndEvict c).balance = e.balance := by
  have hcount := count_checkMemoryAndEvict c e
  have hcounters := counters_checkMemoryAndEvict c e
  have hevicted : (e.checkMemoryAndEvict c).evicted = _ := congrArg Counters.evicted hcounters
  have hexpired : (e.checkMemoryAndEvict c).expired = _ := congrArg Counters.expired hcounters
  unfold balance
  rw [hevicted, hexpired]
  dsimp only
  omega

/-- A cleanup leaves the balance. -/
theorem balance_cleanupExpired (c : Call) (e : Engine E) :
    (e.cleanupExpired c).2.balance = e.balance := by
  have hcount := count_cleanupExpired c e
  have hcounters := counters_cleanupExpired c e
  have hevicted : (e.cleanupExpired c).2.evicted = _ := congrArg Counters.evicted hcounters
  have hexpired : (e.cleanupExpired c).2.expired = _ := congrArg Counters.expired hcounters
  unfold balance
  rw [hevicted, hexpired]
  dsimp only [counters]
  omega

/-- A step changes it by the key that came or was forgotten. -/
theorem step_balance (e : Engine E) (i : Call × Op) :
    (e.step i).2.balance = e.balance + (e.arrival i - e.departure i) := by
  obtain ⟨c, op⟩ := i
  have hcounted := step_counted e c op
  generalize (e.step (c, op)).2 = e' at hcounted
  cases hcounted with
  | quiet h => exact h.balance_eq
  | sweep h => rw [balance_checkMemoryAndEvict, h.balance_eq]
  | cleanup hop =>
      subst hop
      rw [balance_cleanupExpired]
      exact (Int.add_zero _).symm

/-- The kinds of calls that are counted one by one. -/
def isPut : Call × Op → Reply → Bool
  | (_, .put _ _), _ => true
  | _, _ => false

def isGet : Call × Op → Reply → Bool
  | (_, .get _), _ => true
  | _, _ => false

/-- A `get` that is answered with a value. -/
def isHit : Call × Op → Reply → Bool
  | (_, .get _), .bytesOption value => value.isSome
  | _, _ => false

def isMiss : Call × Op → Reply → Bool
  | (_, .get _), .bytesOption value => value.isNone
  | _, _ => false

/-- The calls of a kind in a run. -/
def calls (kind : Call × Op → Reply → Bool) (ops : List (Call × Op)) (outs : List Reply) : Nat :=
  (ops.zip outs).countP fun io => kind io.1 io.2

/-- What a step adds to the counters of calls. -/
structure Marked (i : Call × Op) (out : Reply) (cs cs' : Counters) : Prop where
  putCount : cs'.putCount = cs.putCount + if isPut i out then 1 else 0
  getCount : cs'.getCount = cs.getCount + if isGet i out then 1 else 0
  hits : cs'.hits = cs.hits + if isHit i out then 1 else 0
  misses : cs'.misses = cs.misses + if isMiss i out then 1 else 0

/-- An operation marks the call it is. -/
theorem marked_counted (e : Engine E) (i : Call × Op) :
    Marked i (e.step i).1 e.counters (e.counted i.1 i.2) := by
  obtain ⟨c, op⟩ := i
  cases op with
  | put key value =>
      exact ⟨rfl, (Int.add_zero _).symm, (Int.add_zero _).symm, (Int.add_zero _).symm⟩
  | get key =>
      have hout : (e.step (c, .get key)).1 = .bytesOption (e.get c key).1 := rfl
      rw [hout]
      unfold counted answers
      dsimp only
      cases (e.get c key).1 with
      | none => exact ⟨(Int.add_zero _).symm, rfl, (Int.add_zero _).symm, rfl⟩
      | some value => exact ⟨(Int.add_zero _).symm, rfl, rfl, (Int.add_zero _).symm⟩
  | _ =>
      exact ⟨(Int.add_zero _).symm, (Int.add_zero _).symm, (Int.add_zero _).symm,
        (Int.add_zero _).symm⟩

/-- No pass counts a call. -/
theorem Marked.of_calls {i : Call × Op} {out : Reply} {cs cs₁ cs' : Counters}
    (h : Marked i out cs cs₁) (hcalls : ∃ evicted expired,
      cs' = { cs₁ with evicted := evicted, expired := expired }) : Marked i out cs cs' := by
  obtain ⟨evicted, expired, rfl⟩ := hcalls
  exact ⟨h.putCount, h.getCount, h.hits, h.misses⟩

/-- A step marks its call, its pass notwithstanding. -/
theorem step_marked (e : Engine E) (i : Call × Op) :
    Marked i (e.step i).1 e.counters (e.step i).2.counters := by
  have hmarked := marked_counted e i
  obtain ⟨c, op⟩ := i
  have hcounted := step_counted e c op
  generalize (e.step (c, op)).2 = e' at hcounted
  cases hcounted with
  | quiet h =>
      rw [h.counters]
      exact hmarked
  | @sweep e₁ h => exact hmarked.of_calls ⟨_, _, h.counters ▸ counters_checkMemoryAndEvict c e₁⟩
  | cleanup hop =>
      subst hop
      exact hmarked.of_calls ⟨_, _, counters_cleanupExpired c e⟩

/-- **The statistics are exact.**  After every run from a new engine `put_count` and `get_count` are
the numbers of `put` and `get` calls, `hits` and `misses` those of the `get` calls answered with and
without a value; and the keys there are, with the evicted and the expired ones counted, are those
that operations registered less those that operations forgot. -/
theorem stats_exact (opts : Options) (stored : Option (Dict Bytes Bytes))
    (ops : List (Call × Op)) (c : Call) :
    let res := run step (new E opts stored) ops
    let stats := res.2.stats c
    stats.putCount = calls isPut ops res.1 ∧ stats.getCount = calls isGet ops res.1 ∧
      stats.hits = calls isHit ops res.1 ∧ stats.misses = calls isMiss ops res.1 ∧
      stats.keyCount + stats.evicted + stats.expired +
          total step departure (new E opts stored) ops =
        total step arrival (new E opts stored) ops := by
  intro res stats
  have hfinal : res.2 = final step (new E opts stored) ops := rfl
  have hcalls : ∀ (kind : Call × Op → Reply → Bool) (measure : Engine E → Int),
      measure (new E opts stored) = 0 →
      (∀ e i, measure (step e i).2 = measure e + if kind i (step e i).1 then 1 else 0) →
      measure res.2 = calls kind ops res.1 := by
    intro kind measure hnew hstep
    rw [hfinal, measure_final hstep, hnew, total_run, Int.zero_add]
    rfl
  refine ⟨hcalls isPut putCount rfl fun e i => (step_marked e i).putCount,
    hcalls isGet getCount rfl fun e i => (step_marked e i).getCount,
    hcalls isHit hits rfl fun e i => (step_marked e i).hits,
    hcalls isMiss misses rfl fun e i => (step_marked e i).misses, ?_⟩
  have hbalance : res.2.balance = _ :=
    measure_final (fun e i => step_balance e i) ops
  rw [total_sub] at hbalance
  have hnew : (new E opts stored).balance = 0 := rfl
  have hstats : stats.keyCount + stats.evicted + stats.expired = res.2.balance := rfl
  rw [hstats, hbalance, hnew]
  ring

/-- Two puts, a hit and a miss, and a key deleted. -/
example :
    let c := Call.ofNow 7
    let ops := [(c, Op.put [1] [5]), (c, .put [2] [6]), (c, .get [1]), (c, .get [3]), (c, .del [2])]
    (final step (new Env.bare ⟨[], 0, .k2Q⟩ none) ops).counters = ⟨2, 2, 1, 1, 0, 0⟩ := by
  decide +kernel

end Engine

end AstraKV
