import AstraKV.Engine.Kind
import AstraKV.Engine.Pass

/-!
# AstraKV.Engine.Diskless

RocksDB behind an engine that never evicts.  A record is looked at only where
the map has no value, and while each key is used as one type a key with a
record has one; so nothing that is answered comes from a record.

This holds whichever of the `Put` calls fail, since a value in the map hides
what its record should have been.  It does not hold if a `Delete` fails: the
record is there when the value and the metadata are gone, and the next read
loads it.

The engine without RocksDB is the same engine with the store taken away
(`diskless`), and every operation is shown to commute with taking it away as
long as the slot of its key is `Shadowed`: there is a value of the type asked
for, or no record. Passes keep that under no memory limit, because only an
eviction would leave a record without its value. `Fronted` asks it of every
key, with the type that the key is used as.
-/

namespace AstraKV

open Slot Machine

variable {E : Env}

/-! ## records behind values -/

namespace Slot

variable {s s' : Slot E} {t : KeyType} {c : Call} {disk ok : Bool}

/-- The map of type `t` has a value wherever there is a record. -/
def Shadowed (t : KeyType) (s : Slot E) : Prop := s.value t = none → s.record = none

/-- With no record there is nothing to shadow. -/
theorem shadowed_empty : (empty : Slot E).Shadowed t := fun _ => rfl

/-- A value shadows any record. -/
theorem shadowed_of_value {v : Value E t} (h : s.value t = some v) : s.Shadowed t := fun hnone =>
  nomatch h.symm.trans hnone

/-- Storing a value shadows the record written. -/
theorem shadowed_store (s : Slot E) (res : Bool × Value E t) :
    (store disk ok s t res).Shadowed t := by
  refine shadowed_of_value (v := res.2) ?_
  rw [store_eq]
  exact value_set_self

/-- Forgetting metadata uncovers no record. -/
theorem Shadowed.check (h : s.Shadowed t) (now : Int) : (s.check now).Shadowed t := by
  unfold Shadowed
  rwa [value_check, record_check]

theorem Shadowed.fetch (h : s.Shadowed t) (dim : Nat) : (s.fetch c t dim).Shadowed t := by
  unfold Slot.fetch
  split
  · exact shadowed_of_value value_set_self
  · exact h

theorem Shadowed.change (h : s.Shadowed t) (f : Value E t → Bool × Value E t) :
    (Slot.change disk ok s t f).Shadowed t := by
  unfold Slot.change
  split
  · exact h
  · exact shadowed_store s _

/-- An operation of the key's type keeps a value in front of the record. -/
theorem Shadowed.act (h : s.Shadowed t) {shape : Shape E}
    (hkind : ∀ t', shape.kind? = some t' → t' = t) : (s.act c disk shape).Shadowed t := by
  cases shape with
  | idle => exact h
  | check => exact h.check c.now
  | expire ms =>
      simp only [Slot.act]
      split
      · exact h
      · exact h.check c.now
  | get =>
      obtain rfl := hkind _ rfl
      simp only [Slot.act]
      split
      · split
        · exact h
        · rename_i record _ _
          have hset : (s.set .kBytes record).value .kBytes = some record := value_set_self
          exact shadowed_of_value hset
        · exact h
      · exact h.check c.now
  | put value =>
      obtain rfl := hkind _ rfl
      have hset : (s.set .kBytes value).value .kBytes = some value := value_set_self
      exact shadowed_of_value ((congrFun value_save _).trans hset)
  | del => exact shadowed_empty
  | jsondel => exact fun _ => rfl
  | read guarded t' dim =>
      obtain rfl := hkind _ rfl
      simp only [Slot.act]
      split
      · exact h.check c.now
      · exact h.fetch dim
  | update t' dim f =>
      obtain rfl := hkind _ rfl
      exact (h.fetch dim).change f
  | change t' f =>
      obtain rfl := hkind _ rfl
      exact h.change f
  | edit t' fresh f =>
      obtain rfl := hkind _ rfl
      simp only [Slot.act]
      split <;> exact shadowed_store _ _

theorem Swept.shadowed {o : Options} (h : Swept c o disk s s') (hmax : o.maxMb = 0)
    (hs : s.Shadowed t) : s'.Shadowed t := by
  cases h with
  | kept => exact hs
  | expired => exact shadowed_empty
  | evicted i m hlimit => exact absurd hmax hlimit

end Slot

namespace Engine

variable {e : Engine E} {α : Type} {c : Call} {op : Op} {t : KeyType} {key : Bytes} {now : Int}

/-! ## without RocksDB -/

/-- The engine with no RocksDB. -/
def diskless (e : Engine E) : Engine E := { e with rocksdb := none }

/-- An answer, and the engine left without RocksDB. -/
def without (res : α × Engine E) : α × Engine E := (res.1, res.2.diskless)

/-- The maps are those of the engine. -/
theorem find_diskless : e.diskless.find t key = e.find t key := rfl

theorem isValid_diskless : e.diskless.isValid now key = without (e.isValid now key) := rfl

/-- Without a store nothing is written. -/
theorem rocksPut_diskless (ok : Bool) (record : Bytes) :
    e.diskless.rocksPut ok key record = (e.rocksPut ok key record).diskless := by
  unfold rocksPut
  split <;> rfl

/-- Writing a record leaves the options. -/
theorem opts_rocksPut (ok : Bool) (record : Bytes) : (e.rocksPut ok key record).opts = e.opts := by
  unfold rocksPut
  split <;> rfl

/-- Accesses are recorded alike. -/
theorem recordAccess_diskless :
    e.diskless.recordAccess now key = (e.recordAccess now key).diskless := by
  unfold recordAccess
  by_cases hpolicy : e.opts.eviction = .k2Q <;> simp [diskless, hpolicy]

/-- An answer is computed alike. -/
theorem answer_without {β : Type} (absent : α) (read : β → α) (found : Option β × Engine E) :
    answer absent read (without found) = without (answer absent read found) := by
  obtain ⟨_ | v, e⟩ := found <;> rfl

/-- A guarded read commutes with taking the store away. -/
theorem guarded_diskless {absent : α} {read : Engine E → α × Engine E}
    (hread : read e.diskless = without (read e)) :
    e.diskless.guarded now key absent read = without (e.guarded now key absent read) := by
  cases hvalid : (e.slot key).valid now with
  | true =>
      have hvalid' : (e.diskless.slot key).valid now = true := hvalid
      rw [guarded_of_valid hvalid, guarded_of_valid hvalid', hread]
  | false =>
      have hvalid' : (e.diskless.slot key).valid now = false := hvalid
      rw [guarded_of_not_valid hvalid, guarded_of_not_valid hvalid']
      rfl

theorem store_diskless (ok : Bool) (keep : α → Bool) (res : α × Value E t) :
    e.diskless.store ok t key keep res = without (e.store ok t key keep res) := by
  unfold store without
  dsimp only
  split
  · exact Prod.ext rfl (rocksPut_diskless (e := e.insert t key res.2) ok _)
  · rfl

theorem update_without (ok : Bool) (absent : α) (change : Value E t → α × Value E t)
    (keep : α → Bool) (found : Option (Value E t) × Engine E) :
    update ok t key absent change keep (without found) =
      without (update ok t key absent change keep found) := by
  obtain ⟨_ | v, e⟩ := found
  · rfl
  · exact store_diskless ok keep (change v)

theorem edit_diskless (ok : Bool) {fresh fresh' : Value E t}
    (hfresh : e.find t key = none → fresh' = fresh) (change : Value E t → α × Value E t)
    (keep : α → Bool) :
    e.diskless.edit ok t key fresh' change keep =
      without (e.edit ok t key fresh change keep) := by
  unfold edit
  rw [find_diskless]
  cases hvalue : e.find t key with
  | some v => exact store_diskless ok keep _
  | none =>
      rw [hfresh hvalue]
      exact store_diskless (e := (e.insert t key fresh).registerKey key t) ok keep _

theorem cleanupKey_without (acc : Int × Engine E) (key : Bytes) :
    cleanupKey now (without acc) key = without (cleanupKey now acc key) := by
  unfold cleanupKey
  dsimp only [without]
  rw [isValid_diskless]
  obtain ⟨_ | _, e⟩ := acc.2.isValid now key <;> rfl

theorem cleanupExpired_diskless (c : Call) (e : Engine E) :
    e.diskless.cleanupExpired c = without (e.cleanupExpired c) := by
  have hloop : e.metas.keys.foldl (cleanupKey c.now) (without (0, e)) =
      without (e.metas.keys.foldl (cleanupKey c.now) (0, e)) :=
    List.foldl_hom without cleanupKey_without
  unfold cleanupExpired
  exact congrArg (fun res : Int × Engine E =>
    (res.1, { res.2 with expired := res.2.expired + res.1 })) hloop

/-- Without a limit the pass is the cleanup. -/
theorem checkMemoryAndEvict_of_maxMb (hmax : e.opts.maxMb = 0) :
    e.checkMemoryAndEvict c = (e.cleanupExpired c).2 :=
  (eq_of_not_evicts fun h => h.limited hmax).1

theorem checkMemoryAndEvict_diskless (hmax : e.opts.maxMb = 0) :
    e.diskless.checkMemoryAndEvict c = (e.checkMemoryAndEvict c).diskless := by
  rw [checkMemoryAndEvict_of_maxMb hmax, checkMemoryAndEvict_of_maxMb (e := e.diskless) hmax,
    cleanupExpired_diskless]
  rfl

theorem write_diskless (hmax : e.opts.maxMb = 0) (fresh : Value E t)
    (change : Value E t → α × Value E t) (keep : α → Bool) :
    e.diskless.write c t key fresh change keep =
      without (e.write c t key fresh change keep) := by
  have hopts := (edit_leaves e c key (fun _ => fresh) change keep).opts
  unfold write
  rw [edit_diskless (c.putOk 0) (fun _ => rfl)]
  refine Prod.ext rfl (checkMemoryAndEvict_diskless ?_)
  rw [hopts, hmax]

theorem put_diskless (hmax : e.opts.maxMb = 0) (value : Bytes) :
    e.diskless.put c key value = without (e.put c key value) := by
  unfold put
  refine Prod.ext rfl ?_
  dsimp only [without]
  rw [← checkMemoryAndEvict_diskless, ← rocksPut_diskless]
  · rfl
  · rw [opts_rocksPut]
    exact hmax

/-! ## what is looked up -/

/-- With no record there is nothing to load. -/
theorem load_absent {β : Type} (h : e.rocksGet key = none)
    (deserialize : Bytes → β → Bool × β) (x : β) : e.load key deserialize x = (false, x) := by
  unfold load
  rw [h]

section Loads

variable {deserialize : Bytes → Value E t → Bool × Value E t} {x : Value E t} {absent : α}

/-- Where the slot is shadowed, looking a value up finds the same. -/
theorem getOrCreate_diskless (h : (e.slot key).Shadowed t) :
    e.diskless.getOrCreate t key (e.diskless.load key deserialize x) =
      without (e.getOrCreate t key (e.load key deserialize x)) := by
  unfold getOrCreate
  rw [find_diskless]
  cases hvalue : e.find t key with
  | some v => rfl
  | none =>
      rw [load_absent (h hvalue), load_absent rfl]
      rfl

/-- Reading it answers the same. -/
theorem read_diskless (h : (e.slot key).Shadowed t) (read : Value E t → α) :
    answer absent read (e.diskless.getOrCreate t key (e.diskless.load key deserialize x)) =
      without (answer absent read (e.getOrCreate t key (e.load key deserialize x))) := by
  rw [getOrCreate_diskless h, answer_without]

/-- Changing it does the same. -/
theorem change_diskless (h : (e.slot key).Shadowed t) (ok : Bool)
    (change : Value E t → α × Value E t) (keep : α → Bool) :
    update ok t key absent change keep
        (e.diskless.getOrCreate t key (e.diskless.load key deserialize x)) =
      without (update ok t key absent change keep
        (e.getOrCreate t key (e.load key deserialize x))) := by
  rw [getOrCreate_diskless h, update_without]

end Loads

/-- A hit does the same. -/
theorem hit_diskless : e.diskless.hit c key = (e.hit c key).diskless := by
  unfold hit
  rw [recordAccess_diskless]
  rfl

theorem lookUp_diskless (h : (e.slot key).Shadowed .kBytes) :
    e.diskless.lookUp c key = without (e.lookUp c key) := by
  unfold lookUp
  rw [isValid_diskless]
  cases hvalid : (e.slot key).valid c.now with
  | true =>
      rw [isValid_of_valid hvalid]
      dsimp only [without]
      rw [find_diskless]
      cases hvalue : e.find .kBytes key with
      | some value => exact Prod.ext rfl hit_diskless
      | none =>
          have hrecord : e.rocksGet key = none := h hvalue
          dsimp only
          rw [hrecord]
          rfl
  | false =>
      have hcheck : e.isValid c.now key = (false, (e.isValid c.now key).2) :=
        Prod.ext ((isValid_fst c.now).trans hvalid) rfl
      rw [hcheck]
      rfl

/-- Without a hash in the map there is no record to begin from. -/
theorem loadHash_diskless (h : (e.slot key).Shadowed .kHash) (hnone : e.find .kHash key = none) :
    (e.diskless.loadHash key ∅).2 = (e.loadHash key ∅).2 := by
  unfold loadHash
  rw [load_absent (h hnone), load_absent rfl]

/-- `jsonset` does the same. -/
theorem jsonset_diskless (path json : Bytes) :
    e.diskless.jsonset c key path json = without (e.jsonset c key path json) := by
  unfold jsonset
  split
  · rfl
  · exact edit_diskless (t := .kJson) _ (fun _ => rfl) _ _

theorem jsondel_diskless (path : Bytes) :
    e.diskless.jsondel key path = without (e.jsondel key path) := by
  unfold jsondel
  split <;> rfl

theorem astrakvHgetall_diskless (h : (e.slot key).Shadowed .kHash) :
    e.diskless.astrakvHgetall key = without (e.astrakvHgetall key) := by
  have hread : e.diskless.forEachHash key = without (e.forEachHash key) :=
    read_diskless h fieldsOf
  unfold astrakvHgetall
  rw [hread]
  rfl

theorem astrakvSmembers_diskless (h : (e.slot key).Shadowed .kSet) :
    e.diskless.astrakvSmembers key = without (e.astrakvSmembers key) := by
  have hread : e.diskless.forEachSet key = without (e.forEachSet key) :=
    read_diskless h AList.keys
  unfold astrakvSmembers
  rw [hread]
  rfl

/-! ## steps -/

/-- A step is the same without RocksDB, if there is a value in front of the record of its key. -/
theorem step_diskless (hmax : e.opts.maxMb = 0)
    (h : ∀ k t, op.key = some k → op.kind? = some t → (e.slot k).Shadowed t) :
    e.diskless.step (c, op) = without (e.step (c, op)) := by
  cases op with
  | put key value => exact congrArg (reply .bool) (put_diskless hmax value)
  | get key =>
      exact congrArg (reply .bytesOption)
        (lookUp_diskless (e := { e with getCount := e.getCount + 1 }) (h key _ rfl rfl))
  | del | existsKey | type | allEntries | allKeys | count | memoryUsage | setEviction => rfl
  | expire key ms => exact congrArg (reply .bool) (guarded_diskless rfl)
  | ttl key => exact congrArg (reply .intOption) (guarded_diskless rfl)
  | zadd key member score => exact congrArg (reply .bool) (write_diskless hmax _ _ _)
  | zscore key member =>
      exact congrArg (reply .score) (guarded_diskless (read_diskless (h key _ rfl rfl) _))
  | zrem key member =>
      exact congrArg (reply .bool)
        (update_without (t := .kZSet) (c.putOk 0) false _ _ (e.find .kZSet key, e))
  | zcard key => exact congrArg (reply .int) (read_diskless (h key _ rfl rfl) _)
  | zrange key start stop reverse =>
      exact congrArg (reply .scored) (read_diskless (h key _ rfl rfl) _)
  | zrangebyscore key min max =>
      exact congrArg (reply .scored) (read_diskless (h key _ rfl rfl) _)
  | lpush key value => exact congrArg (reply .bool) (write_diskless hmax _ _ _)
  | rpush key value => exact congrArg (reply .bool) (write_diskless hmax _ _ _)
  | lpop key => exact congrArg (reply .bytesOption) (change_diskless (h key _ rfl rfl) _ _ _)
  | rpop key => exact congrArg (reply .bytesOption) (change_diskless (h key _ rfl rfl) _ _ _)
  | llen key => exact congrArg (reply .int) (read_diskless (h key _ rfl rfl) _)
  | hset key field value => exact congrArg (reply .bool) (write_diskless hmax _ _ _)
  | hget key field =>
      exact congrArg (reply .bytesOption) (guarded_diskless (read_diskless (h key _ rfl rfl) _))
  | hdel key field => exact congrArg (reply .bool) (change_diskless (h key _ rfl rfl) _ _ _)
  | hexists key field =>
      exact congrArg (reply .bool) (guarded_diskless (read_diskless (h key _ rfl rfl) _))
  | hgetall key =>
      exact congrArg (reply .fields) (guarded_diskless (read_diskless (h key _ rfl rfl) _))
  | hlen key => exact congrArg (reply .int) (read_diskless (h key _ rfl rfl) _)
  | hincrby key field delta =>
      exact congrArg (reply .intOption)
        (edit_diskless (t := .kHash) _ (loadHash_diskless (h key _ rfl rfl)) _ _)
  | sadd key member => exact congrArg (reply .bool) (write_diskless hmax _ _ _)
  | srem key member => exact congrArg (reply .bool) (change_diskless (h key _ rfl rfl) _ _ _)
  | sismember key member =>
      exact congrArg (reply .bool) (guarded_diskless (read_diskless (h key _ rfl rfl) _))
  | smembers key =>
      exact congrArg (reply .members) (guarded_diskless (read_diskless (h key _ rfl rfl) _))
  | scard key => exact congrArg (reply .int) (read_diskless (h key _ rfl rfl) _)
  | xadd key id fields => exact congrArg (reply .bytes) (write_diskless hmax _ _ _)
  | xread key startId count =>
      exact congrArg (reply .entries) (guarded_diskless (read_diskless (h key _ rfl rfl) _))
  | xrange key startId endId count =>
      exact congrArg (reply .entries) (guarded_diskless (read_diskless (h key _ rfl rfl) _))
  | xlen key => exact congrArg (reply .int) (read_diskless (h key _ rfl rfl) _)
  | xdel key id => exact congrArg (reply .bool) (change_diskless (h key _ rfl rfl) _ _ _)
  | xtrim key maxlen =>
      exact congrArg (reply fun removed : Nat => .int removed)
        (change_diskless (h key _ rfl rfl) _ _ _)
  | jsonset key path json => exact congrArg (reply .bool) (jsonset_diskless path json)
  | jsonget key path =>
      exact congrArg (reply .bytesOption) (guarded_diskless (read_diskless (h key _ rfl rfl) _))
  | jsondel key path => exact congrArg (reply .bool) (jsondel_diskless path)
  | vecadd key id vec => exact congrArg (reply .bool) (write_diskless hmax _ _ _)
  | vecget key id =>
      exact congrArg (reply .vector) (guarded_diskless (read_diskless (h key _ rfl rfl) _))
  | vecdel key id => exact congrArg (reply .bool) (change_diskless (h key _ rfl rfl) _ _ _)
  | vecsearch key query k =>
      exact congrArg (reply .nearest) (guarded_diskless (read_diskless (h key _ rfl rfl) _))
  | vecsize key => exact congrArg (reply .int) (read_diskless (h key _ rfl rfl) _)
  | cleanupExpired => exact congrArg (reply .int) (cleanupExpired_diskless c e)
  | astrakvHgetall key =>
      exact congrArg (reply .bytes) (astrakvHgetall_diskless (h key _ rfl rfl))
  | astrakvSmembers key =>
      exact congrArg (reply .bytes) (astrakvSmembers_diskless (h key _ rfl rfl))
  | astrakvHscan key => exact congrArg (reply .fields) (read_diskless (h key _ rfl rfl) _)
  | astrakvSscan key => exact congrArg (reply .members) (read_diskless (h key _ rfl rfl) _)

/-! ## runs -/

variable {kind : Bytes → KeyType}

/-- Every key has a value of its type in front of its record. -/
def Fronted (kind : Bytes → KeyType) (e : Engine E) : Prop := ∀ k, (e.slot k).Shadowed (kind k)

/-- A new engine has no records. -/
theorem fronted_new (opts : Options) (kind : Bytes → KeyType) :
    (new E opts (some ∅)).Fronted kind := by
  intro k _
  show (new E opts (some ∅)).rocksGet k = none
  unfold rocksGet new
  dsimp only
  split <;> rfl

/-- A step of the right kind leaves every record behind a value. -/
theorem Fronted.step (h : e.Fronted kind) (hmax : e.opts.maxMb = 0) (hop : op.OfKind kind) :
    (e.step (c, op)).2.Fronted kind := by
  intro k
  refine (step_steps e c op).keeps (I := Shadowed (kind k)) (h k) (fun hkey => ?_)
    fun s s' hswept hs => hswept.shadowed hmax hs
  exact (h k).act fun t hkind => hop k t hkey (kind_shape hkind)

/-- The engines with and without RocksDB, step by step. -/
theorem diskless_simulates (kind : Bytes → KeyType) :
    Simulates (fun i : Call × Op => i.2.OfKind kind)
      (fun (e : Engine E) e' => e' = e.diskless ∧ e.opts.maxMb = 0 ∧ e.Fronted kind) step step := by
  have hstep : ∀ (e : Engine E) (i : Call × Op), i.2.OfKind kind → e.opts.maxMb = 0 →
      e.Fronted kind → e.diskless.step i = without (e.step i) := fun e i hop hmax hfronted =>
    step_diskless hmax fun k t hkey hkind => hop k t hkey hkind ▸ hfronted k
  constructor
  · rintro e _ i hop ⟨rfl, hmax, hfronted⟩
    rw [hstep e i hop hmax hfronted]
    rfl
  · rintro e _ ⟨c, op⟩ hop ⟨rfl, hmax, hfronted⟩
    rw [hstep e (c, op) hop hmax hfronted]
    exact ⟨rfl, (step_steps e c op).maxMb.trans hmax, hfronted.step hmax hop⟩

/-- **Without a memory limit RocksDB is never seen.**  As long as each key is used as one type, an
engine whose database is empty when it opens answers every operation as one without a database,
whichever of its `Put` calls fail (a `Delete` succeeds), and the two hold the same in memory. -/
theorem rocksdb_unseen (opts : Options) (hmax : opts.maxMb = 0) (kind : Bytes → KeyType)
    (ops : List (Call × Op)) (hkind : ∀ i ∈ ops, i.2.OfKind kind) :
    (run step (new E opts (some ∅)) ops).1 = (run step (new E opts none) ops).1 ∧
      final step (new E opts none) ops = (final step (new E opts (some ∅)) ops).diskless := by
  have hnew : new E opts none = (new E opts (some ∅)).diskless := by
    unfold new diskless
    rw [ite_self]
  obtain ⟨houtput, hfinal, -⟩ :=
    (diskless_simulates kind).run ⟨hnew, hmax, fronted_new opts kind⟩ hkind
  exact ⟨houtput, hfinal⟩

/-- A write fails, a deadline passes, and the key is written again. -/
theorem rocksdb_unseen_failing :
    let c := Call.ofNow
    let ops := [({ c 5 with putOk := fun _ => false }, Op.sadd [1] [7]), (c 6, .expire [1] 8),
      (c 9, .scard [1]), (c 9, .put [2] [5]), (c 9, .scard [1]), (c 10, .sadd [1] [8]),
      (c 10, .smembers [1])]
    (run step (new Env.bare ⟨[47], 0, .k2Q⟩ (some ∅)) ops).1 =
      [.bool true, .bool true, .int 1, .bool true, .int 0, .bool true, .members [[8]]] := by
  intro c ops
  have hkind : ∀ i ∈ ops, i.2.OfKind fun k => if k = [2] then .kBytes else .kSet := by
    simp [ops, Op.OfKind, Op.key, Op.kind?]
  exact (rocksdb_unseen (E := Env.bare) ⟨[47], 0, .k2Q⟩ rfl _ ops hkind).1.trans (by decide +kernel)

end Engine

end AstraKV
