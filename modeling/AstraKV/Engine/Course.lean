import AstraKV.Engine.Sweep

/-!
# AstraKV.Engine.Course

How a step goes: an operation acts on the slot of its key and tells the 2Q
tracker, and a write ends with the pass (`step_course`, `step_steps`).

Most of what is proved about runs needs no more of a step than this: which key
it is about, what it does to that slot (`Shape`), what it tells the tracker,
and that a pass may follow. `Leaves` is the middle of it, one slot changed and
every other as before; `Fetches` is how a value is looked up; and the lemmas
go through the operations kind by kind, so that the later modules never unfold
one.
-/

namespace AstraKV

open Slot

namespace Engine

variable {E : Env} {e e' : Engine E} {c : Call} {op : Op} {t : KeyType} {key k : Bytes}

/-! ## the tracker -/

section Tracker

variable {α : Type} {absent : α} {dim : Nat}

/-- Looking a value up leaves the tracker. -/
theorem eviction2q_getOrCreate {load : Bool × Value E t} :
    (e.getOrCreate t key load).2.eviction2q = e.eviction2q := by
  unfold getOrCreate
  split
  · rfl
  · split <;> rfl

theorem eviction2q_isValid (now : Int) : (e.isValid now key).2.eviction2q = e.eviction2q := rfl

theorem eviction2q_guarded {now : Int} {read : Engine E → α × Engine E}
    (hread : (read e).2.eviction2q = e.eviction2q) :
    (e.guarded now key absent read).2.eviction2q = e.eviction2q := by
  cases hvalid : (e.slot key).valid now with
  | true => rwa [guarded_of_valid hvalid]
  | false => rw [guarded_of_not_valid hvalid, eviction2q_isValid]

theorem eviction2q_rocksPut (ok : Bool) (record : Bytes) :
    (e.rocksPut ok key record).eviction2q = e.eviction2q := by
  unfold rocksPut
  split <;> rfl

theorem eviction2q_store (ok : Bool) (keep : α → Bool) (res : α × Value E t) :
    (e.store ok t key keep res).2.eviction2q = e.eviction2q := by
  unfold store
  dsimp only
  split
  · exact eviction2q_rocksPut ok _
  · rfl

theorem eviction2q_update (ok : Bool) (change : Value E t → α × Value E t) (keep : α → Bool)
    {res : Option (Value E t) × Engine E} (hres : res.2.eviction2q = e.eviction2q) :
    (update ok t key absent change keep res).2.eviction2q = e.eviction2q := by
  unfold update
  split
  · exact hres
  · exact (eviction2q_store ok keep _).trans hres

theorem eviction2q_edit (ok : Bool) (fresh : Value E t) (change : Value E t → α × Value E t)
    (keep : α → Bool) : (e.edit ok t key fresh change keep).2.eviction2q = e.eviction2q := by
  unfold edit
  split <;> exact eviction2q_store ok keep _

/-- The 2Q tracker when an operation is done, before the pass at the end of a write. -/
def track (e : Engine E) (c : Call) : Op → Eviction2Q
  | .put key _ => e.eviction2q.recordAccess E.maxProtected key
  | .get key =>
      if (e.slot key).valid c.now ∧ (((e.slot key).value .kBytes).or (e.slot key).record).isSome ∧
          e.opts.eviction = .k2Q then
        e.eviction2q.recordAccess E.maxProtected key
      else e.eviction2q
  | .del key => e.eviction2q.removeKey key
  | _ => e.eviction2q

/-- An access is told to the tracker under the 2Q policy. -/
theorem eviction2q_recordAccess (now : Int) :
    (e.recordAccess now key).eviction2q =
      if e.opts.eviction = .k2Q then e.eviction2q.recordAccess E.maxProtected key
      else e.eviction2q := by
  unfold recordAccess
  dsimp only
  split <;> rfl

/-- `get` tells the tracker of the key it finds. -/
theorem eviction2q_lookUp (e : Engine E) (c : Call) (key : Bytes) :
    (e.lookUp c key).2.eviction2q = e.track c (.get key) := by
  have hvalue : (e.slot key).value .kBytes = e.find .kBytes key := rfl
  have hrecord : (e.slot key).record = e.rocksGet key := rfl
  unfold lookUp
  simp only [track, hvalue, hrecord]
  cases hvalid : (e.slot key).valid c.now with
  | false =>
      have hcheck : e.isValid c.now key = (false, (e.isValid c.now key).2) :=
        Prod.ext ((isValid_fst c.now).trans hvalid) rfl
      rw [hcheck, if_neg fun h => Bool.false_ne_true h.1]
      rfl
  | true =>
      rw [isValid_of_valid hvalid]
      dsimp only
      cases e.find .kBytes key with
      | some value => simp [hit, eviction2q_recordAccess]
      | none =>
          cases e.rocksGet key with
          | some bytes => simp [hit, eviction2q_recordAccess, insert]
          | none => simp [miss]

end Tracker

/-! ## a whole step -/

/-- `e'` is `e` after the operation, before a pass. -/
structure Acts (c : Call) (op : Op) (e e' : Engine E) : Prop where
  slot : e'.slot = e.acted c op
  eviction2q : e'.eviction2q = e.track c op
  disk : e'.disk = e.disk
  opts : e'.opts = e.opts

/-- An operation that changes its slot and tells the tracker has acted. -/
theorem Leaves.acts (h : Leaves e key ((e.slot key).act c e.disk (op.shape E c)) e')
    (hkey : op.key = some key) (htrack : e'.eviction2q = e.track c op) : Acts c op e e' := by
  refine ⟨?_, htrack, h.disk, h.opts⟩
  rw [h.slot, acted, hkey]

/-- An operation that does nothing to the keys. -/
theorem acts_refl (hkey : op.key = none) (htrack : e.eviction2q = e.track c op) :
    Acts c op e e := by
  refine ⟨?_, htrack, rfl, rfl⟩
  rw [acted, hkey]

/-- How a step goes. -/
inductive Course (c : Call) (op : Op) (e : Engine E) : Engine E → Prop
  | quiet {e' : Engine E} (h : Acts c op e e') : Course c op e e'
  | sweep {e₁ : Engine E} (h : Acts c op e e₁) : Course c op e (e₁.checkMemoryAndEvict c)
  | cleanup (hop : op = .cleanupExpired) : Course c op e (e.cleanupExpired c).2
  | policy (policy : EvictionPolicy) (hop : op = .setEviction policy) :
      Course c op e { e with opts := { e.opts with eviction := policy } }

/-- What is done with the answer does not matter. -/
theorem Course.reply {α : Type} {wrap : α → Reply} {res : α × Engine E}
    (h : Course c op e res.2) : Course c op e (Engine.reply wrap res).2 := h

/-- A write is an edit and then the pass. -/
theorem write_leaves {α : Type} (e : Engine E) (c : Call) (key : Bytes) (fresh : Value E t)
    (change : Value E t → α × Value E t) (keep : α → Bool) :
    ∃ e₁, Leaves e key ((e.slot key).act c e.disk
        (.edit t (fun _ => fresh) (persistIf keep change))) e₁ ∧
      (e.write c t key fresh change keep).2 = e₁.checkMemoryAndEvict c :=
  ⟨_, edit_leaves e c key (fun _ => fresh) change keep, rfl⟩

/-- A write acts on its slot and then makes the pass. -/
theorem write_course {α : Type} (op : Op) {fresh : Value E t}
    {change : Value E t → α × Value E t} {keep : α → Bool} (hkey : op.key = some key)
    (hshape : op.shape E c = .edit t (fun _ => fresh) (persistIf keep change))
    (htrack : e.track c op = e.eviction2q) :
    Course c op e (e.write c t key fresh change keep).2 := by
  have hleaves := edit_leaves e c key (fun _ => fresh) change keep
  rw [← hshape] at hleaves
  exact .sweep (hleaves.acts hkey ((eviction2q_edit _ _ _ _).trans htrack.symm))

/-- What `put` does before its pass. -/
theorem put_leaves (c : Call) (e : Engine E) (key value : Bytes) :
    ∃ e₁, Leaves e key ((e.slot key).act c e.disk (.put value)) e₁ ∧
      e₁.eviction2q = e.track c (.put key value) ∧
      (e.put c key value).2 = e₁.checkMemoryAndEvict c := by
  have hregister := ((Leaves.refl e key).insert (t := .kBytes) value).registerKey .kBytes
  refine ⟨_, ?_, eviction2q_rocksPut _ _, rfl⟩
  refine Leaves.rocksPut ?_ (c.putOk 0) value
  exact hregister.same rfl rfl rfl

theorem put_course (c : Call) (e : Engine E) (key value : Bytes) :
    Course c (.put key value) e (e.put c key value).2 := by
  obtain ⟨e₁, hleaves, htrack, heq⟩ := put_leaves c e key value
  rw [heq]
  exact .sweep (hleaves.acts rfl htrack)

section Reads

variable {α : Type} {absent : α} (op : Op) {dim : Nat} {res : Option (Value E t) × Engine E}

/-- The course of a read. -/
theorem Fetches.read_course (h : Fetches c e t key dim res) (hres : res.2.eviction2q = e.eviction2q)
    (read : Value E t → α) (hkey : op.key = some key) (hshape : op.shape E c = .read false t dim)
    (htrack : e.track c op = e.eviction2q) : Course c op e (answer absent read res).2 := by
  have hleaves : Leaves e key _ (answer absent read res).2 := h.answer_leaves read
  rw [← hshape] at hleaves
  refine .quiet (hleaves.acts hkey ?_)
  rw [answer_snd, hres, htrack]

/-- The course of a read that asks the metadata first. -/
theorem Fetches.guarded_course (h : Fetches c e t key dim res)
    (hres : res.2.eviction2q = e.eviction2q) {read : Engine E → α × Engine E}
    (hkey : op.key = some key) (hshape : op.shape E c = .read true t dim)
    (htrack : e.track c op = e.eviction2q) (hread : (read e).2 = res.2) :
    Course c op e (e.guarded c.now key absent read).2 := by
  have hleaves : Leaves e key _ (e.guarded c.now key absent read).2 := h.guarded_leaves hread
  rw [← hshape] at hleaves
  refine .quiet (hleaves.acts hkey ?_)
  rw [eviction2q_guarded (hread ▸ hres), htrack]

/-- The course of a change that makes no pass. -/
theorem Fetches.update_course (h : Fetches c e t key dim res)
    (hres : res.2.eviction2q = e.eviction2q) {change : Value E t → α × Value E t} {keep : α → Bool}
    (hkey : op.key = some key) (hshape : op.shape E c = .update t dim (persistIf keep change))
    (htrack : e.track c op = e.eviction2q) :
    Course c op e (update (c.putOk 0) t key absent change keep res).2 := by
  have hleaves : Leaves e key _ (update (c.putOk 0) t key absent change keep res).2 :=
    h.update_leaves change keep
  rw [← hshape] at hleaves
  refine .quiet (hleaves.acts hkey ?_)
  rw [eviction2q_update _ _ _ hres, htrack]

end Reads

/-- The hash that a load leaves, complete or not. -/
theorem loadHash_snd (e : Engine E) (key : Bytes) :
    (e.loadHash key ∅).2 =
      (((e.rocksGet key).map fun data => deserializeHash data ∅).getD (false, ∅)).2 := by
  unfold loadHash load
  cases e.rocksGet key <;> rfl

/-- What `hincrby` does to its slot. -/
theorem hincrby_leaves (c : Call) (e : Engine E) (key field : Bytes) (delta : Int) :
    Leaves e key ((e.slot key).act c e.disk ((Op.hincrby key field delta).shape E c))
      (e.hincrby c key field delta).2 := by
  unfold hincrby
  rw [loadHash_snd]
  exact edit_leaves (t := .kHash) e c key
    (fun record => ((record.map fun data => deserializeHash data ∅).getD (false, ∅)).2)
    (increment field delta) fun _ => true

theorem hincrby_course (c : Call) (e : Engine E) (key field : Bytes) (delta : Int) :
    Course c (.hincrby key field delta) e (e.hincrby c key field delta).2 :=
  .quiet ((hincrby_leaves c e key field delta).acts rfl (eviction2q_edit _ _ _ _))

theorem zrem_course (c : Call) (e : Engine E) (key member : Bytes) :
    Course c (.zrem key member) e (e.zrem c key member).2 := by
  have h : Leaves e key (e.slot key) ((e.find .kZSet key, e) : Option (Value E .kZSet) × _).2 :=
    .refl e key
  exact .quiet (Leaves.acts (h.update rfl _ _ _) rfl (eviction2q_update _ _ _ rfl))

/-- A step acts on the slot of its key and tells the tracker, and a write ends with the pass. -/
theorem step_course (e : Engine E) (c : Call) (op : Op) : Course c op e (e.step (c, op)).2 := by
  cases op with
  | put key value => exact put_course c e key value
  | get key => exact .quiet ((get_leaves e c key).acts rfl (eviction2q_lookUp _ c key))
  | del key => exact .quiet ((del_leaves e c key).acts rfl rfl)
  | existsKey key => exact .quiet ((isValid_leaves e c.now key).acts rfl rfl)
  | type key => exact .quiet ((type_leaves e c key).acts rfl rfl)
  | expire key ms =>
      exact .quiet ((expire_leaves e c key ms).acts rfl (eviction2q_guarded rfl))
  | ttl key => exact .quiet ((ttl_leaves e c key).acts rfl (eviction2q_guarded rfl))
  | zadd key member score => exact write_course (.zadd key member score) rfl rfl rfl
  | zscore key member =>
      exact .reply ((getOrCreateZset_fetches e c key).guarded_course (.zscore key member)
        eviction2q_getOrCreate rfl rfl rfl (answer_snd _))
  | zrem key member => exact zrem_course c e key member
  | zcard key =>
      exact .reply ((getOrCreateZset_fetches e c key).read_course (.zcard key)
        eviction2q_getOrCreate _ rfl rfl rfl)
  | zrange key start stop reverse =>
      exact .reply ((getOrCreateZset_fetches e c key).read_course (.zrange key start stop reverse)
        eviction2q_getOrCreate _ rfl rfl rfl)
  | zrangebyscore key min max =>
      exact .reply ((getOrCreateZset_fetches e c key).read_course (.zrangebyscore key min max)
        eviction2q_getOrCreate _ rfl rfl rfl)
  | lpush key value => exact write_course (.lpush key value) rfl rfl rfl
  | rpush key value => exact write_course (.rpush key value) rfl rfl rfl
  | lpop key =>
      exact .reply ((getOrCreateList_fetches e c key).update_course (.lpop key)
        eviction2q_getOrCreate rfl rfl rfl)
  | rpop key =>
      exact .reply ((getOrCreateList_fetches e c key).update_course (.rpop key)
        eviction2q_getOrCreate rfl rfl rfl)
  | llen key =>
      exact .reply ((getOrCreateList_fetches e c key).read_course (.llen key)
        eviction2q_getOrCreate _ rfl rfl rfl)
  | hset key field value => exact write_course (.hset key field value) rfl rfl rfl
  | hget key field =>
      exact .reply ((getOrCreateHash_fetches e c key).guarded_course (.hget key field)
        eviction2q_getOrCreate rfl rfl rfl (answer_snd _))
  | hdel key field =>
      exact .reply ((getOrCreateHash_fetches e c key).update_course (.hdel key field)
        eviction2q_getOrCreate rfl rfl rfl)
  | hexists key field =>
      exact .reply ((getOrCreateHash_fetches e c key).guarded_course (.hexists key field)
        eviction2q_getOrCreate rfl rfl rfl (answer_snd _))
  | hgetall key =>
      exact .reply ((getOrCreateHash_fetches e c key).guarded_course (.hgetall key)
        eviction2q_getOrCreate rfl rfl rfl (answer_snd _))
  | hlen key =>
      exact .reply ((getOrCreateHash_fetches e c key).read_course (.hlen key)
        eviction2q_getOrCreate _ rfl rfl rfl)
  | hincrby key field delta => exact hincrby_course c e key field delta
  | sadd key member => exact write_course (.sadd key member) rfl rfl rfl
  | srem key member =>
      exact .reply ((getOrCreateSet_fetches e c key).update_course (.srem key member)
        eviction2q_getOrCreate rfl rfl rfl)
  | sismember key member =>
      exact .reply ((getOrCreateSet_fetches e c key).guarded_course (.sismember key member)
        eviction2q_getOrCreate rfl rfl rfl (answer_snd _))
  | smembers key =>
      exact .reply ((getOrCreateSet_fetches e c key).guarded_course (.smembers key)
        eviction2q_getOrCreate rfl rfl rfl (answer_snd _))
  | scard key =>
      exact .reply ((getOrCreateSet_fetches e c key).read_course (.scard key)
        eviction2q_getOrCreate _ rfl rfl rfl)
  | xadd key id fields => exact write_course (.xadd key id fields) rfl rfl rfl
  | xread key startId count =>
      exact .reply ((getOrCreateStream_fetches e c key).guarded_course (.xread key startId count)
        eviction2q_getOrCreate rfl rfl rfl (answer_snd _))
  | xrange key startId endId count =>
      exact .reply ((getOrCreateStream_fetches e c key).guarded_course
        (.xrange key startId endId count) eviction2q_getOrCreate rfl rfl rfl (answer_snd _))
  | xlen key =>
      exact .reply ((getOrCreateStream_fetches e c key).read_course (.xlen key)
        eviction2q_getOrCreate _ rfl rfl rfl)
  | xdel key id =>
      exact .reply ((getOrCreateStream_fetches e c key).update_course (.xdel key id)
        eviction2q_getOrCreate rfl rfl rfl)
  | xtrim key maxlen =>
      exact .reply ((getOrCreateStream_fetches e c key).update_course (.xtrim key maxlen)
        eviction2q_getOrCreate rfl rfl rfl)
  | jsonset key path json =>
      refine .quiet ((jsonset_leaves e c key path json).acts rfl ?_)
      show (e.jsonset c key path json).2.eviction2q = e.eviction2q
      unfold jsonset
      split
      · rfl
      · exact eviction2q_edit (t := .kJson) _ _ _ _
  | jsonget key path =>
      exact .reply ((getOrCreateJson_fetches e c key).guarded_course (.jsonget key path)
        eviction2q_getOrCreate rfl rfl rfl (answer_snd _))
  | jsondel key path =>
      refine .quiet ((jsondel_leaves e c key path).acts rfl ?_)
      show (e.jsondel key path).2.eviction2q = e.eviction2q
      unfold jsondel
      split <;> rfl
  | vecadd key id vec => exact write_course (.vecadd key id vec) rfl rfl rfl
  | vecget key id =>
      exact .reply ((getOrCreateVector_fetches e c key 0).guarded_course (.vecget key id)
        eviction2q_getOrCreate rfl rfl rfl (answer_snd _))
  | vecdel key id =>
      exact .reply ((getOrCreateVector_fetches e c key 0).update_course (.vecdel key id)
        eviction2q_getOrCreate rfl rfl rfl)
  | vecsearch key query n =>
      exact .reply ((getOrCreateVector_fetches e c key query.length).guarded_course
        (.vecsearch key query n) eviction2q_getOrCreate rfl rfl rfl (answer_snd _))
  | vecsize key =>
      exact .reply ((getOrCreateVector_fetches e c key 0).read_course (.vecsize key)
        eviction2q_getOrCreate _ rfl rfl rfl)
  | allEntries | allKeys | count | memoryUsage => exact .quiet (acts_refl rfl rfl)
  | cleanupExpired => exact .cleanup rfl
  | setEviction policy => exact .policy policy rfl
  | astrakvHgetall key =>
      exact .reply ((getOrCreateHash_fetches e c key).read_course (.astrakvHgetall key)
        eviction2q_getOrCreate fieldsOf rfl rfl rfl)
  | astrakvSmembers key =>
      exact .reply ((getOrCreateSet_fetches e c key).read_course (.astrakvSmembers key)
        eviction2q_getOrCreate AList.keys rfl rfl rfl)
  | astrakvHscan key =>
      exact .reply ((getOrCreateHash_fetches e c key).read_course (.astrakvHscan key)
        eviction2q_getOrCreate _ rfl rfl rfl)
  | astrakvSscan key =>
      exact .reply ((getOrCreateSet_fetches e c key).read_course (.astrakvSscan key)
        eviction2q_getOrCreate _ rfl rfl rfl)

/-- `e'` is `e` after `op`: the slot of its key is acted on, then any slot may be swept. -/
structure Steps (c : Call) (op : Op) (e e' : Engine E) : Prop where
  slot : ∀ k, Swept c e.opts e.disk (e.acted c op k) (e'.slot k)
  disk : e'.disk = e.disk
  maxMb : e'.opts.maxMb = e.opts.maxMb

/-- What the operation on the key and any sweep keep, a step keeps. -/
theorem Steps.keeps {op : Op} {I : Slot E → Prop} (h : Steps c op e e') (hk : I (e.slot k))
    (hact : op.key = some k → I ((e.slot k).act c e.disk (op.shape E c)))
    (hswept : ∀ s s', Swept c e.opts e.disk s s' → I s → I s') : I (e'.slot k) := by
  refine hswept _ _ (h.slot k) ?_
  by_cases hkey : op.key = some k
  · rw [acted_self hkey]
    exact hact hkey
  · rw [acted_of_ne hkey]
    exact hk

/-- After any course the slot of the key is acted on, and all may be swept. -/
theorem Course.steps (h : Course c op e e') : Steps c op e e' := by
  cases h with
  | quiet h =>
      refine ⟨fun k => ?_, h.disk, by rw [h.opts]⟩
      rw [h.slot]
      exact .kept
  | @sweep e₁ h =>
      have hsweeps := checkMemoryAndEvict_sweeps c e₁
      refine ⟨fun k => ?_, hsweeps.disk.trans h.disk, by rw [hsweeps.opts, h.opts]⟩
      have hslot := hsweeps.slot k
      rwa [h.slot, h.opts, h.disk] at hslot
  | cleanup hop =>
      subst hop
      have hsweeps := cleanupExpired_sweeps c e
      exact ⟨hsweeps.slot, hsweeps.disk, by rw [hsweeps.opts]⟩
  | policy policy hop =>
      subst hop
      exact ⟨fun k => .kept, rfl, rfl⟩

/-- **Locality.**  A step acts on the slot of its key and may sweep any slot at its end. -/
theorem step_steps (e : Engine E) (c : Call) (op : Op) : Steps c op e (e.step (c, op)).2 :=
  (step_course e c op).steps

/-! ## the keys a step does not evict -/

/-- The pass at the end of the step, if there is one, does not evict the key. -/
def Unevicted (k : Bytes) (e : Engine E) (i : Call × Op) : Prop :=
  ∀ e₁, Acts i.1 i.2 e e₁ → (e.step i).2 = e₁.checkMemoryAndEvict i.1 →
    ∀ j, (j, k) ∉ e₁.evictedBy i.1

/-- What a step leaves of a key that it does not evict is what the operation makes of it, unless
that has expired. -/
theorem slot_step_of_unevicted (h : Unevicted k e (c, op)) :
    (e.step (c, op)).2.slot k = e.acted c op k ∨
      (e.acted c op k).expired c.now = true ∧ (e.step (c, op)).2.slot k = .empty := by
  have hcourse := step_course e c op
  have hcleaned : ∀ s : Slot E, (if s.expired c.now then .empty else s) = s ∨
      s.expired c.now = true ∧ (if s.expired c.now then .empty else s) = Slot.empty := by
    intro s
    split
    · exact .inr ⟨‹_›, rfl⟩
    · exact .inl rfl
  unfold Unevicted at h
  generalize (e.step (c, op)).2 = e' at hcourse h
  cases hcourse with
  | quiet hacts => exact .inl (congrFun hacts.slot k)
  | @sweep e₁ hacts =>
      rw [(checkMemoryAndEvict_evicted c e₁).kept k (h e₁ hacts rfl), slot_cleanupExpired,
        hacts.slot]
      exact hcleaned _
  | cleanup hop =>
      subst hop
      rw [slot_cleanupExpired]
      exact hcleaned _
  | policy policy hop =>
      subst hop
      exact .inl rfl

/-- Without a limit no step evicts, nor does one under the policy that evicts nothing: a step that
sets another policy has no pass. -/
theorem unevicted_of_opts {i : Call × Op}
    (h : e.opts.maxMb = 0 ∨ e.opts.eviction = .kNoEviction) : Unevicted k e i := by
  intro e₁ hacts _ j hk
  have hnone : e₁.evictedBy i.1 = [] := by
    rw [← hacts.opts] at h
    exact h.elim evictedBy_of_no_limit evictedBy_of_no_eviction
  rw [hnone] at hk
  exact absurd hk List.not_mem_nil

end Engine

end AstraKV
