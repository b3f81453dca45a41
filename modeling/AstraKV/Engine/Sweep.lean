import AstraKV.Engine.Local

/-!
# AstraKV.Engine.Sweep

What the pass of cleanup and eviction does to each slot.

Cleanup goes through a copy of the keys: each that is not valid any more is
removed from everywhere and counted, and since the copy lists the registered
keys without repetition the result is known key by key (`Cleaned`). Eviction
then writes values out and drops them, one per round at most (`Evicted`).
Together they sweep every slot in the sense of `Slot.Swept`, and which slot is
swept how can be read off the two lists.
-/

namespace AstraKV

open Slot

namespace Engine

variable {E : Env} {e e' : Engine E} {c : Call} {t : KeyType} {key k : Bytes}

/-! ## cleanup -/

/-- A slot is not valid without metadata or past its deadline. -/
theorem valid_false_iff {s : Slot E} {now : Int} :
    s.valid now = false ↔ s.metadata = none ∨ s.expired now = true := by
  unfold Slot.valid Slot.expired
  cases s.metadata with
  | none => simp
  | some m => simp

/-- A slot is cleared only if it was not valid. -/
theorem valid_cleaned {s : Slot E} {now : Int} :
    (if s.expired now then Slot.empty else s).valid now = s.valid now := by
  cases hexpired : s.expired now with
  | false => rfl
  | true => exact (valid_false_iff.mpr (.inr hexpired)).symm

/-- A valid slot has not expired. -/
theorem not_expired_of_valid {s : Slot E} {now : Int} (h : s.valid now = true) :
    s.expired now = false := by
  cases hexpired : s.expired now with
  | false => rfl
  | true =>
      rw [valid_false_iff.mpr (.inr hexpired)] at h
      contradiction

/-- One turn of the loop clears the slot of a key that is not valid. -/
theorem cleanupKey_leaves (now : Int) (acc : Int × Engine E) (key : Bytes) :
    Leaves acc.2 key (if (acc.2.slot key).valid now then acc.2.slot key else .empty)
      (cleanupKey now acc key).2 := by
  unfold cleanupKey
  cases hvalid : (acc.2.slot key).valid now with
  | true =>
      rw [isValid_of_valid hvalid]
      exact .refl acc.2 key
  | false =>
      have hcheck : acc.2.isValid now key = (false, (acc.2.isValid now key).2) :=
        Prod.ext ((isValid_fst now).trans hvalid) rfl
      rw [hcheck]
      have hmeta : (acc.2.slot key).check now = { acc.2.slot key with metadata := none } := by
        cases valid_false_iff.mp hvalid with
        | inl hnone =>
            unfold Slot.check
            split
            · rfl
            · rw [← hnone]
        | inr hexpired => exact if_pos hexpired
      have hleaves := isValid_leaves acc.2 now key
      rw [hmeta] at hleaves
      exact Leaves.same hleaves.removeAll.rocksDelete rfl rfl rfl

/-- A key that is not valid is counted. -/
theorem cleanupKey_fst (now : Int) (acc : Int × Engine E) (key : Bytes) :
    (cleanupKey now acc key).1 = if (acc.2.slot key).valid now then acc.1 else acc.1 + 1 := by
  have hfst : (acc.2.isValid now key).1 = _ := isValid_fst now
  unfold cleanupKey
  cases hcheck : acc.2.isValid now key with
  | mk valid e' =>
      rw [hcheck] at hfst
      rw [← hfst]
      cases valid <;> rfl

/-- The loop over `keys`. -/
structure Cleaned (now : Int) (keys : List Bytes) (acc acc' : Int × Engine E) : Prop where
  slot : ∀ k, acc'.2.slot k =
    if k ∈ keys ∧ (acc.2.slot k).valid now = false then .empty else acc.2.slot k
  count : acc'.1 = acc.1 + ((keys.filter fun k => !(acc.2.slot k).valid now).length : Nat)
  disk : acc'.2.disk = acc.2.disk
  opts : acc'.2.opts = acc.2.opts

/-- The loop over distinct keys cleans each of them once. -/
theorem cleanup_loop (now : Int) {keys : List Bytes} (hnodup : keys.Nodup)
    (acc : Int × Engine E) : Cleaned now keys acc (keys.foldl (cleanupKey now) acc) := by
  induction keys generalizing acc with
  | nil => exact ⟨fun k => by simp, by simp, rfl, rfl⟩
  | cons key keys ih =>
      obtain ⟨hkey, hnodup⟩ := List.nodup_cons.mp hnodup
      have hstep := cleanupKey_leaves now acc key
      have hrest := ih hnodup (cleanupKey now acc key)
      have hother : ∀ k, k ≠ key → (cleanupKey now acc key).2.slot k = acc.2.slot k := by
        intro k hk
        rw [hstep.slot, Function.update_of_ne hk]
      rw [List.foldl_cons]
      constructor
      · intro k
        rw [hrest.slot]
        by_cases hk : k = key
        · subst hk
          rw [if_neg fun h => hkey h.1, hstep.slot_self]
          cases hvalid : (acc.2.slot k).valid now <;> simp
        · rw [hother k hk]
          simp [hk]
      · have hfilter : (keys.filter fun k => !((cleanupKey now acc key).2.slot k).valid now) =
            keys.filter fun k => !(acc.2.slot k).valid now := by
          refine List.filter_congr fun k hk => ?_
          rw [hother k fun heq => hkey (heq ▸ hk)]
        rw [hrest.count, cleanupKey_fst, hfilter]
        cases hvalid : (acc.2.slot key).valid now with
        | true => simp [hvalid]
        | false =>
            simp only [List.filter_cons, hvalid, Bool.not_false, if_true, List.length_cons,
              Bool.false_eq_true, if_false]
            push_cast
            omega
      · rw [hrest.disk, hstep.disk]
      · rw [hrest.opts, hstep.opts]

/-- The registered keys are those with metadata. -/
theorem mem_keys_iff : k ∈ e.metas.keys ↔ (e.slot k).metadata ≠ none := by
  rw [← AList.mem_keys, ← AList.lookup_isSome, Option.isSome_iff_ne_none]
  rfl

/-- Cleanup clears the slots that are expired and leaves the others. -/
theorem slot_cleanupExpired (e : Engine E) (c : Call) (k : Bytes) :
    (e.cleanupExpired c).2.slot k = if (e.slot k).expired c.now then .empty else e.slot k := by
  have hloop := cleanup_loop c.now e.metas.keys_nodup (0, e)
  refine (hloop.slot k).trans ?_
  by_cases hexpired : (e.slot k).expired c.now = true
  · have hmeta : (e.slot k).metadata ≠ none := by
      intro hnone
      unfold Slot.expired at hexpired
      rw [hnone] at hexpired
      contradiction
    rw [if_pos hexpired, if_pos ⟨mem_keys_iff.mpr hmeta, valid_false_iff.mpr (.inr hexpired)⟩]
  · rw [if_neg hexpired]
    refine if_neg fun h => ?_
    exact (valid_false_iff.mp h.2).elim (mem_keys_iff.mp h.1) hexpired

/-- Cleanup counts the keys that are expired. -/
theorem cleanupExpired_fst (e : Engine E) (c : Call) :
    (e.cleanupExpired c).1 =
      ((e.metas.keys.filter fun k => (e.slot k).expired c.now).length : Nat) := by
  have hloop := cleanup_loop c.now e.metas.keys_nodup (0, e)
  have hfilter : (e.metas.keys.filter fun k => !(e.slot k).valid c.now) =
      e.metas.keys.filter fun k => (e.slot k).expired c.now := by
    refine List.filter_congr fun k hk => ?_
    have hmeta := mem_keys_iff.mp hk
    cases hvalid : (e.slot k).valid c.now with
    | false => exact ((valid_false_iff.mp hvalid).resolve_left hmeta).symm
    | true =>
        cases hexpired : (e.slot k).expired c.now with
        | false => rfl
        | true =>
            rw [valid_false_iff.mpr (.inr hexpired)] at hvalid
            contradiction
  rw [← hfilter]
  exact hloop.count.trans (Int.zero_add _)

/-- A cleanup leaves the store in place. -/
theorem disk_cleanupExpired (e : Engine E) (c : Call) : (e.cleanupExpired c).2.disk = e.disk :=
  (cleanup_loop c.now e.metas.keys_nodup (0, e)).disk

/-- A cleanup leaves the options. -/
theorem opts_cleanupExpired (e : Engine E) (c : Call) : (e.cleanupExpired c).2.opts = e.opts :=
  (cleanup_loop c.now e.metas.keys_nodup (0, e)).opts

/-! ## eviction -/

/-- Evicting a key evicts its slot. -/
theorem evictKey_leaves (e : Engine E) (ok : Bool) (t : KeyType) (key : Bytes) :
    Leaves e key (Slot.evict e.disk ok (e.slot key) t) (e.evictKey ok t key) := by
  have hvalue : (e.slot key).value t = e.find t key := rfl
  unfold evictKey Slot.evict
  rw [hvalue]
  dsimp only
  cases e.find t key with
  | none => exact Leaves.same (Leaves.refl e key).unregisterKey rfl rfl rfl
  | some v =>
      exact Leaves.same
        (((Leaves.refl e key).rocksPut ok (serialize t v)).remove t).unregisterKey rfl rfl rfl

/-- Choosing a victim touches the 2Q tracker only. -/
theorem victim_same (c : Call) (e : Engine E) (i : Nat) (candidates : List Bytes) :
    ∃ q, (e.victim c i candidates).2 = { e with eviction2q := q } := by
  unfold victim
  split
  · exact ⟨_, rfl⟩
  all_goals exact ⟨e.eviction2q, rfl⟩

/-- Nothing is forgotten about a key that is not expired. -/
theorem getKeyType_of_not_expired (h : (e.slot key).expired c.now = false) :
    e.metas.getKeyType c.now key = ((e.slot key).metadata.map KeyMetadata.type, e.metas) := by
  unfold Slot.expired slot at h
  unfold KeyMetadataManager.getKeyType slot
  cases hm : e.metas.lookup key with
  | none => rfl
  | some m =>
      simp only [hm, Option.any_some] at h
      simp [h]

/-- The rounds of `evictLoop` that evict a key, with the key. -/
def evictions (c : Call) (limit : Int) (candidates : List Bytes) :
    Nat → Nat → Engine E → List (Nat × Bytes)
  | 0, _, _ => []
  | n + 1, i, e =>
      if e.memoryUsage c > limit then
        match e.victim c i candidates with
        | (none, _) => []
        | (some victim, e) =>
            match e.metas.getKeyType c.now victim with
            | (none, metas) => evictions c limit candidates n (i + 1) { e with metas := metas }
            | (some .kNone, metas) =>
                evictions c limit candidates n (i + 1) { e with metas := metas }
            | (some t, metas) =>
                (i, victim) :: evictions c limit candidates n (i + 1)
                  (evictKey { e with metas := metas } (c.putOk (i + 1)) t victim)
      else []

/-- The rounds of `checkMemoryAndEvict` that evict a key, with the key. -/
def evictedBy (c : Call) (e : Engine E) : List (Nat × Bytes) :=
  let e := (e.cleanupExpired c).2
  if e.opts.maxMb = 0 ∨ e.opts.eviction = .kNoEviction then []
  else if e.memoryUsage c < e.lowMark then []
  else
    let candidates := e.candidates c
    if candidates = [] then []
    else evictions c e.limit candidates (max 1 (candidates.length / 10)) 0 e

/-- The keys of `rounds`, registered before, are evicted, and the others are as they were. -/
structure Evicted (c : Call) (rounds : List (Nat × Bytes)) (e e' : Engine E) : Prop where
  kept : ∀ k, (∀ i, (i, k) ∉ rounds) → e'.slot k = e.slot k
  dropped : ∀ i k, (i, k) ∈ rounds → ∃ m, (e.slot k).metadata = some m ∧
    e'.slot k = Slot.evict e.disk (c.putOk (i + 1)) (e.slot k) m.type
  disk : e'.disk = e.disk
  opts : e'.opts = e.opts

/-- Where no slot changes nothing is evicted. -/
theorem Evicted.nil (hslot : e'.slot = e.slot) (hdisk : e'.disk = e.disk)
    (hopts : e'.opts = e.opts) : Evicted c [] e e' :=
  ⟨fun k _ => congrFun hslot k, fun _ _ h => absurd h List.not_mem_nil, hdisk, hopts⟩

/-- A round that evicts nothing. -/
theorem Evicted.skip {rounds : List (Nat × Bytes)} {e₁ : Engine E} (h : Evicted c rounds e₁ e')
    (hslot : e₁.slot = e.slot) (hdisk : e₁.disk = e.disk) (hopts : e₁.opts = e.opts) :
    Evicted c rounds e e' := by
  constructor
  · intro k hk
    rw [h.kept k hk, hslot]
  · intro i k hk
    rw [← hslot, ← hdisk]
    exact h.dropped i k hk
  · rw [h.disk, hdisk]
  · rw [h.opts, hopts]

/-- Round `i` evicts `key`, which no later round finds registered. -/
theorem Evicted.round {rounds : List (Nat × Bytes)} {i : Nat} {e₁ : Engine E} {m : KeyMetadata}
    (hm : (e.slot key).metadata = some m)
    (h₁ : Leaves e key (Slot.evict e.disk (c.putOk (i + 1)) (e.slot key) m.type) e₁)
    (h : Evicted c rounds e₁ e') : Evicted c ((i, key) :: rounds) e e' := by
  have hnone : (e₁.slot key).metadata = none := by
    rw [h₁.slot_self]
    rfl
  have hlater : ∀ j, (j, key) ∉ rounds := by
    intro j hj
    obtain ⟨m', hm', -⟩ := h.dropped j key hj
    rw [hnone] at hm'
    contradiction
  have hother : ∀ k, k ≠ key → e₁.slot k = e.slot k := by
    intro k hk
    rw [h₁.slot, Function.update_of_ne hk]
  constructor
  · intro k hk
    have hne : k ≠ key := fun heq => hk i (by simp [heq])
    rw [h.kept k fun j hj => hk j (List.mem_cons_of_mem _ hj), hother k hne]
  · intro j k hk
    by_cases hne : k = key
    · subst hne
      obtain rfl : j = i := by simpa [hlater j] using hk
      exact ⟨m, hm, by rw [h.kept k hlater, h₁.slot_self]⟩
    · obtain ⟨m', hm', heq⟩ := h.dropped j k (by simpa [hne] using hk)
      rw [hother k hne] at hm' heq
      exact ⟨m', hm', by rw [heq, h₁.disk]⟩
  · rw [h.disk, h₁.disk]
  · rw [h.opts, h₁.opts]

/-- A slot that was evicted has no expiry. -/
theorem expired_evict {disk ok : Bool} {s : Slot E} {now : Int} :
    (Slot.evict disk ok s t).expired now = false := rfl

/-- What a round of the loop comes to. -/
inductive Round (c : Call) (limit : Int) (candidates : List Bytes) (n i : Nat) (evicted : Int)
    (e : Engine E) : Prop where
  | stop (e₁ : Engine E) (hslot : e₁.slot = e.slot) (hdisk : e₁.disk = e.disk)
      (hopts : e₁.opts = e.opts)
      (hloop : evictLoop c limit candidates (n + 1) i evicted e = (evicted, e₁))
      (hrounds : evictions c limit candidates (n + 1) i e = [])
  | skip (e₁ : Engine E) (hslot : e₁.slot = e.slot) (hdisk : e₁.disk = e.disk)
      (hopts : e₁.opts = e.opts)
      (hloop : evictLoop c limit candidates (n + 1) i evicted e =
        evictLoop c limit candidates n (i + 1) evicted e₁)
      (hrounds : evictions c limit candidates (n + 1) i e =
        evictions c limit candidates n (i + 1) e₁)
  | evict (e₁ : Engine E) (key : Bytes) (m : KeyMetadata) (hm : (e.slot key).metadata = some m)
      (hleaves : Leaves e key (Slot.evict e.disk (c.putOk (i + 1)) (e.slot key) m.type) e₁)
      (hloop : evictLoop c limit candidates (n + 1) i evicted e =
        evictLoop c limit candidates n (i + 1) (evicted + 1) e₁)
      (hrounds : evictions c limit candidates (n + 1) i e =
        (i, key) :: evictions c limit candidates n (i + 1) e₁)

/-- Every round of the loop stops, skips or evicts. -/
theorem evictLoop_round (limit : Int) (candidates : List Bytes) (n i : Nat) (evicted : Int)
    (hfresh : ∀ k, (e.slot k).expired c.now = false) :
    Round c limit candidates n i evicted e := by
  obtain ⟨q, hq⟩ := victim_same c e i candidates
  by_cases hmemory : e.memoryUsage c > limit
  · have hfresh₁ : ∀ k, (slot { e with eviction2q := q } k).expired c.now = false := hfresh
    cases hvictim : (e.victim c i candidates).1 with
    | none =>
        have hres : e.victim c i candidates = (none, { e with eviction2q := q }) :=
          Prod.ext hvictim hq
        exact .stop { e with eviction2q := q } rfl rfl rfl (by simp [evictLoop, hmemory, hres])
          (by simp [evictions, hmemory, hres])
    | some key =>
        have hres : e.victim c i candidates = (some key, { e with eviction2q := q }) :=
          Prod.ext hvictim hq
        have htype := getKeyType_of_not_expired (hfresh₁ key)
        have hmeta : (slot { e with eviction2q := q } key).metadata = (e.slot key).metadata := rfl
        cases hm : (e.slot key).metadata with
        | none =>
            rw [hmeta, hm] at htype
            exact .skip { e with eviction2q := q } rfl rfl rfl
              (by simp [evictLoop, hmemory, hres, htype])
              (by simp [evictions, hmemory, hres, htype])
        | some m =>
            rw [hmeta, hm] at htype
            have hevict := evictKey_leaves { e with eviction2q := q } (c.putOk (i + 1)) m.type key
            cases hkind : m.type with
            | kNone =>
                exact .skip { e with eviction2q := q } rfl rfl rfl
                  (by simp [evictLoop, hmemory, hres, htype, hkind])
                  (by simp [evictions, hmemory, hres, htype, hkind])
            | _ =>
                exact .evict _ key m hm ⟨hevict.slot, hevict.disk, hevict.opts⟩
                  (by simp [evictLoop, hmemory, hres, htype, hkind])
                  (by simp [evictions, hmemory, hres, htype, hkind])
  · exact .stop e rfl rfl rfl (by simp [evictLoop, hmemory]) (by simp [evictions, hmemory])

/-- No key expires by the eviction of another. -/
theorem fresh_evict {ok : Bool} {e₁ : Engine E} (hfresh : ∀ k, (e.slot k).expired c.now = false)
    (h : Leaves e key (Slot.evict e.disk ok (e.slot key) t) e₁) (k : Bytes) :
    (e₁.slot k).expired c.now = false := by
  rw [h.slot]
  by_cases hk : k = key
  · rw [hk, Function.update_self]
    exact expired_evict
  · rw [Function.update_of_ne hk]
    exact hfresh k

/-- The loop evicts the keys of its rounds and no others. -/
theorem evictLoop_evicted (limit : Int) (candidates : List Bytes) (n i : Nat) (evicted : Int)
    (hfresh : ∀ k, (e.slot k).expired c.now = false) :
    Evicted c (evictions c limit candidates n i e) e
      (evictLoop c limit candidates n i evicted e).2 := by
  induction n generalizing i evicted e with
  | zero => exact .nil rfl rfl rfl
  | succ n ih =>
      cases evictLoop_round limit candidates n i evicted hfresh with
      | stop e₁ hslot hdisk hopts hloop hrounds =>
          rw [hloop, hrounds]
          exact .nil hslot hdisk hopts
      | skip e₁ hslot hdisk hopts hloop hrounds =>
          rw [hloop, hrounds]
          exact (ih (i + 1) evicted (by rwa [hslot])).skip hslot hdisk hopts
      | evict e₁ key m hm hleaves hloop hrounds =>
          rw [hloop, hrounds]
          exact (ih (i + 1) (evicted + 1) (fresh_evict hfresh hleaves)).round hm hleaves

/-! ## the whole pass -/

/-- The pass at the end of a write. -/
structure Sweeps (c : Call) (e e' : Engine E) : Prop where
  slot : ∀ k, Swept c e.opts e.disk (e.slot k) (e'.slot k)
  disk : e'.disk = e.disk
  opts : e'.opts = e.opts

/-- Doing nothing sweeps. -/
theorem Sweeps.refl (c : Call) (e : Engine E) : Sweeps c e e := ⟨fun _ => .kept, rfl, rfl⟩

/-- A cleanup sweeps. -/
theorem cleanupExpired_sweeps (c : Call) (e : Engine E) : Sweeps c e (e.cleanupExpired c).2 := by
  refine ⟨fun k => ?_, disk_cleanupExpired e c, opts_cleanupExpired e c⟩
  rw [slot_cleanupExpired]
  split
  · exact .expired ‹_›
  · exact .kept

/-- Nothing is expired after cleanup. -/
theorem fresh_cleanupExpired (e : Engine E) (c : Call) (k : Bytes) :
    ((e.cleanupExpired c).2.slot k).expired c.now = false := by
  rw [slot_cleanupExpired]
  cases hexpired : (e.slot k).expired c.now with
  | true => rfl
  | false => exact hexpired

/-- Where nothing is expired cleanup changes nothing, not even a counter: every registered key is
valid, and each turn of the loop leaves the engine as it is. -/
theorem cleanupExpired_of_fresh (hfresh : ∀ k, (e.slot k).expired c.now = false) :
    (e.cleanupExpired c).2 = e := by
  have hvalid : ∀ k ∈ e.metas.keys, (e.slot k).valid c.now = true := by
    intro k hk
    cases hv : (e.slot k).valid c.now with
    | true => rfl
    | false =>
        obtain hnone | hexpired := valid_false_iff.mp hv
        · exact absurd hnone (mem_keys_iff.mp hk)
        · exact absurd hexpired (by simp [hfresh k])
  have hloop : ∀ keys ⊆ e.metas.keys, keys.foldl (cleanupKey c.now) (0, e) = (0, e) := by
    intro keys hkeys
    induction keys with
    | nil => rfl
    | cons k keys ih =>
        obtain ⟨hk, hkeys⟩ := List.cons_subset.mp hkeys
        rw [List.foldl_cons, cleanupKey, isValid_of_valid (hvalid k hk)]
        exact ih hkeys
  rw [cleanupExpired, hloop _ (List.Subset.refl _)]
  simp

/-- The pass is cleanup and then evictions. -/
theorem checkMemoryAndEvict_evicted (c : Call) (e : Engine E) :
    Evicted c (e.evictedBy c) (e.cleanupExpired c).2 (e.checkMemoryAndEvict c) := by
  by_cases hlimit : (e.cleanupExpired c).2.opts.maxMb = 0 ∨
      (e.cleanupExpired c).2.opts.eviction = .kNoEviction
  · simpa [checkMemoryAndEvict, evictedBy, hlimit] using Evicted.nil rfl rfl rfl
  by_cases hmemory : (e.cleanupExpired c).2.memoryUsage c < (e.cleanupExpired c).2.lowMark
  · simpa [checkMemoryAndEvict, evictedBy, hmemory] using Evicted.nil rfl rfl rfl
  by_cases hcandidates : (e.cleanupExpired c).2.candidates c = []
  · simpa [checkMemoryAndEvict, evictedBy, hcandidates] using Evicted.nil rfl rfl rfl
  · have hloop := evictLoop_evicted (e.cleanupExpired c).2.limit
      ((e.cleanupExpired c).2.candidates c)
      (max 1 (((e.cleanupExpired c).2.candidates c).length / 10)) 0 0 (fresh_cleanupExpired e c)
    simp only [checkMemoryAndEvict, evictedBy, if_neg hlimit, if_neg hmemory, if_neg hcandidates]
    exact ⟨hloop.kept, hloop.dropped, hloop.disk, hloop.opts⟩

/-- Without a limit nothing is evicted. -/
theorem evictedBy_of_no_limit (hmax : e.opts.maxMb = 0) : e.evictedBy c = [] := by
  simp [evictedBy, opts_cleanupExpired, hmax]

theorem evictedBy_of_no_eviction (hpolicy : e.opts.eviction = .kNoEviction) :
    e.evictedBy c = [] := by
  simp [evictedBy, opts_cleanupExpired, hpolicy]

/-- A key in the rounds of the pass was valid, and cleanup leaves it. -/
theorem valid_of_evictedBy {i : Nat} (hk : (i, k) ∈ e.evictedBy c) :
    (e.slot k).valid c.now = true ∧ (e.cleanupExpired c).2.slot k = e.slot k := by
  obtain ⟨m, hm, -⟩ := (checkMemoryAndEvict_evicted c e).dropped i k hk
  rw [slot_cleanupExpired] at hm ⊢
  cases hexpired : (e.slot k).expired c.now with
  | true => simp [hexpired, Slot.empty] at hm
  | false =>
      rw [hexpired, if_neg Bool.false_ne_true] at hm
      refine ⟨?_, rfl⟩
      simpa [Slot.valid, Slot.expired, hm] using hexpired

/-- What the pass does to a key in its rounds. -/
theorem slot_of_evictedBy {i : Nat} (hk : (i, k) ∈ e.evictedBy c) :
    ∃ m, (e.slot k).metadata = some m ∧
      (e.checkMemoryAndEvict c).slot k =
        Slot.evict e.disk (c.putOk (i + 1)) (e.slot k) m.type := by
  obtain ⟨m, hm, heq⟩ := (checkMemoryAndEvict_evicted c e).dropped i k hk
  rw [(valid_of_evictedBy hk).2] at hm heq
  exact ⟨m, hm, by rw [heq, disk_cleanupExpired]⟩

/-- The whole pass sweeps. -/
theorem checkMemoryAndEvict_sweeps (c : Call) (e : Engine E) :
    Sweeps c e (e.checkMemoryAndEvict c) := by
  have hclean := cleanupExpired_sweeps c e
  have hpass := checkMemoryAndEvict_evicted c e
  refine ⟨fun k => ?_, hpass.disk.trans hclean.disk, hpass.opts.trans hclean.opts⟩
  by_cases hk : ∃ i, (i, k) ∈ e.evictedBy c
  · obtain ⟨i, hk⟩ := hk
    obtain ⟨m, hm, heq⟩ := slot_of_evictedBy hk
    have hmax : e.opts.maxMb ≠ 0 := by
      intro hzero
      rw [evictedBy_of_no_limit hzero] at hk
      contradiction
    rw [heq]
    refine .evicted i m hmax hm ?_
    simpa [Slot.valid, hm] using (valid_of_evictedBy hk).1
  · rw [hpass.kept k (not_exists.mp hk)]
    exact hclean.slot k

end Engine

end AstraKV
