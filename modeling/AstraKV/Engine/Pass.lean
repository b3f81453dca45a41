import AstraKV.Engine.Memory
import AstraKV.Engine.Opaque

/-!
# AstraKV.Engine.Pass

The pass of cleanup and eviction as a whole: which keys it may evict, how
many of them, and that it touches nothing else (`pass_frame`).

A round of the loop chooses a victim and, if it is registered under a type,
evicts it; the loop is followed round by round (`round`), and `evictions`
lists the rounds that evicted together with their keys. Cleanup has run
before, so no key is expired in any round and the metadata tell the truth
about types. The rest reads off the list: it has no key twice, is no longer
than the loop, and every key in it was within the scope of the policy at its
time.
-/

namespace AstraKV

open Slot

namespace Engine

variable {E : Env} {e e' : Engine E} {c : Call} {limit : Int} {candidates : List Bytes}
  {n i j : Nat} {evicted : Int} {k key : Bytes}

/-! ## one round -/

/-- A round of the loop once too much memory is in use: nothing without a victim, else the key it
evicts, if any. -/
def round (c : Call) (candidates : List Bytes) (i : Nat) (e : Engine E) :
    Option (Option Bytes) × Engine E :=
  match e.victim c i candidates with
  | (none, e) => (none, e)
  | (some victim, e) =>
      match e.metas.getKeyType c.now victim with
      | (none, metas) => (some none, { e with metas := metas })
      | (some .kNone, metas) => (some none, { e with metas := metas })
      | (some t, metas) =>
          (some (some victim), evictKey { e with metas := metas } (c.putOk (i + 1)) t victim)

/-- The loop, one round at a time. -/
theorem evictLoop_succ :
    evictLoop c limit candidates (n + 1) i evicted e =
      if e.memoryUsage c > limit then
        match e.round c candidates i with
        | (none, e) => (evicted, e)
        | (some none, e) => evictLoop c limit candidates n (i + 1) evicted e
        | (some (some _), e) => evictLoop c limit candidates n (i + 1) (evicted + 1) e
      else (evicted, e) := by
  unfold round
  rw [evictLoop]
  split
  · rcases e.victim c i candidates with ⟨_ | victim, e₁⟩
    · rfl
    · dsimp only
      rcases e₁.metas.getKeyType c.now victim with ⟨_ | t, metas⟩
      · rfl
      · cases t <;> rfl
  · rfl

/-- The rounds that evict, one at a time. -/
theorem evictions_succ :
    evictions c limit candidates (n + 1) i e =
      if e.memoryUsage c > limit then
        match e.round c candidates i with
        | (none, _) => []
        | (some none, e) => evictions c limit candidates n (i + 1) e
        | (some (some key), e) => (i, key) :: evictions c limit candidates n (i + 1) e
      else [] := by
  unfold round
  rw [evictions]
  split
  · rcases e.victim c i candidates with ⟨_ | victim, e₁⟩
    · rfl
    · dsimp only
      rcases e₁.metas.getKeyType c.now victim with ⟨_ | t, metas⟩
      · rfl
      · cases t <;> rfl
  · rfl

/-- The key has metadata, with a type of value. -/
def typed (e : Engine E) (key : Bytes) : Bool := (e.metas.lookup key).any fun m => m.type ≠ .kNone

/-- The engine once the victim is chosen. -/
theorem victim_snd (c : Call) (e : Engine E) (i : Nat) (candidates : List Bytes) :
    (e.victim c i candidates).2 =
      { e with eviction2q := (e.victim c i candidates).2.eviction2q } := by
  obtain ⟨q, hq⟩ := victim_same c e i candidates
  rw [hq]

/-- Choosing a victim changes no slot. -/
theorem slot_victim (c : Call) (e : Engine E) (i : Nat) (candidates : List Bytes) :
    (e.victim c i candidates).2.slot = e.slot := by
  rw [victim_snd]
  rfl

theorem memoryUsage_victim (c : Call) (e : Engine E) (i : Nat) (candidates : List Bytes) :
    (e.victim c i candidates).2.memoryUsage c = e.memoryUsage c := by
  rw [victim_snd]
  rfl

/-- Evicting the key chosen evicts its slot. -/
theorem evictKey_victim_leaves (c : Call) (e : Engine E) (i : Nat) (candidates : List Bytes)
    (ok : Bool) (t : KeyType) (key : Bytes) :
    Leaves e key (Slot.evict e.disk ok (e.slot key) t)
      ((e.victim c i candidates).2.evictKey ok t key) := by
  rw [victim_snd]
  have hleaves := evictKey_leaves
    { e with eviction2q := (e.victim c i candidates).2.eviction2q } ok t key
  exact ⟨hleaves.slot, hleaves.disk, hleaves.opts⟩

/-- What a round comes to. -/
inductive RoundIs (c : Call) (candidates : List Bytes) (i : Nat) (e : Engine E) :
    Option (Option Bytes) × Engine E → Prop where
  | stop (hvictim : (e.victim c i candidates).1 = none) :
      RoundIs c candidates i e (none, (e.victim c i candidates).2)
  | skip (key : Bytes) (hvictim : (e.victim c i candidates).1 = some key)
      (hkey : e.typed key = false) :
      RoundIs c candidates i e (some none, (e.victim c i candidates).2)
  | evict (key : Bytes) (m : KeyMetadata) (hvictim : (e.victim c i candidates).1 = some key)
      (hm : e.metas.lookup key = some m) (htype : m.type ≠ .kNone) :
      RoundIs c candidates i e
        (some (some key), (e.victim c i candidates).2.evictKey (c.putOk (i + 1)) m.type key)

/-- A round evicts the registered key it has chosen, or does nothing. -/
theorem round_is (c : Call) (candidates : List Bytes) (i : Nat)
    (hfresh : ∀ k, (e.slot k).expired c.now = false) :
    RoundIs c candidates i e (e.round c candidates i) := by
  obtain ⟨q, hq⟩ := victim_same c e i candidates
  unfold round
  cases hvictim : (e.victim c i candidates).1 with
  | none =>
      have hpair : e.victim c i candidates = (none, (e.victim c i candidates).2) :=
        Prod.ext hvictim rfl
      rw [hpair]
      exact .stop hvictim
  | some key =>
      have hpair : e.victim c i candidates = (some key, { e with eviction2q := q }) :=
        Prod.ext hvictim hq
      have htype := getKeyType_of_not_expired (e := { e with eviction2q := q }) (hfresh key)
      have hmeta : (slot { e with eviction2q := q } key).metadata = e.metas.lookup key := rfl
      rw [hpair]
      dsimp only at htype ⊢
      rw [htype, hmeta]
      cases hm : e.metas.lookup key with
      | none =>
          have hkey : e.typed key = false := by simp [typed, hm]
          simpa [hpair] using RoundIs.skip key hvictim hkey
      | some m =>
          have hskip : m.type = .kNone → e.typed key = false := fun hkind => by
            simp [typed, hm, hkind]
          have hevict := RoundIs.evict key m hvictim hm
          rw [hq] at hevict
          cases hkind : m.type with
          | kNone => simpa [hpair, hkind] using RoundIs.skip key hvictim (hskip hkind)
          | _ => simpa [hkind] using hevict

/-- Choosing a victim lets no key expire. -/
theorem fresh_victim (hfresh : ∀ k, (e.slot k).expired c.now = false) (k : Bytes) :
    ((e.victim c i candidates).2.slot k).expired c.now = false := by
  rw [slot_victim]
  exact hfresh k

/-! ## the rounds -/

/-- A key is evicted in a round that finds too much memory in use and chooses it. -/
theorem mem_evictions (hfresh : ∀ k, (e.slot k).expired c.now = false)
    (h : (j, k) ∈ evictions c limit candidates n i e) (evicted : Int) :
    ∃ m < n, j = i + m ∧
      limit < (evictLoop c limit candidates m i evicted e).2.memoryUsage c ∧
      ((evictLoop c limit candidates m i evicted e).2.victim c j candidates).1 = some k := by
  induction n generalizing i evicted e with
  | zero => exact absurd h List.not_mem_nil
  | succ n ih =>
      rw [evictions_succ] at h
      by_cases hover : e.memoryUsage c > limit
      · have hloop : ∀ m, evictLoop c limit candidates (m + 1) i evicted e = _ :=
          fun m => evictLoop_succ
        have hround := round_is c candidates i hfresh
        rw [if_pos hover] at h
        simp only [if_pos hover] at hloop
        generalize e.round c candidates i = r at h hloop hround
        cases hround with
        | stop hvictim => exact absurd h List.not_mem_nil
        | skip key hvictim hkey =>
            obtain ⟨m, hm, rfl, hmemory, hchoice⟩ := ih (fresh_victim hfresh) h evicted
            dsimp only at hloop
            rw [← hloop] at hmemory hchoice
            exact ⟨m + 1, by omega, by omega, hmemory, hchoice⟩
        | evict key m hvictim hm htype =>
            obtain heq | h := List.mem_cons.mp h
            · obtain ⟨rfl, rfl⟩ := Prod.mk.inj heq
              exact ⟨0, by omega, rfl, hover, hvictim⟩
            · have hleaves := evictKey_victim_leaves c e i candidates (c.putOk (i + 1)) m.type key
              obtain ⟨m', hm', rfl, hmemory, hchoice⟩ :=
                ih (fresh_evict hfresh hleaves) h (evicted + 1)
              dsimp only at hloop
              rw [← hloop] at hmemory hchoice
              exact ⟨m' + 1, by omega, by omega, hmemory, hchoice⟩
      · rw [if_neg hover] at h
        exact absurd h List.not_mem_nil

/-- There are no more evictions than rounds. -/
theorem length_evictions_le (c : Call) (limit : Int) (candidates : List Bytes) (n i : Nat)
    (e : Engine E) : (evictions c limit candidates n i e).length ≤ n := by
  induction n generalizing i e with
  | zero => exact le_rfl
  | succ n ih =>
      rw [evictions_succ]
      split
      · split
        · exact Nat.zero_le _
        · exact (ih _ _).trans (Nat.le_succ n)
        · exact Nat.succ_le_succ (ih _ _)
      · exact Nat.zero_le _

/-- No key is evicted twice. -/
theorem nodup_evictions (hfresh : ∀ k, (e.slot k).expired c.now = false) :
    ((evictions c limit candidates n i e).map Prod.snd).Nodup := by
  induction n generalizing i e with
  | zero => exact List.nodup_nil
  | succ n ih =>
      rw [evictions_succ]
      split
      · have hround := round_is c candidates i hfresh
        generalize e.round c candidates i = r at hround
        cases hround with
        | stop hvictim => exact List.nodup_nil
        | skip key hvictim hkey => exact ih (fresh_victim hfresh)
        | evict key m hvictim hm htype =>
            have hleaves := evictKey_victim_leaves c e i candidates (c.putOk (i + 1)) m.type key
            have hlater := fresh_evict hfresh hleaves
            refine List.nodup_cons.mpr ⟨fun hmem => ?_, ih hlater⟩
            obtain ⟨⟨j, k⟩, hjk, rfl⟩ := List.mem_map.mp hmem
            obtain ⟨m', hm', -⟩ :=
              (evictLoop_evicted limit candidates n (i + 1) 0 hlater).dropped j k hjk
            rw [hleaves.slot_self] at hm'
            contradiction
      · exact List.nodup_nil

/-- The counter of evictions is not raised by the eviction itself. -/
theorem evicted_evictKey (ok : Bool) (t : KeyType) :
    (e.evictKey ok t key).evicted = e.evicted := by
  unfold evictKey
  cases e.find t key with
  | none => rfl
  | some v =>
      unfold persist rocksPut
      cases ok <;> rfl

theorem evicted_victim : (e.victim c i candidates).2.evicted = e.evicted := by
  rw [victim_snd]

/-- The loop counts in a variable of its own. -/
theorem evicted_evictLoop (hfresh : ∀ k, (e.slot k).expired c.now = false) :
    (evictLoop c limit candidates n i evicted e).2.evicted = e.evicted := by
  induction n generalizing i evicted e with
  | zero => rfl
  | succ n ih =>
      rw [evictLoop_succ]
      split
      · have hround := round_is c candidates i hfresh
        generalize e.round c candidates i = r at hround
        cases hround with
        | stop hvictim => exact evicted_victim
        | skip key hvictim hkey => exact (ih (fresh_victim hfresh)).trans evicted_victim
        | evict key m hvictim hm htype =>
            have hleaves := evictKey_victim_leaves c e i candidates (c.putOk (i + 1)) m.type key
            calc
              _ = _ := ih (fresh_evict hfresh hleaves)
              _ = _ := evicted_evictKey _ _
              _ = _ := evicted_victim
      · rfl

theorem evicted_cleanupKey (now : Int) (acc : Int × Engine E) (key : Bytes) :
    (cleanupKey now acc key).2.evicted = acc.2.evicted := by
  unfold cleanupKey
  split
  · rename_i e' heq
    exact congrArg (fun res : Bool × Engine E => res.2.evicted) heq.symm
  · rename_i e' heq
    exact congrArg (fun res : Bool × Engine E => res.2.evicted) heq.symm

theorem evicted_cleanupExpired (c : Call) (e : Engine E) :
    (e.cleanupExpired c).2.evicted = e.evicted := by
  have hloop : ∀ (keys : List Bytes) (acc : Int × Engine E),
      (keys.foldl (cleanupKey c.now) acc).2.evicted = acc.2.evicted := by
    intro keys acc
    induction keys generalizing acc with
    | nil => rfl
    | cons key keys ih => exact (ih _).trans (evicted_cleanupKey c.now acc key)
  exact hloop e.metas.keys (0, e)

/-! ## the whole pass -/

/-- The keys evicted at most. -/
def maxEvict (c : Call) (e : Engine E) : Nat :=
  max 1 (((e.cleanupExpired c).2.candidates c).length / 10)

/-- The engine after `n` rounds of the loop. -/
def afterRounds (c : Call) (e : Engine E) (n : Nat) : Int × Engine E :=
  evictLoop c e.limit ((e.cleanupExpired c).2.candidates c) n 0 0 (e.cleanupExpired c).2

/-- The pass gets to the loop. -/
structure Evicts (c : Call) (e : Engine E) : Prop where
  limited : e.opts.maxMb ≠ 0
  policy : e.opts.eviction ≠ .kNoEviction
  crowded : e.lowMark ≤ (e.cleanupExpired c).2.memoryUsage c
  candidates : (e.cleanupExpired c).2.candidates c ≠ []

/-- The limit is a matter of the options, which cleanup leaves. -/
theorem limit_cleanupExpired : (e.cleanupExpired c).2.limit = e.limit := by
  unfold Engine.limit limit64
  rw [opts_cleanupExpired]

/-- The low mark is a matter of the options, too. -/
theorem lowMark_cleanupExpired : (e.cleanupExpired c).2.lowMark = e.lowMark := by
  unfold lowMark limit64
  rw [opts_cleanupExpired]

/-- A pass that evicts is its rounds, counted. -/
theorem Evicts.eq (h : e.Evicts c) :
    e.checkMemoryAndEvict c =
      { (e.afterRounds c (e.maxEvict c)).2 with
        evicted := (e.afterRounds c (e.maxEvict c)).2.evicted +
          (e.afterRounds c (e.maxEvict c)).1 } ∧
    e.evictedBy c = evictions c e.limit ((e.cleanupExpired c).2.candidates c) (e.maxEvict c) 0
      (e.cleanupExpired c).2 := by
  obtain ⟨hlimited, hpolicy, hcrowded, hcandidates⟩ := h
  simp [checkMemoryAndEvict, evictedBy, afterRounds, maxEvict, opts_cleanupExpired,
    limit_cleanupExpired, lowMark_cleanupExpired, hlimited, hpolicy, not_lt.mpr hcrowded,
    hcandidates]

/-- A pass that does not is the cleanup. -/
theorem eq_of_not_evicts (h : ¬ e.Evicts c) :
    e.checkMemoryAndEvict c = (e.cleanupExpired c).2 ∧ e.evictedBy c = [] := by
  unfold checkMemoryAndEvict evictedBy
  dsimp only
  split
  · exact ⟨rfl, rfl⟩
  split
  · exact ⟨rfl, rfl⟩
  split
  · exact ⟨rfl, rfl⟩
  · rename_i hlimited hcrowded hcandidates
    rw [opts_cleanupExpired, not_or] at hlimited
    rw [lowMark_cleanupExpired] at hcrowded
    exact absurd ⟨hlimited.1, hlimited.2, not_lt.mp hcrowded, hcandidates⟩ h

/-! ## the keys evicted -/

/-- The keys registered after cleanup and not at the end of the pass. -/
def evictedKeys (c : Call) (e : Engine E) : List Bytes :=
  (e.cleanupExpired c).2.metas.keys.filter fun k =>
    ((e.checkMemoryAndEvict c).slot k).metadata.isNone

/-- A key is evicted if some round evicts it. -/
theorem mem_evictedKeys : k ∈ e.evictedKeys c ↔ ∃ i, (i, k) ∈ e.evictedBy c := by
  have hpass := checkMemoryAndEvict_evicted c e
  rw [evictedKeys, List.mem_filter, mem_keys_iff, Option.isNone_iff_eq_none]
  constructor
  · rintro ⟨hbefore, hafter⟩
    by_contra hk
    rw [hpass.kept k (not_exists.mp hk)] at hafter
    exact hbefore hafter
  · rintro ⟨i, hk⟩
    obtain ⟨m, hm, hslot⟩ := hpass.dropped i k hk
    exact ⟨by simp [hm], by simp [hslot, Slot.evict]⟩

/-- Every such round evicts one key. -/
theorem length_evictedKeys : (e.evictedKeys c).length = (e.evictedBy c).length := by
  have hnodup : (e.evictedKeys c).Nodup := (e.cleanupExpired c).2.metas.keys_nodup.filter _
  have hnodup' : ((e.evictedBy c).map Prod.snd).Nodup := by
    by_cases h : e.Evicts c
    · rw [h.eq.2]
      exact nodup_evictions (fresh_cleanupExpired e c)
    · rw [(eq_of_not_evicts h).2]
      exact List.nodup_nil
  have hperm : (e.evictedKeys c).Perm ((e.evictedBy c).map Prod.snd) := by
    refine (List.perm_ext_iff_of_nodup hnodup hnodup').mpr fun k => ?_
    rw [mem_evictedKeys]
    simp
  rw [hperm.length_eq, List.length_map]

/-- The pass evicts as many keys as it counts. -/
theorem evicted_checkMemoryAndEvict :
    (e.checkMemoryAndEvict c).evicted = e.evicted + ((e.evictedKeys c).length : Nat) := by
  rw [length_evictedKeys]
  by_cases h : e.Evicts c
  · have hfresh := fresh_cleanupExpired e c
    rw [h.eq.1, h.eq.2]
    dsimp only
    rw [afterRounds, evicted_evictLoop hfresh, evictLoop_fst _ _ _ _ _ hfresh,
      evicted_cleanupExpired, Int.zero_add]
  · rw [(eq_of_not_evicts h).1, (eq_of_not_evicts h).2, evicted_cleanupExpired]
    simp

/-! ## the keys chosen -/

/-- The loop of a policy ends with one of the keys or with what it had. -/
theorem mem_of_selectVictim {β : Type} [LT β] [DecidableLT β] {value : Bytes → β}
    {counts : β → Bool} {keys : List Bytes} {best : Option Bytes} {bound : β}
    (h : selectVictim value counts keys best bound = some k) : k ∈ keys ∨ best = some k := by
  induction keys generalizing best bound with
  | nil => exact .inr h
  | cons k' keys ih =>
      unfold selectVictim at h
      split at h
      · obtain hk | hk := ih h
        · exact .inl (List.mem_cons_of_mem _ hk)
        · exact .inl (Option.some.inj hk ▸ List.mem_cons_self)
      · exact (ih h).imp_left (List.mem_cons_of_mem _)

/-- Started with none, it ends with one of the keys. -/
theorem mem_of_selected {β : Type} [LT β] [DecidableLT β] {value : Bytes → β}
    {counts : β → Bool} {keys : List Bytes} {bound : β}
    (h : selectVictim value counts keys none bound = some k) : k ∈ keys :=
  (mem_of_selectVictim h).resolve_right (Option.some_ne_none k).symm

/-- Only the 2Q tracker chooses keys that are no candidates. -/
theorem mem_of_victim (hpolicy : e.opts.eviction ≠ .k2Q)
    (h : (e.victim c i candidates).1 = some k) : k ∈ candidates := by
  unfold victim at h
  cases hkind : e.opts.eviction with
  | k2Q => exact absurd hkind hpolicy
  | kNoEviction => simp [hkind] at h
  | kAllKeysRandom | kVolatileRandom =>
      simp only [hkind, selectVictimRandom] at h
      split at h
      · contradiction
      · exact List.mem_of_getElem? h
  | _ =>
      simp only [hkind] at h
      exact mem_of_selected h

/-- The rounds leave the options. -/
theorem opts_afterRounds (n : Nat) : (e.afterRounds c n).2.opts = e.opts := by
  unfold afterRounds
  rw [(evictLoop_evicted _ _ n 0 0 (fresh_cleanupExpired e c)).opts, opts_cleanupExpired]

/-- The round that evicts a key finds too much memory in use and chooses the key. -/
theorem chosen_of_mem_evictedKeys (h : k ∈ e.evictedKeys c) :
    ∃ n < e.maxEvict c, e.limit < (e.afterRounds c n).2.memoryUsage c ∧
      ((e.afterRounds c n).2.victim c n ((e.cleanupExpired c).2.candidates c)).1 = some k := by
  obtain ⟨i, hk⟩ := mem_evictedKeys.mp h
  have hpass : e.Evicts c := by
    by_contra hnot
    rw [(eq_of_not_evicts hnot).2] at hk
    contradiction
  rw [hpass.eq.2] at hk
  obtain ⟨n, hn, rfl, hmemory, hchoice⟩ := mem_evictions (fresh_cleanupExpired e c) hk 0
  rw [Nat.zero_add] at hchoice
  exact ⟨n, hn, hmemory, hchoice⟩

/-- With nothing expired and too much memory in use, the key that the policy chooses first is
evicted if it is registered. -/
theorem mem_evictedKeys_of_first (hpass : e.Evicts c)
    (hfresh : ∀ k, (e.slot k).expired c.now = false) (hover : e.limit < e.memoryUsage c)
    (hchosen : (e.victim c 0 (e.candidates c)).1 = some k) (htyped : e.typed k = true) :
    k ∈ e.evictedKeys c := by
  obtain ⟨n, hn⟩ : ∃ n, e.maxEvict c = n + 1 := Nat.exists_eq_add_of_le' (le_max_left 1 _)
  refine mem_evictedKeys.mpr ⟨0, ?_⟩
  rw [hpass.eq.2, hn, cleanupExpired_of_fresh hfresh, evictions_succ, if_pos hover]
  have hround := round_is c (e.candidates c) 0 hfresh
  generalize e.round c (e.candidates c) 0 = r at hround
  cases hround with
  | stop hvictim =>
      rw [hchosen] at hvictim
      contradiction
  | skip key hvictim hkey =>
      obtain rfl : k = key := Option.some.inj (hchosen.symm.trans hvictim)
      rw [htyped] at hkey
      contradiction
  | evict key m hvictim hm htype =>
      obtain rfl : k = key := Option.some.inj (hchosen.symm.trans hvictim)
      exact List.mem_cons_self

/-- A key that is not expired has its time to live after cleanup. -/
theorem getTtlMs_cleanupExpired (h : (e.slot k).expired c.now = false) :
    (e.cleanupExpired c).2.metas.getTtlMs c.now k = e.metas.getTtlMs c.now k := by
  have hslot := slot_cleanupExpired e c k
  rw [h, if_neg Bool.false_ne_true] at hslot
  have hlookup : (e.cleanupExpired c).2.metas.lookup k = e.metas.lookup k :=
    congrArg Slot.metadata hslot
  unfold KeyMetadataManager.getTtlMs
  rw [hlookup]

/-- A volatile policy evicts only what has some time to live. -/
theorem ttl_of_mem_evictedKeys (hvolatile : e.opts.eviction.volatileOnly = true)
    (h : k ∈ e.evictedKeys c) : 0 < e.metas.getTtlMs c.now k := by
  obtain ⟨n, -, -, hchoice⟩ := chosen_of_mem_evictedKeys h
  obtain ⟨i, hk⟩ := mem_evictedKeys.mp h
  have hpolicy : (e.afterRounds c n).2.opts.eviction ≠ .k2Q := by
    rw [opts_afterRounds]
    intro heq
    simp [heq, EvictionPolicy.volatileOnly] at hvolatile
  have hmem := mem_of_victim hpolicy hchoice
  unfold Engine.candidates at hmem
  rw [List.mem_filter, decide_eq_true_iff, opts_cleanupExpired, hvolatile] at hmem
  have hfresh := not_expired_of_valid (valid_of_evictedBy hk).1
  rw [← getTtlMs_cleanupExpired hfresh]
  simpa using hmem.2

/-- Where the cleanup is enough nothing is evicted. -/
theorem evictedBy_of_cleaned_le (h : (e.cleanupExpired c).2.memoryUsage c ≤ e.limit) :
    e.evictedBy c = [] := by
  by_cases hpass : e.Evicts c
  · obtain ⟨n, hn⟩ : ∃ n, e.maxEvict c = n + 1 := Nat.exists_eq_add_of_le' (le_max_left 1 _)
    rw [hpass.eq.2, hn, evictions_succ, if_neg (not_lt.mpr h)]
  · exact (eq_of_not_evicts hpass).2

/-- What a pass does to the keys: it evicts none while too little memory is in use or the policy
evicts none, under a volatile policy only keys with time left to live, no more than the bound, as
many as it counts, and every other key that is not expired is as it was. -/
theorem pass_frame (e : Engine E) (c : Call) :
    (e.opts.maxMb = 0 ∨ e.opts.eviction = .kNoEviction ∨ e.memoryUsage c ≤ e.limit →
      e.evictedKeys c = []) ∧
    (∀ k ∈ e.evictedKeys c, ∃ n, e.limit < (e.afterRounds c n).2.memoryUsage c ∧
      ((e.afterRounds c n).2.victim c n ((e.cleanupExpired c).2.candidates c)).1 = some k) ∧
    (e.opts.eviction.volatileOnly = true →
      ∀ k ∈ e.evictedKeys c, 0 < e.metas.getTtlMs c.now k) ∧
    (e.evictedKeys c).length ≤ max 1 (((e.cleanupExpired c).2.candidates c).length / 10) ∧
    (e.checkMemoryAndEvict c).evicted = e.evicted + ((e.evictedKeys c).length : Nat) ∧
    ∀ k, (e.slot k).expired c.now = false → k ∉ e.evictedKeys c →
      (e.checkMemoryAndEvict c).slot k = e.slot k := by
  refine ⟨?_, fun k hk => ?_, fun hvolatile k => ttl_of_mem_evictedKeys hvolatile, ?_,
    evicted_checkMemoryAndEvict, fun k hfresh hk => ?_⟩
  · intro hidle
    have hnone : e.evictedBy c = [] := by
      by_cases hpass : e.Evicts c
      · obtain hmax | hpolicy | hmemory := hidle
        · exact absurd hmax hpass.limited
        · exact absurd hpolicy hpass.policy
        · exact evictedBy_of_cleaned_le ((memoryUsage_cleanupExpired_le c).trans hmemory)
      · exact (eq_of_not_evicts hpass).2
    refine List.eq_nil_iff_forall_not_mem.mpr fun k hk => ?_
    obtain ⟨i, hk⟩ := mem_evictedKeys.mp hk
    rw [hnone] at hk
    contradiction
  · obtain ⟨n, -, h⟩ := chosen_of_mem_evictedKeys hk
    exact ⟨n, h⟩
  · rw [length_evictedKeys]
    by_cases hpass : e.Evicts c
    · rw [hpass.eq.2]
      exact length_evictions_le _ _ _ _ _ _
    · rw [(eq_of_not_evicts hpass).2]
      exact Nat.zero_le _
  · rw [(checkMemoryAndEvict_evicted c e).kept k (not_exists.mp (mt mem_evictedKeys.mpr hk)),
      slot_cleanupExpired, hfresh, if_neg Bool.false_ne_true]

end Engine

end AstraKV
