import AstraKV.Engine.Victims

/-!
# AstraKV.Engine.Progress

When a pass that starts with too much memory in use gets anywhere: the keys
the policy chooses must still be registered when their round comes.

A round is wasted when the policy names a key that an earlier round has
evicted, or one that is not registered at all, and the loop has no more rounds
than it is given. So the measure is what the registered keys among those to
come take up (`held`): each round that evicts lowers the usage and the measure
by the same amount. `Suffices` is the condition on the keys chosen, and
`Progresses` what it is equivalent to: something is evicted, and the pass ends
within the limit or with all its rounds used.
-/

namespace AstraKV

open Slot Machine

namespace Engine

variable {E : Env} {e e₁ : Engine E} {c : Call} {limit : Int} {candidates keys : List Bytes}
  {n i j : Nat} {evicted : Int} {k key : Bytes}

/-! ## the keys that can be dropped -/

/-- The registered keys among `keys`. -/
def evictable (e : Engine E) (keys : List Bytes) : Finset Bytes :=
  keys.toFinset.filter fun k => e.typed k

/-- What the registered keys among `keys` take up. -/
def held (c : Call) (e : Engine E) (keys : List Bytes) : Nat :=
  ∑ k ∈ e.evictable keys, (e.slot k).footprint c k

/-- Whether a key can be dropped depends on its slot. -/
theorem typed_of_slot (h : e₁.slot k = e.slot k) : e₁.typed k = e.typed k := by
  have hlookup : e₁.metas.lookup k = e.metas.lookup k := congrArg Slot.metadata h
  unfold typed
  rw [hlookup]

theorem evictable_of_slot (h : e₁.slot = e.slot) : e₁.evictable keys = e.evictable keys := by
  have htyped : ∀ k, e₁.typed k = e.typed k := fun k => typed_of_slot (congrFun h k)
  simp only [evictable, htyped]

theorem held_of_slot (h : e₁.slot = e.slot) : held c e₁ keys = held c e keys := by
  unfold held
  rw [evictable_of_slot h, h]

/-- A key that cannot be dropped does not count. -/
theorem evictable_cons_of_not_typed (h : e.typed key = false) :
    e.evictable (key :: keys) = e.evictable keys := by
  simp [evictable, Finset.filter_insert, h]

theorem held_cons_of_not_typed (h : e.typed key = false) :
    held c e (key :: keys) = held c e keys := by
  unfold held
  rw [evictable_cons_of_not_typed h]

section Evict

variable {s : Slot E}

/-- A key that is dropped does not count again. -/
theorem evictable_dropped (h : Leaves e key s e₁) (hs : s.metadata = none) :
    e₁.evictable keys = (e.evictable keys).erase key := by
  ext k
  by_cases hk : k = key
  · subst hk
    have hlookup : e₁.metas.lookup k = none := by
      rw [← hs, ← h.slot_self]
      rfl
    simp [evictable, typed, hlookup]
  · have hslot : e₁.slot k = e.slot k := by rw [h.slot, Function.update_of_ne hk]
    simp [evictable, hk, typed_of_slot hslot]

/-- A key that can be dropped counts once, and no more afterwards. -/
theorem evictable_cons (h : Leaves e key s e₁) (hs : s.metadata = none)
    (htyped : e.typed key = true) :
    e.evictable (key :: keys) = (e₁.evictable keys).cons key (by
      rw [evictable_dropped h hs]
      exact Finset.notMem_erase key _) := by
  ext k
  rw [Finset.mem_cons, evictable_dropped h hs, Finset.mem_erase]
  by_cases hk : k = key
  · simp [evictable, hk, htyped]
  · simp [evictable, hk]

/-- So the keys are one more with it. -/
theorem card_evictable_cons (h : Leaves e key s e₁) (hs : s.metadata = none)
    (htyped : e.typed key = true) :
    (e.evictable (key :: keys)).card = (e₁.evictable keys).card + 1 := by
  rw [evictable_cons h hs htyped, Finset.card_cons]

theorem held_cons (h : Leaves e key s e₁) (hs : s.metadata = none) (htyped : e.typed key = true) :
    held c e (key :: keys) = (e.slot key).footprint c key + held c e₁ keys := by
  unfold held
  rw [evictable_cons h hs htyped, Finset.sum_cons]
  congr 1
  refine Finset.sum_congr rfl fun k hk => ?_
  rw [evictable_dropped h hs] at hk
  rw [h.slot, Function.update_of_ne (Finset.ne_of_mem_erase hk)]

end Evict

/-! ## the loop -/

/-- Evicting a key lowers the usage by its share. -/
theorem memoryUsage_evictKey_victim (c : Call) (i : Nat) (candidates : List Bytes)
    {m : KeyMetadata} (hm : e.metas.lookup key = some m) (ok : Bool) :
    ((e.victim c i candidates).2.evictKey ok m.type key).memoryUsage c +
        ((e.slot key).footprint c key : Nat) = e.memoryUsage c := by
  have hlookup : (e.victim c i candidates).2.metas.lookup key = some m := by
    rw [victim_snd]
    exact hm
  have hmemory := memoryUsage_evictKey (c := c) hlookup ok
  rwa [slot_victim, memoryUsage_victim] at hmemory

/-- Once a key is dropped its part is done. -/
theorem suffices_cons {s : Slot E} {m : Nat} (h : Leaves e key s e₁) (hs : s.metadata = none)
    (htyped : e.typed key = true)
    (hmemory : e₁.memoryUsage c + ((e.slot key).footprint c key : Nat) = e.memoryUsage c) :
    (e₁.memoryUsage c - held c e₁ keys ≤ limit ∨ m ≤ (e₁.evictable keys).card) ↔
      (e.memoryUsage c - held c e (key :: keys) ≤ limit ∨
        m + 1 ≤ (e.evictable (key :: keys)).card) := by
  rw [held_cons h hs htyped, card_evictable_cons h hs htyped, Nat.add_le_add_iff_right]
  push_cast at hmemory ⊢
  rw [← hmemory]
  constructor <;> rintro (hle | hle) <;> omega

/-- When the loop ends with little enough memory in use or after `m` evictions. -/
theorem enough_iff (h : Draws c candidates n i e keys)
    (hfresh : ∀ k, (e.slot k).expired c.now = false) (evicted : Int) (m : Nat) :
    ((evictLoop c limit candidates n i evicted e).2.memoryUsage c ≤ limit ∨
        m ≤ (evictions c limit candidates n i e).length) ↔
      (e.memoryUsage c - held c e keys ≤ limit ∨ m ≤ (e.evictable keys).card) := by
  induction h generalizing evicted m with
  | done i e => simp [evictLoop, evictions, held, evictable]
  | stop n i e hnone =>
      have hround := round_is c candidates i hfresh
      rw [evictLoop_succ, evictions_succ]
      generalize e.round c candidates i = r at hround
      split
      · cases hround with
        | stop _ => simp [held, evictable, memoryUsage_victim]
        | skip key hvictim _ | evict key _ hvictim _ _ =>
            rw [hnone] at hvictim
            contradiction
      · simp [held, evictable]
  | @next n i e e₁ key keys evicts hchosen hr hnext ih =>
      rw [evictLoop_succ, evictions_succ]
      by_cases hover : e.memoryUsage c > limit
      · have hround := round_is c candidates i hfresh
        rw [if_pos hover, if_pos hover]
        generalize e.round c candidates i = r at hround hr
        cases hround with
        | stop hvictim => simp at hr
        | skip key' hvictim htyped =>
            cases hr
            obtain rfl : key = key' := Option.some.inj (hchosen.symm.trans hvictim)
            have hslot := slot_victim c e i candidates
            have hrest := ih (fresh_victim hfresh) evicted m
            rw [memoryUsage_victim, held_of_slot hslot, evictable_of_slot hslot] at hrest
            rw [held_cons_of_not_typed htyped, evictable_cons_of_not_typed htyped]
            exact hrest
        | evict key' m₀ hvictim hm htype =>
            cases hr
            obtain rfl : key = key' := Option.some.inj (hchosen.symm.trans hvictim)
            have htyped : e.typed key = true := by simp [typed, hm, htype]
            have hleaves := evictKey_victim_leaves c e i candidates (c.putOk (i + 1)) m₀.type key
            have hmemory := memoryUsage_evictKey_victim c i candidates hm (c.putOk (i + 1))
            have hrest := ih (fresh_evict hfresh hleaves) (evicted + 1)
            cases m with
            | zero => simp
            | succ m =>
                rw [← suffices_cons hleaves rfl htyped hmemory, ← hrest m]
                simp
      · have hle := not_lt.mp hover
        rw [if_neg hover, if_neg hover]
        refine iff_of_true (.inl hle) (.inl ?_)
        omega

/-- Rounds that evict nothing leave it. -/
theorem memoryUsage_of_no_evictions (hfresh : ∀ k, (e.slot k).expired c.now = false)
    (evicted : Int) (h : evictions c limit candidates n i e = []) :
    (evictLoop c limit candidates n i evicted e).2.memoryUsage c = e.memoryUsage c := by
  induction n generalizing i e with
  | zero => rfl
  | succ n ih =>
      have hround := round_is c candidates i hfresh
      rw [evictions_succ] at h
      rw [evictLoop_succ]
      generalize e.round c candidates i = r at hround h
      split
      · rename_i hover
        rw [if_pos hover] at h
        cases hround with
        | stop hvictim => exact memoryUsage_victim c e i candidates
        | skip key hvictim htyped =>
            exact (ih (fresh_victim hfresh) h).trans (memoryUsage_victim c e i candidates)
        | evict key m hvictim hm htype => simp at h
      · rfl

/-! ## the whole pass -/

/-- The pass evicts a key, and ends with little enough memory in use or after the evictions it may
make at most. -/
def Progresses (c : Call) (e : Engine E) : Prop :=
  e.evictedKeys c ≠ [] ∧
    ((e.checkMemoryAndEvict c).memoryUsage c ≤ e.limit ∨
      (e.evictedKeys c).length = max 1 (((e.cleanupExpired c).2.candidates c).length / 10))

/-- The keys that the policy chooses in `n` rounds and that are registered are `n`, or take up what
is too much. -/
def Suffices (c : Call) (e : Engine E) (n : Nat) : Prop :=
  let keys := e.victims c (e.candidates c) n 0
  e.memoryUsage c - held c e keys ≤ e.limit ∨ n ≤ (e.evictable keys).card

/-- With too much memory in use and candidates there, the pass progresses if and only if enough of
the keys that the policy chooses are registered. -/
theorem progresses_of_crowded (hmax : e.opts.maxMb ≠ 0) (hpolicy : e.opts.eviction ≠ .kNoEviction)
    (hcrowded : e.lowMark ≤ (e.cleanupExpired c).2.memoryUsage c)
    (hmemory : e.limit < (e.cleanupExpired c).2.memoryUsage c)
    (hcandidates : (e.cleanupExpired c).2.candidates c ≠ []) :
    e.Progresses c ↔ (e.cleanupExpired c).2.Suffices c
      (max 1 (((e.cleanupExpired c).2.candidates c).length / 10)) := by
  have hpass : e.Evicts c := ⟨hmax, hpolicy, hcrowded, hcandidates⟩
  have hfresh := fresh_cleanupExpired e c
  have hdraws : Draws c ((e.cleanupExpired c).2.candidates c) (e.maxEvict c) 0
      (e.cleanupExpired c).2 ((e.cleanupExpired c).2.victims c
        ((e.cleanupExpired c).2.candidates c) (e.maxEvict c) 0) := draws_victims hfresh
  have henough : ((e.afterRounds c (e.maxEvict c)).2.memoryUsage c ≤ e.limit ∨ _) ↔ _ :=
    enough_iff hdraws hfresh 0 (e.maxEvict c)
  have hafter : (e.checkMemoryAndEvict c).memoryUsage c =
      (e.afterRounds c (e.maxEvict c)).2.memoryUsage c := by
    rw [hpass.eq.1]
    rfl
  have hlength := length_evictions_le c e.limit ((e.cleanupExpired c).2.candidates c)
    (e.maxEvict c) 0 (e.cleanupExpired c).2
  rw [← hpass.eq.2, ← length_evictedKeys] at henough hlength
  unfold Progresses Suffices
  rw [hafter, limit_cleanupExpired]
  refine Iff.trans ?_ henough
  constructor
  · exact fun h => h.2.imp_right Eq.ge
  · intro h
    refine ⟨fun hnone => ?_, h.imp_right fun hle => hlength.antisymm hle⟩
    have hpos : 1 ≤ e.maxEvict c := le_max_left 1 _
    have hno : evictions c e.limit ((e.cleanupExpired c).2.candidates c) (e.maxEvict c) 0
        (e.cleanupExpired c).2 = [] := by
      rw [← hpass.eq.2, ← List.length_eq_zero_iff, ← length_evictedKeys, hnone, List.length_nil]
    have hsame := memoryUsage_of_no_evictions hfresh 0 hno
    obtain hle | hle := h
    · exact absurd hle (not_le.mpr (hmemory.trans_eq hsame.symm))
    · rw [hnone, List.length_nil] at hle
      omega

/-- The pass progresses if and only if cleanup leaves too much memory in use and candidates, and
enough of the keys that the policy chooses are registered.  That the memory in use is not below the
low mark says more than that it is above the limit only for a negative limit, see `lowMark_le`. -/
theorem progresses_iff (hmax : e.opts.maxMb ≠ 0) (hpolicy : e.opts.eviction ≠ .kNoEviction) :
    e.Progresses c ↔ e.lowMark ≤ (e.cleanupExpired c).2.memoryUsage c ∧
      e.limit < (e.cleanupExpired c).2.memoryUsage c ∧
      (e.cleanupExpired c).2.candidates c ≠ [] ∧
      (e.cleanupExpired c).2.Suffices c
        (max 1 (((e.cleanupExpired c).2.candidates c).length / 10)) := by
  constructor
  · intro h
    obtain ⟨k, hk⟩ := List.exists_mem_of_ne_nil _ h.1
    obtain ⟨i, hk⟩ := mem_evictedKeys.mp hk
    have hpass : e.Evicts c := by
      by_contra hidle
      rw [(eq_of_not_evicts hidle).2] at hk
      contradiction
    have hmemory : e.limit < (e.cleanupExpired c).2.memoryUsage c := by
      by_contra hle
      rw [evictedBy_of_cleaned_le (not_lt.mp hle)] at hk
      contradiction
    exact ⟨hpass.crowded, hmemory, hpass.candidates,
      (progresses_of_crowded hmax hpolicy hpass.crowded hmemory hpass.candidates).mp h⟩
  · rintro ⟨hcrowded, hmemory, hcandidates, henough⟩
    exact (progresses_of_crowded hmax hpolicy hcrowded hmemory hcandidates).mpr henough

/-! ## what the policies choose -/

/-- LRU and LFU choose one key, and so what it takes up must do unless one eviction is all that is
allowed. -/
theorem suffices_of_replicate (hn : 1 ≤ n) (htyped : e.typed key = true)
    (hkeys : e.victims c (e.candidates c) n 0 = List.replicate n key) :
    e.Suffices c n ↔ e.memoryUsage c - (e.slot key).footprint c key ≤ e.limit ∨ n ≤ 1 := by
  have hone : e.evictable (List.replicate n key) = {key} := by
    rw [evictable, List.toFinset_replicate_of_ne_zero (by omega), Finset.filter_singleton,
      if_pos htyped]
  simp [Suffices, hkeys, held, hone]

/-- The keys chosen by time to live are candidates. -/
theorem mem_of_mem_byTtl (h : k ∈ byTtl c e n keys) : k ∈ keys := by
  induction n generalizing keys with
  | zero => exact absurd h List.not_mem_nil
  | succ n ih =>
      unfold byTtl at h
      cases hkey : selectVictimTtl keys e.metas c.now with
      | none => simp [hkey] at h
      | some key =>
          have hmem := mem_of_selected hkey
          simp only [hkey, List.mem_cons] at h
          obtain rfl | h := h
          · exact hmem
          · have hrest := ih h
            split at hrest
            · exact List.mem_of_mem_filter hrest
            · exact hrest

/-- A policy chooses a key if one has a value below the bound. -/
theorem isSome_selectVictim {β : Type} [LT β] [DecidableLT β] {value : Bytes → β}
    {counts : β → Bool} {best : Option Bytes} {bound : β}
    (h : best.isSome ∨ ∃ k ∈ keys, counts (value k) = true ∧ value k < bound) :
    (selectVictim value counts keys best bound).isSome := by
  induction keys generalizing best bound with
  | nil => simpa [selectVictim] using h
  | cons k keys ih =>
      unfold selectVictim
      split
      · exact ih (.inl rfl)
      · rename_i hnot
        refine ih (h.imp_right ?_)
        rintro ⟨k', hk', hcounts⟩
        obtain rfl | hk' := List.mem_cons.mp hk'
        · exact absurd hcounts hnot
        · exact ⟨k', hk', hcounts⟩

/-- Candidates with a type of value and an expiry time within bounds are chosen one by one. -/
theorem card_evictable_byTtl (hnodup : keys.Nodup) (hn : n ≤ keys.length)
    (htyped : ∀ k ∈ keys, e.typed k = true)
    (httl : ∀ k ∈ keys, 0 < e.metas.getTtlMs c.now k ∧ e.metas.getTtlMs c.now k < 2 ^ 63 - 1) :
    (e.evictable (byTtl c e n keys)).card = n := by
  induction n generalizing keys with
  | zero => rfl
  | succ n ih =>
      obtain ⟨k, hk⟩ := List.exists_mem_of_length_pos (by omega : 0 < keys.length)
      have hsome : (selectVictimTtl keys e.metas c.now).isSome :=
        isSome_selectVictim (.inr ⟨k, hk, by simpa using (httl k hk).1, (httl k hk).2⟩)
      obtain ⟨key, hkey⟩ := Option.isSome_iff_exists.mp hsome
      have hmem : key ∈ keys := mem_of_selected hkey
      have hsub : ∀ k ∈ keys.filter (· ≠ key), k ∈ keys := fun _ => List.mem_of_mem_filter
      have hlength : (keys.filter (· ≠ key)).length = keys.length - 1 := by
        have hfilter : keys.filter (· ≠ key) = keys.erase key := by
          rw [hnodup.erase_eq_filter]
          exact List.filter_congr fun k _ => by rw [Bool.eq_iff_iff]; simp
        rw [hfilter, List.length_erase_of_mem hmem]
      have hrest := ih (hnodup.filter _) (by omega) (fun k hk => htyped k (hsub k hk))
        fun k hk => httl k (hsub k hk)
      have hfresh : key ∉ e.evictable (byTtl c e n (keys.filter (· ≠ key))) := by
        intro h
        have hmem := mem_of_mem_byTtl (List.mem_toFinset.mp (Finset.mem_of_mem_filter key h))
        simp at hmem
      unfold byTtl
      simp only [hkey, htyped key hmem, if_pos]
      rw [evictable, List.toFinset_cons, Finset.filter_insert, if_pos (htyped key hmem),
        ← evictable, Finset.card_insert_of_notMem hfresh, hrest]

/-- The policy by time to live always chooses enough. -/
theorem suffices_of_ttl (hpolicy : e.opts.eviction = .kVolatileTTL)
    (hn : n ≤ (e.candidates c).length) (htyped : ∀ k ∈ e.candidates c, e.typed k = true)
    (httl : ∀ k ∈ e.candidates c, e.metas.getTtlMs c.now k < 2 ^ 63 - 1) : e.Suffices c n := by
  have hkeys : e.victims c (e.candidates c) n 0 = byTtl c e n (e.candidates c) := by
    rw [victims, hpolicy]
  have hpos : ∀ k ∈ e.candidates c, 0 < e.metas.getTtlMs c.now k := by
    intro k hk
    rw [Engine.candidates, hpolicy] at hk
    simpa [EvictionPolicy.volatileOnly] using (List.mem_filter.mp hk).2
  have hcard := card_evictable_byTtl (e.metas.keys_nodup.filter _) hn htyped
    fun k hk => ⟨hpos k hk, httl k hk⟩
  unfold Suffices
  rw [hkeys]
  exact .inr hcard.ge

/-! ## a run -/

/-- A stream with an entry, added before the policy evicts. -/
def streamed (policy : EvictionPolicy) (value : Bytes) : Engine Env.bare :=
  final step (new Env.bare ⟨[], 1, .kNoEviction⟩ none)
    [(.ofNow 5, .xadd [107] [53, 45, 48] [([102], value)]), (.ofNow 5, .setEviction policy)]

/-- The engine of the example, field by field. -/
theorem streamed_eq (policy : EvictionPolicy) (value : Bytes) :
    ∃ data, streamed policy value = ⟨⟨[], 1, policy⟩, .empty, 0, 0, 0, 0, 0, 0, data,
      AList.insert [107] ⟨.kStream, none, 1, 0, 0⟩ ∅, none⟩ ∧ ∀ t, t ≠ .kStream → data t = ∅ := by
  refine ⟨_, rfl, fun t ht => ?_⟩
  cases t <;> first | contradiction | rfl

/-- What it has in use. -/
theorem memoryUsage_streamed (policy : EvictionPolicy) (value : Bytes) :
    (streamed policy value).memoryUsage (.ofNow 6) = value.length + 117 := by
  have hstream : (streamed policy value).mapMemory (.ofNow 6) .kStream =
      1 + (3 + 16 + (1 + value.length + 32 + 0) + 0) + 0 := rfl
  have hother : ∀ t, t ≠ .kStream → (streamed policy value).mapMemory (.ofNow 6) t = 0 := by
    obtain ⟨data, hdata, hempty⟩ := streamed_eq policy value
    intro t ht
    rw [hdata]
    simp [mapMemory, hempty t ht]
  have hcount : (streamed policy value).count = 1 := rfl
  simp [memoryUsage, hstream, hother, hcount]
  omega

/-- Nothing of it expires. -/
theorem cleanupExpired_streamed (policy : EvictionPolicy) (value : Bytes) :
    ((streamed policy value).cleanupExpired (.ofNow 6)).2 = streamed policy value := by
  obtain ⟨data, hdata, -⟩ := streamed_eq policy value
  rw [hdata]
  rfl

/-- Its limit is one megabyte. -/
theorem limit_streamed (policy : EvictionPolicy) (value : Bytes) :
    (streamed policy value).limit = 2 ^ 20 := by
  have hmax : (streamed policy value).opts.maxMb = 1 := rfl
  rw [limit_of_lt (by rw [hmax]; decide), hmax]
  rfl

/-- More memory is in use than the limit. -/
theorem streamed_over (policy : EvictionPolicy) :
    (streamed policy (List.replicate (2 ^ 20) 0)).limit <
      (streamed policy (List.replicate (2 ^ 20) 0)).memoryUsage (.ofNow 6) := by
  rw [limit_streamed, memoryUsage_streamed, List.length_replicate]
  norm_num

theorem progresses_streamed :
    (streamed .kAllKeysLRU (List.replicate (2 ^ 20) 0)).Progresses (.ofNow 6) := by
  have hclean := cleanupExpired_streamed .kAllKeysLRU (List.replicate (2 ^ 20) 0)
  have hcandidates : ((streamed .kAllKeysLRU (List.replicate (2 ^ 20) 0)).cleanupExpired
      (.ofNow 6)).2.candidates (.ofNow 6) = [[107]] := by
    rw [hclean]
    rfl
  have hover := streamed_over .kAllKeysLRU
  refine (progresses_iff (c := .ofNow 6) (by decide) (by decide)).mpr ⟨?_, ?_, ?_, ?_⟩
  · rw [hclean]
    exact (lowMark_le (by rw [limit_streamed]; decide)).trans hover.le
  · rw [hclean]
    exact hover
  · rw [hcandidates]
    exact List.cons_ne_nil _ _
  · rw [hcandidates, hclean]
    exact .inr (by decide)

/-- The 2Q tracker knows nothing of a stream, and so nothing is evicted. -/
theorem stream_never_evicted :
    let e := streamed .k2Q (List.replicate (2 ^ 20) 0)
    e.limit < (e.cleanupExpired (.ofNow 6)).2.memoryUsage (.ofNow 6) ∧
      (e.cleanupExpired (.ofNow 6)).2.candidates (.ofNow 6) = [[107]] ∧
      ¬ e.Progresses (.ofNow 6) := by
  intro e
  have hclean : (e.cleanupExpired (.ofNow 6)).2 = e := cleanupExpired_streamed _ _
  have hcandidates : e.candidates (.ofNow 6) = [[107]] := rfl
  have hover : e.limit < e.memoryUsage (.ofNow 6) := streamed_over _
  have hvictim : (e.victim (.ofNow 6) 0 [[107]]).1 = none := rfl
  have hround : e.round (.ofNow 6) [[107]] 0 = (none, (e.victim (.ofNow 6) 0 [[107]]).2) := rfl
  have hnone : e.evictedBy (.ofNow 6) = [] := by
    by_cases hpass : e.Evicts (.ofNow 6)
    · rw [hpass.eq.2, maxEvict, hclean, hcandidates]
      show evictions _ _ _ 1 0 e = []
      rw [evictions_succ, if_pos hover, hround]
    · exact (eq_of_not_evicts hpass).2
  rw [hclean]
  refine ⟨hover, hcandidates, fun h => h.1 ?_⟩
  rw [← List.length_eq_zero_iff, length_evictedKeys, hnone, List.length_nil]

end Engine

end AstraKV
