import AstraKV.Engine.LeastVictim

/-!
# AstraKV.Engine.Recency

What LRU takes for the time of the last use, in runs of `put` and `get`.

A `get` notes its time modulo 2^24 ms, and a `put` notes none: its key has
fresh metadata with the time 0.

The stamp in the metadata has 24 bits, so the times of two uses compare the
right way only if they lie within the same period, and a key last put has the
stamp zero, older than everything. Whether LRU picks a key used no later than
the others is therefore a condition on the stamps of the last uses
(`StampsInOrder`), which depend on the calls and their clock alone.
-/

namespace AstraKV

open Machine Slot

/-- A call that uses a key. -/
inductive Use where
  | put (key value : Bytes)
  | get (key : Bytes)

namespace Use

def op : Use → Op
  | .put key value => .put key value
  | .get key => .get key

def key : Use → Bytes
  | .put key _ | .get key => key

/-- The access time that is left in the metadata. -/
def stamp (now : Int) : Use → UInt32
  | .put _ _ => 0
  | .get _ => UInt32.ofNat (now % 2 ^ 24).toNat

/-- The operation of a use is about its key. -/
theorem op_key (u : Use) : u.op.key = some u.key := by
  cases u <;> rfl

/-- A stamp has 24 bits. -/
theorem stamp_lt (now : Int) (u : Use) : (u.stamp now).toNat < 2 ^ 24 := by
  cases u with
  | put key value => exact Nat.two_pow_pos 24
  | get key =>
      have hmod : (now % 2 ^ 24).toNat < 2 ^ 24 := by omega
      rw [stamp, UInt32.toNat_ofNat_of_lt' (by unfold UInt32.size; omega)]
      exact hmod

end Use

/-- The call that used the key last. -/
def lastUse (k : Bytes) (uses : List (Call × Use)) : Option (Call × Use) :=
  uses.reverse.find? fun u => u.2.key = k

/-- The last use after one more call. -/
theorem lastUse_append_singleton {k : Bytes} {uses : List (Call × Use)} {u : Call × Use} :
    lastUse k (uses ++ [u]) = if u.2.key = k then some u else lastUse k uses := by
  unfold lastUse
  rw [List.reverse_append, List.reverse_singleton, List.singleton_append, List.find?_cons]
  by_cases hk : u.2.key = k <;> simp [hk]

namespace Engine

variable {E : Env} {opts : Options} {stored : Option (Dict Bytes Bytes)}
  {uses : List (Call × Use)} {k k' : Bytes} {m : KeyMetadata} {u u' : Call × Use} {c : Call}

/-- The engine after the calls. -/
def used (E : Env) (opts : Options) (stored : Option (Dict Bytes Bytes))
    (uses : List (Call × Use)) : Engine E :=
  final step (new E opts stored) (uses.map fun u => (u.1, u.2.op))

/-- Metadata left by the last use, which is `u`, with the value in the map of byte strings. -/
def Stamped (s : Slot E) (u : Option (Call × Use)) : Prop :=
  ∀ m, s.metadata = some m → m.expireTimeMs = none ∧ s.value .kBytes ≠ none ∧
    ∃ i, u = some i ∧ m.accessTimeMs = i.2.stamp i.1.now

/-- A pass keeps the stamp or takes the key away. -/
theorem Stamped.swept {s s' : Slot E} {disk : Bool} {o : Options} {i : Option (Call × Use)}
    (h : Stamped s i) (hswept : Swept c o disk s s') : Stamped s' i := by
  cases hswept with
  | kept => exact h
  | expired hexpired => exact fun m hm => nomatch hm
  | evicted j m hlimit hm hvalid => exact fun m hm => nomatch hm

/-- A use leaves its own stamp. -/
theorem Stamped.act {s : Slot E} {disk : Bool} {i : Option (Call × Use)} (h : Stamped s i)
    (c : Call) (u : Use) : Stamped (s.act c disk (u.op.shape E c)) (some (c, u)) := by
  intro m hm
  cases u with
  | put key value =>
      have hvalue : (s.act c disk (.put value)).value .kBytes = some value := by simp [Slot.act]
      have hmeta : (s.act c disk (.put value)).metadata =
          ((s.set .kBytes value).register .kBytes).metadata := metadata_save
      obtain rfl := Option.some.inj (hmeta.symm.trans hm)
      exact ⟨rfl, by rw [Use.op, Op.shape, hvalue]; exact Option.some_ne_none _, _, rfl, rfl⟩
  | get key =>
      rw [Use.op, Op.shape] at hm ⊢
      cases hs : s.metadata with
      | none =>
          have hvalid : s.valid c.now = false := by simp [Slot.valid, hs]
          simp [Slot.act, hvalid, metadata_check, hs] at hm
      | some m₀ =>
          obtain ⟨hexpire, hvalue, -⟩ := h m₀ hs
          have hvalid : s.valid c.now = true := by
            simp [Slot.valid, hs, KeyMetadata.isExpired, hexpire]
          obtain ⟨v, hv⟩ := Option.ne_none_iff_exists'.mp hvalue
          have hact : s.act c disk .get = s.touch c.now := by simp [Slot.act, hvalid, hv]
          rw [hact] at hm ⊢
          obtain rfl : m₀.updateAccess c.now = m := by simpa [Slot.touch, hs] using hm
          exact ⟨hexpire, hvalue, _, rfl, rfl⟩

/-- After a run every key has the stamp of its last use. -/
theorem stamped_used (E : Env) (opts : Options) (stored : Option (Dict Bytes Bytes))
    (uses : List (Call × Use)) (k : Bytes) :
    Stamped ((used E opts stored uses).slot k) (lastUse k uses) := by
  unfold used
  induction uses using List.reverseRecOn with
  | nil => exact fun m hm => nomatch hm
  | append_singleton uses u ih =>
      rw [List.map_append, List.map_singleton, final_append, lastUse_append_singleton]
      refine Stamped.swept ?_ ((step_steps _ u.1 u.2.op).slot k)
      by_cases hk : u.2.key = k
      · rw [if_pos hk, acted_self (by rw [u.2.op_key, hk])]
        exact ih.act u.1 u.2
      · rw [if_neg hk, acted_of_ne (by rw [u.2.op_key]; exact fun h => hk (Option.some.inj h))]
        exact ih

/-- A key that is there has been used. -/
theorem lastUse_of_exists (h : ((used E opts stored uses).existsKey c k).1 = true) :
    ∃ u, lastUse k uses = some u ∧
      (used E opts stored uses).metas.getAccessTime k = u.2.stamp u.1.now := by
  have hstamped := stamped_used E opts stored uses k
  generalize used E opts stored uses = e at *
  rw [existsKey_fst] at h
  cases hm : (e.slot k).metadata with
  | none => simp [Slot.valid, hm] at h
  | some m =>
      obtain ⟨-, -, u, hu, hstamp⟩ := hstamped m hm
      have hlookup : e.metas.lookup k = some m := hm
      exact ⟨u, hu, by simp [KeyMetadataManager.getAccessTime, hlookup, hstamp]⟩

/-- Its access time is the stamp of the last use. -/
theorem getAccessTime_of_lastUse (h : ((used E opts stored uses).existsKey c k).1 = true)
    (hu : lastUse k uses = some u) :
    (used E opts stored uses).metas.getAccessTime k = u.2.stamp u.1.now := by
  obtain ⟨u', hu', hstamp⟩ := lastUse_of_exists h
  obtain rfl := Option.some.inj (hu'.symm.trans hu)
  exact hstamp

/-- It is not the greatest there is. -/
theorem getAccessTime_ne_top (h : ((used E opts stored uses).existsKey c k).1 = true) :
    (used E opts stored uses).metas.getAccessTime k ≠ UInt32.ofNat (2 ^ 32 - 1) := by
  obtain ⟨u, -, hstamp⟩ := lastUse_of_exists h
  have hlt := u.2.stamp_lt u.1.now
  intro htop
  rw [← hstamp, htop] at hlt
  exact absurd hlt (by decide)

/-- Of two keys the second is chosen for a stamp that is less. -/
theorem stamp_lt_of_select {metas : KeyMetadataManager} (hne : k' ≠ k)
    (h : selectVictimLru [k', k] metas = some k) :
    metas.getAccessTime k < metas.getAccessTime k' := by
  have hrank := fun x y => UInt32.lt_iff_toNat_lt (a := x) (b := y)
  unfold selectVictimLru at h
  rw [selectVictim_rank UInt32.toNat hrank, selectVictim_eq_some_iff, firstLeast_cons] at h
  obtain ⟨hnone, -⟩ | ⟨heq, -⟩ | ⟨hlt, -⟩ := h
  · cases hnone
  · exact absurd heq hne
  · exact UInt32.lt_iff_toNat_lt.mpr hlt

/-- Of any keys that are there LRU chooses one whose last use is no later than that of any other. -/
def LruByUse (E : Env) (opts : Options) (stored : Option (Dict Bytes Bytes))
    (uses : List (Call × Use)) (c : Call) : Prop :=
  ∀ candidates, candidates ≠ [] →
    (∀ k ∈ candidates, ((used E opts stored uses).existsKey c k).1 = true) →
      ∃ k ∈ candidates, selectVictimLru candidates (used E opts stored uses).metas = some k ∧
        ∀ k' ∈ candidates, ∀ u u', lastUse k uses = some u → lastUse k' uses = some u' →
          u.1.now ≤ u'.1.now

/-- The stamps of the keys that are there are in the order of their last uses. -/
def StampsInOrder (E : Env) (opts : Options) (stored : Option (Dict Bytes Bytes))
    (uses : List (Call × Use)) (c : Call) : Prop :=
  ∀ k k' u u', ((used E opts stored uses).existsKey c k).1 = true →
    ((used E opts stored uses).existsKey c k').1 = true → lastUse k uses = some u →
      lastUse k' uses = some u' → u.1.now < u'.1.now → u.2.stamp u.1.now < u'.2.stamp u'.1.now

/-- **When LRU goes by the last use.**  It does if and only if a later use has left a greater
stamp: no `put` is later than a use of another key, and no `get` of a later window of 2^24 ms has
come to an earlier place in it. -/
theorem lruByUse_iff (E : Env) (opts : Options) (stored : Option (Dict Bytes Bytes))
    (uses : List (Call × Use)) (c : Call) :
    LruByUse E opts stored uses c ↔ StampsInOrder E opts stored uses c := by
  constructor
  · intro h k k' u u' hk hk' hu hu' hlt
    have hne : k' ≠ k := by
      rintro rfl
      obtain rfl := Option.some.inj (hu.symm.trans hu')
      exact lt_irrefl _ hlt
    obtain ⟨victim, hmem, hselect, hleast⟩ := h [k', k] (by simp) (by simp [hk, hk'])
    have hvictim : victim = k := by
      rcases List.mem_pair.mp hmem with rfl | rfl
      · have hle := hleast k (by simp) u' u hu' hu
        exact absurd hlt (not_lt.mpr hle)
      · rfl
    subst hvictim
    rw [← getAccessTime_of_lastUse hk hu, ← getAccessTime_of_lastUse hk' hu']
    exact stamp_lt_of_select hne hselect
  · intro h candidates hne hlive
    obtain ⟨k₀, hk₀⟩ := List.exists_mem_of_ne_nil candidates hne
    obtain ⟨k, hk, hselect, hleast⟩ :=
      lruLeast_iff.mpr ⟨k₀, hk₀, getAccessTime_ne_top (hlive k₀ hk₀)⟩
    refine ⟨k, hk, hselect, fun k' hk' u u' hu hu' => ?_⟩
    by_contra hlater
    have hlt := h k' k u' u (hlive k' hk') (hlive k hk) hu' hu (not_le.mp hlater)
    have hle := hleast k' hk'
    rw [getAccessTime_of_lastUse (hlive k hk) hu, getAccessTime_of_lastUse (hlive k' hk') hu',
      UInt32.le_iff_toNat_le] at hle
    rw [UInt32.lt_iff_toNat_lt] at hlt
    omega

/-- Two keys, the second put after the first was read. -/
def freshKey : List (Call × Use) :=
  [(.ofNow 5, .put [97] [1]), (.ofNow 6, .get [97]), (.ofNow 7, .put [98] [2])]

/-- The key just put is the victim. -/
theorem lru_takes_fresh_key :
    selectVictimLru [[97], [98]] (used Env.bare ⟨[], 1, .kAllKeysLRU⟩ none freshKey).metas =
        some [98] ∧
      ¬ LruByUse Env.bare ⟨[], 1, .kAllKeysLRU⟩ none freshKey (.ofNow 7) := by
  have hselect : selectVictimLru [[97], [98]]
      (used Env.bare ⟨[], 1, .kAllKeysLRU⟩ none freshKey).metas = some [98] := by
    decide +kernel
  refine ⟨hselect, fun h => ?_⟩
  obtain ⟨k, -, hk, hleast⟩ := h [[97], [98]] (by decide) (by decide +kernel)
  obtain rfl : [98] = k := Option.some.inj (hselect.symm.trans hk)
  have hle := hleast [97] (by decide) (.ofNow 7, .put [98] [2]) (.ofNow 6, .get [97]) rfl rfl
  exact absurd hle (by decide)

end Engine

end AstraKV
