import AstraKV.Engine.Cleanup
import AstraKV.Engine.Pass
import AstraKV.Engine.Reply

/-!
# AstraKV.Engine.Tracked

Which keys the 2Q policy can evict.

Only `put` and `get` tell the tracker of a key, and the policy takes its
victims from the tracker, so a key of a collection is never evicted, however
much memory is in use.

Under this policy the other writes make a key that nobody can evict, and a
limit may be exceeded for good by hashes or sorted sets alone. What the run
keeps is that the key is not in the tracker (`Untracked`), and the only steps
that could change that are a `put` of this very key and a `get` that finds it.
The policy itself must not be changed on the way, since LRU and the others
choose among all keys.
-/

namespace AstraKV

open Slot Machine

/-- A victim was tracked. -/
theorem Eviction2Q.mem_of_getVictim {q : Eviction2Q} {key : Bytes}
    (h : q.getVictim.1 = some key) : key ∈ q := by
  obtain ⟨probationary, queue, keyState⟩ := q
  cases probationary with
  | cons victim rest =>
      obtain rfl := Option.some.inj h
      exact .inl List.mem_cons_self
  | nil =>
      cases queue with
      | cons victim rest =>
          obtain rfl := Option.some.inj h
          exact .inr (.inl List.mem_cons_self)
      | nil => exact absurd h (Option.some_ne_none key).symm

namespace Engine

variable {E : Env} {e : Engine E} {c : Call} {op : Op} {k : Bytes} {ops : List (Call × Op)}

/-! ## the keys tracked -/

/-- The step tells the tracker of the key: a `put`, or a `get` that finds something. -/
def Touches (k : Bytes) (e : Engine E) (i : Call × Op) : Prop :=
  (∃ value, i.2 = .put k value) ∨ i.2 = .get k ∧ (e.step i).1 ≠ .bytesOption none

/-- An access tracks its key and no other. -/
theorem mem_recordAccess (hformed : e.eviction2q.WellFormed) {key : Bytes}
    (h : k ∈ e.eviction2q.recordAccess E.maxProtected key) : k = key ∨ k ∈ e.eviction2q := by
  obtain ⟨hformed', hkeys⟩ := hformed.recordAccess E.maxProtected key
  rwa [hformed'.mem_iff, hkeys, ← hformed.mem_iff] at h

/-- A step tracks the key it touches and no other. -/
theorem mem_track (hformed : e.eviction2q.WellFormed) (h : k ∈ e.track c op) :
    Touches k e (c, op) ∨ k ∈ e.eviction2q := by
  unfold track at h
  split at h
  · rename_i key value
    obtain rfl | hk := mem_recordAccess hformed h
    · exact .inl (.inl ⟨value, rfl⟩)
    · exact .inr hk
  · rename_i key
    split at h
    · rename_i hfound
      obtain rfl | hk := mem_recordAccess hformed h
      · refine .inl (.inr ⟨rfl, ?_⟩)
        rw [step_reply rfl, Slot.reply, if_pos hfound.1]
        intro hnone
        rw [Reply.bytesOption.inj hnone] at hfound
        exact absurd hfound.2.1 Bool.false_ne_true
      · exact .inr hk
    · exact .inr h
  · rename_i key
    obtain ⟨hformed', hkeys⟩ := hformed.removeKey key
    rw [hformed'.mem_iff, hkeys, ← hformed.mem_iff] at h
    exact .inr h.2
  · exact .inr h

/-- A pass tracks none. -/
theorem tracked_step (hformed : e.eviction2q.WellFormed) (h : k ∈ (e.step (c, op)).2.eviction2q) :
    Touches k e (c, op) ∨ k ∈ e.eviction2q :=
  mem_track hformed (((step_course e c op).trails hformed k).shrinks h)

/-- The key is not in the tracker. -/
def Untracked (k : Bytes) (e : Engine E) : Prop := e.eviction2q.WellFormed ∧ k ∉ e.eviction2q

/-- In a new engine nothing is tracked. -/
theorem untracked_new (opts : Options) (stored : Option (Dict Bytes Bytes)) (k : Bytes) :
    Untracked k (new E opts stored) :=
  ⟨Eviction2Q.wellFormed_empty, fun hmem =>
    AList.notMem_empty k (Eviction2Q.wellFormed_empty.mem_iff.mp hmem)⟩

/-- A key stays out of the tracker until a step tells of it. -/
theorem Untracked.step {i : Call × Op} (h : Untracked k e) (hi : ¬ Touches k e i) :
    Untracked k (e.step i).2 :=
  ⟨((step_course e i.1 i.2).trails h.1 k).formed, fun hmem => (tracked_step h.1 hmem).elim hi h.2⟩

/-! ## the keys evicted -/

/-- A key that is not tracked is not evicted. -/
theorem not_mem_evictedKeys (hformed : e.eviction2q.WellFormed)
    (hpolicy : e.opts.eviction = .k2Q) (hk : k ∉ e.eviction2q) : k ∉ e.evictedKeys c := by
  intro hmem
  obtain ⟨n, -, -, hchoice⟩ := chosen_of_mem_evictedKeys hmem
  rw [victim, opts_afterRounds, hpolicy] at hchoice
  have hvictim : k ∈ (e.afterRounds c n).2.eviction2q := Eviction2Q.mem_of_getVictim hchoice
  have hclean := cleanupExpired_drops (k := k) c hformed
  have hrounds := evictLoop_drops (k := k) (c := c) e.limit
    ((e.cleanupExpired c).2.candidates c) n 0 0 hclean.formed (fresh_cleanupExpired e c)
  exact hk (hclean.shrinks (hrounds.shrinks hvictim))

/-- Under the 2Q policy a key that the tracker does not have at the end of the operation is not
evicted. -/
theorem unevicted_of_untracked (hformed : e.eviction2q.WellFormed)
    (hpolicy : e.opts.eviction = .k2Q) (hk : k ∉ e.track c op) : Unevicted k e (c, op) := by
  intro e₁ hacts _ j hj
  have hformed' := track_formed e c op hformed
  rw [← hacts.eviction2q] at hk hformed'
  exact not_mem_evictedKeys hformed' (by rw [hacts.opts, hpolicy]) hk (mem_evictedKeys.mpr ⟨j, hj⟩)

/-! ## runs -/

/-- The policy is kept. -/
def KeepsPolicy (i : Call × Op) : Prop := ∀ policy, i.2 = .setEviction policy → policy = .k2Q

/-- A step that keeps the policy leaves it. -/
theorem policy_step (hpolicy : e.opts.eviction = .k2Q) (hkeep : KeepsPolicy (c, op)) :
    (e.step (c, op)).2.opts.eviction = .k2Q := by
  have hcourse := step_course e c op
  generalize (e.step (c, op)).2 = e' at hcourse
  cases hcourse with
  | quiet h => rw [h.opts, hpolicy]
  | sweep h => rw [(checkMemoryAndEvict_sweeps c _).opts, h.opts, hpolicy]
  | cleanup hop => rw [opts_cleanupExpired, hpolicy]
  | policy policy hop => exact hkeep policy hop

/-- **The 2Q policy evicts no collection.**  In a run under this policy, a key that is never put
and that no `get` finds anything under is never evicted: each step leaves of it what the operation
makes of it, unless its deadline is passed. -/
theorem two_queues_spare (opts : Options) (stored : Option (Dict Bytes Bytes))
    (hpolicy : opts.eviction = .k2Q) (hkeep : ∀ i ∈ ops, KeepsPolicy i)
    (h : Along step (fun e i => ¬ Touches k e i) (new E opts stored) ops) :
    Along step (fun e i => (e.step i).2.slot k = e.acted i.1 i.2 k ∨
      (e.acted i.1 i.2 k).expired i.1.now = true ∧ (e.step i).2.slot k = .empty)
      (new E opts stored) ops := by
  have hboth := along_and.mpr ⟨h, along_of_forall hkeep (new E opts stored)⟩
  refine along_invariant (I := fun e : Engine E => Untracked k e ∧ e.opts.eviction = .k2Q)
    (fun e i he hi => ⟨he.1.step hi.1, policy_step he.2 hi.2⟩) (fun e i he hi => ?_)
    ⟨untracked_new opts stored k, hpolicy⟩ hboth
  exact slot_step_of_unevicted <| unevicted_of_untracked he.1.1 he.2 fun hmem =>
    (mem_track he.1.1 hmem).elim hi.1 he.1.2

/-- A value larger than the limit does not outlive its own `put` if the tracker knows no other key:
the pass finds too much memory in use, and the tracker names the key that was just put. -/
theorem put_too_large {value : Bytes} (hmax : e.opts.maxMb ≠ 0) (hpolicy : e.opts.eviction = .k2Q)
    (htracker : e.eviction2q = .empty) (hfresh : ∀ k, (e.slot k).expired c.now = false)
    (hlimit : 0 ≤ e.limit) (hlarge : e.limit < value.length) (c' : Call) :
    ((e.put c k value).2.existsKey c' k).1 = false := by
  obtain ⟨e₁, hleaves, htrack, hput⟩ := put_leaves c e k value
  have hslot := hleaves.slot_self
  obtain ⟨version, hm⟩ : ∃ version, (e₁.slot k).metadata =
      some { KeyMetadata.ofType .kBytes with version := version } := by
    rw [hslot, Slot.act, metadata_save]
    exact ⟨_, rfl⟩
  have hvalue : (e₁.slot k).value .kBytes = some value := by
    rw [hslot, Slot.act, value_save]
    exact (congrFun value_register _).trans value_set_self
  have hfresh₁ : ∀ k', (e₁.slot k').expired c.now = false := by
    intro k'
    by_cases hk : k' = k
    · rw [hk, Slot.expired, hm]
      rfl
    · rw [hleaves.slot, Function.update_of_ne hk]
      exact hfresh k'
  have hlimit₁ : e₁.limit = e.limit := by rw [limit, limit, limit64, limit64, hleaves.opts]
  have hover : e₁.limit < e₁.memoryUsage c := by
    have hfoot := footprint_le_memoryUsage (c := c) (e := e₁) hm
    have hsize : (e₁.slot k).footprint c k = k.length + value.length + 64 := by
      simp [Slot.footprint, hm, KeyMetadata.ofType, hvalue, valueMemory]
    omega
  have htyped : e₁.typed k = true := by
    have hlookup : e₁.metas.lookup k = _ := hm
    rw [typed, hlookup]
    rfl
  have hchosen : (e₁.victim c 0 (e₁.candidates c)).1 = some k := by
    rw [victim, hleaves.opts, hpolicy, htrack, track, htracker]
    rfl
  have hcandidates : e₁.candidates c ≠ [] := by
    refine List.ne_nil_of_mem (a := k) (List.mem_filter.mpr ⟨mem_keys_iff.mpr (by simp [hm]), ?_⟩)
    rw [hleaves.opts, hpolicy]
    rfl
  have hpass : e₁.Evicts c := by
    refine ⟨by rw [hleaves.opts]; exact hmax, by rw [hleaves.opts, hpolicy]; decide, ?_, ?_⟩
    · rw [cleanupExpired_of_fresh hfresh₁]
      exact (lowMark_le (by rw [hlimit₁]; exact hlimit)).trans hover.le
    · rwa [cleanupExpired_of_fresh hfresh₁]
  obtain ⟨i, hi⟩ := mem_evictedKeys.mp
    (mem_evictedKeys_of_first hpass hfresh₁ hover hchosen htyped)
  rw [hput, existsKey_fst, Slot.valid, metadata_of_evictedBy hi]
  rfl

/-- An engine with one megabyte and a hash. -/
def hashed : Engine Env.bare :=
  ((new .bare ⟨[], 1, .k2Q⟩ none).step (.ofNow 7, .hset [9] [1] [2])).2

theorem fresh_hashed (k : Bytes) : (hashed.slot k).expired 7 = false := by
  have hkeys : hashed.metas.keys = [[9]] := by decide +kernel
  by_cases hk : k = [9]
  · subst hk
    decide +kernel
  · have hnone : hashed.metas.lookup k = none := by
      rw [AList.lookup_eq_none, AList.mem_keys, hkeys]
      simpa using hk
    simp [Slot.expired, slot, hnone]

/-- A byte string larger than the limit is put beside the hash and evicted, and the hash stays. -/
theorem two_queues_spare_hash :
    ∃ value : Bytes, value.length = 2 ^ 20 + 1 ∧
      ((hashed.put (.ofNow 7) [107] value).2.existsKey (.ofNow 8) [107]).1 = false ∧
      (hashed.put (.ofNow 7) [107] value).2.slot [9] = hashed.slot [9] := by
  obtain ⟨value, hlength⟩ : ∃ value : Bytes, value.length = 2 ^ 20 + 1 :=
    ⟨List.replicate (2 ^ 20 + 1) 0, List.length_replicate⟩
  let i := (Call.ofNow 7, Op.put [107] value)
  have hkeep : ∀ j ∈ [(Call.ofNow 7, Op.hset [9] [1] [2]), i], KeepsPolicy j := by
    intro j hj policy hpolicy
    obtain rfl | rfl : j = _ ∨ j = _ := by simpa using hj
    all_goals contradiction
  have hhset : ¬ Touches [9] (new .bare ⟨[], 1, .k2Q⟩ none : Engine Env.bare)
      (.ofNow 7, .hset [9] [1] [2]) := by
    rintro (⟨value, hput⟩ | ⟨hget, -⟩) <;> contradiction
  have hput : ¬ Touches [9] hashed i := by
    rintro (⟨value, hput⟩ | ⟨hget, -⟩)
    · exact absurd (Op.put.inj hput).1 (by decide)
    · contradiction
  obtain ⟨-, hspared, -⟩ :=
    two_queues_spare ⟨[], 1, .k2Q⟩ none rfl hkeep ⟨hhset, hput, trivial⟩
  have hlimit : hashed.limit = 2 ^ 20 := by decide +kernel
  have hlarge : hashed.limit < value.length := by
    rw [hlimit, hlength]
    norm_num
  refine ⟨value, hlength, put_too_large (by decide +kernel) (by decide +kernel) rfl fresh_hashed ?_
    hlarge _, ?_⟩
  · rw [hlimit]
    decide
  · have hother : hashed.acted i.1 i.2 [9] = hashed.slot [9] :=
      acted_of_ne fun h => absurd (Option.some.inj h) (by decide)
    refine (hspared.resolve_right fun h => ?_).trans hother
    have hexpired : (hashed.acted i.1 i.2 [9]).expired 7 = true := h.1
    rw [hother, fresh_hashed] at hexpired
    contradiction

end Engine

end AstraKV
