import AstraKV.Engine.Reply

/-!
# AstraKV.Engine.Opaque

What becomes of the keys that the pass evicts: their values are in the
records, and nothing knows of the keys any more.

A value leaves its map in the round that evicts it, right after the `Put` of
its record, whose outcome nobody looks at.  So whether a copy is left is decided
round by round: the `Put` of that round has succeeded, or an earlier one has
left the record as it should be.
-/

namespace AstraKV

open Slot Machine

namespace Engine

variable {E : Env} {e : Engine E} {c c' : Call} {k : Bytes}

/-- The loop counts the keys it evicts. -/
theorem evictLoop_fst (limit : Int) (candidates : List Bytes) (n i : Nat) (evicted : Int)
    (hfresh : ∀ k, (e.slot k).expired c.now = false) :
    (evictLoop c limit candidates n i evicted e).1 =
      evicted + ((evictions c limit candidates n i e).length : Nat) := by
  induction n generalizing i evicted e with
  | zero => simp [evictLoop, evictions]
  | succ n ih =>
      cases evictLoop_round limit candidates n i evicted hfresh with
      | stop e₁ hslot hdisk hopts hloop hrounds => simp [hloop, hrounds]
      | skip e₁ hslot hdisk hopts hloop hrounds =>
          rw [hloop, hrounds]
          exact ih (i + 1) evicted (by rwa [hslot])
      | evict e₁ key m hm hleaves hloop hrounds =>
          rw [hloop, hrounds, ih (i + 1) (evicted + 1) (fresh_evict hfresh hleaves),
            List.length_cons]
          push_cast
          omega

/-- An evicted key is not registered any more. -/
theorem metadata_of_evictedBy {i : Nat} (hk : (i, k) ∈ e.evictedBy c) :
    ((e.checkMemoryAndEvict c).slot k).metadata = none := by
  obtain ⟨m, -, heq⟩ := slot_of_evictedBy hk
  rw [heq]
  rfl

/-- A key without an expiry time that the pass evicts exists just before and not after. -/
theorem eviction_forgets {i : Nat} (hk : (i, k) ∈ e.evictedBy c)
    (httl : ∀ m, e.metas.lookup k = some m → m.expireTimeMs = none) (c' : Call) :
    (e.existsKey c' k).1 = true ∧ ((e.checkMemoryAndEvict c).existsKey c' k).1 = false := by
  have hvalid := (valid_of_evictedBy hk).1
  have hafter := metadata_of_evictedBy hk
  have hmeta : (e.slot k).metadata = e.metas.lookup k := rfl
  constructor
  · refine (isValid_fst c'.now).trans ?_
    unfold Slot.valid at hvalid ⊢
    cases hm : (e.slot k).metadata with
    | none => simp [hm] at hvalid
    | some m => simp [KeyMetadata.isExpired, httl m (hmeta ▸ hm)]
  · refine (isValid_fst c'.now).trans ?_
    simp [Slot.valid, hafter]

/-! ## copies -/

/-- The record is that of a value with the contents of `v`. -/
def Recorded (t : KeyType) (v : Value E t) (record : Option Bytes) : Prop :=
  ∃ v', SameContents t v' v ∧ record = some (serialize t v')

/-- A value written out is recorded. -/
theorem recorded_serialize (t : KeyType) (v : Value E t) : Recorded t v (some (serialize t v)) :=
  ⟨v, .refl t v, rfl⟩

/-- After a pass from `e` to `e'` the value of `k` is still in its map, or it is in the record. -/
structure HoldsCopy (e e' : Engine E) (k : Bytes) : Prop where
  resident : ∀ t v, e.find t k = some v → e'.find t k = some v ∨ Recorded t v (e'.rocksGet k)
  stored : ∀ m, e.metas.lookup k = some m → e.find m.type k = none → e'.rocksGet k = e.rocksGet k

/-- The record of `k` is that of its value. -/
def RecordCurrent (e : Engine E) (k : Bytes) : Prop :=
  ∀ m v, e.metas.lookup k = some m → e.find m.type k = some v → Recorded m.type v (e.rocksGet k)

/-- What the pass leaves as it is has its copy. -/
theorem holdsCopy_of_slot {e' : Engine E} (h : e'.slot k = e.slot k) : HoldsCopy e e' k := by
  have hvalue : ∀ t, e'.find t k = e.find t k := fun t => congrFun (congrArg Slot.value h) t
  have hrecord : e'.rocksGet k = e.rocksGet k := congrArg Slot.record h
  exact ⟨fun t v hv => .inl (by rw [hvalue, hv]), fun _ _ _ => hrecord⟩

/-- An evicted key keeps a copy if and only if the write of the round succeeds or was not needed. -/
theorem holdsCopy_evicted_iff {i : Nat} (hdisk : e.disk = true) (hk : (i, k) ∈ e.evictedBy c) :
    HoldsCopy e (e.checkMemoryAndEvict c) k ↔ c.putOk (i + 1) = true ∨ e.RecordCurrent k := by
  obtain ⟨m, hm, heq⟩ := slot_of_evictedBy hk
  have hm' : e.metas.lookup k = some m := hm
  have hfind : ∀ t, (e.checkMemoryAndEvict c).find t k =
      (Slot.evict e.disk (c.putOk (i + 1)) (e.slot k) m.type).value t := by
    rw [← heq]
    exact fun _ => rfl
  have hget : (e.checkMemoryAndEvict c).rocksGet k = (e.find m.type k).elim (e.rocksGet k)
      fun v => if c.putOk (i + 1) then some (serialize m.type v) else e.rocksGet k := by
    have hrecord := congrArg Slot.record heq
    rw [record_evict, hdisk, Bool.true_and] at hrecord
    exact hrecord
  constructor
  · intro h
    cases hok : c.putOk (i + 1) with
    | true => exact .inl rfl
    | false =>
        refine .inr fun m' v hlookup hv => ?_
        obtain rfl : m = m' := Option.some.inj (hm'.symm.trans hlookup)
        have hcopy := h.resident m.type v hv
        rw [hfind, value_evict_self, hget, hv, hok] at hcopy
        simpa using hcopy
  · intro h
    constructor
    · intro t v hv
      by_cases ht : t = m.type
      · subst ht
        right
        rw [hget, hv]
        cases h with
        | inl hok =>
            rw [Option.elim_some, if_pos hok]
            exact recorded_serialize m.type v
        | inr hcurrent =>
            rw [Option.elim_some]
            split
            · exact recorded_serialize m.type v
            · exact hcurrent m v hm' hv
      · left
        rw [hfind, value_evict_of_ne ht]
        exact hv
    · intro m' hlookup hnone
      obtain rfl : m = m' := Option.some.inj (hm'.symm.trans hlookup)
      rw [hget, hnone]
      rfl

/-- No readable key loses the only copy of its value in a pass if and only if no write of the pass
fails for a key whose record is not current. -/
theorem pass_holds_copies_iff (hdisk : e.disk = true) :
    (∀ k, (e.existsKey c k).1 = true → HoldsCopy e (e.checkMemoryAndEvict c) k) ↔
      ∀ i k, (i, k) ∈ e.evictedBy c → c.putOk (i + 1) = true ∨ e.RecordCurrent k := by
  have hexists : ∀ k, (e.existsKey c k).1 = (e.slot k).valid c.now := fun _ => isValid_fst c.now
  constructor
  · intro h i k hk
    exact (holdsCopy_evicted_iff hdisk hk).mp (h k ((hexists k).trans (valid_of_evictedBy hk).1))
  · intro h k hvalid
    rw [hexists] at hvalid
    by_cases hk : ∃ i, (i, k) ∈ e.evictedBy c
    · obtain ⟨i, hk⟩ := hk
      exact (holdsCopy_evicted_iff hdisk hk).mpr (h i k hk)
    · refine holdsCopy_of_slot ?_
      rw [(checkMemoryAndEvict_evicted c e).kept k (not_exists.mp hk), slot_cleanupExpired]
      cases hexpired : (e.slot k).expired c.now with
      | false => rfl
      | true => simp [valid_false_iff.mpr (.inr hexpired)] at hvalid

/-! ## a run -/

/-- A call at time `now` in which the RocksDB writes succeed or all fail. -/
def callWith (ok : Bool) (now : Int) : Call := { Call.ofNow now with putOk := fun _ => ok }

/-- A value written while nothing is evicted, and then a policy that evicts. -/
def crowded (ok : Bool) (value : Bytes) : Engine Env.bare :=
  final step (new Env.bare ⟨[47], 1, .kNoEviction⟩ (some ∅))
    [(callWith ok 5, .put [107] value), (callWith ok 5, .setEviction .kAllKeysLRU)]

/-- The engine of the example, field by field. -/
theorem crowded_eq (ok : Bool) (value : Bytes) :
    ∃ q, crowded ok value = ⟨⟨[47], 1, .kAllKeysLRU⟩, q, 1, 0, 0, 0, 0, 0,
      Function.update (fun _ => ∅) .kBytes (AList.insert [107] value ∅),
      AList.insert [107] ⟨.kBytes, none, 1, 0, 0⟩ ∅,
      some (if ok then AList.insert [107] value ∅ else ∅)⟩ := by
  cases ok <;> exact ⟨_, rfl⟩

/-- Its pass evicts the one key in the first round. -/
theorem evictedBy_crowded {value : Bytes} (h : 2 ^ 20 ≤ value.length) (ok ok' : Bool) :
    (crowded ok value).evictedBy (callWith ok' 6) = [(0, [107])] := by
  obtain ⟨q, hq⟩ := crowded_eq ok value
  have hclean : ((crowded ok value).cleanupExpired (callWith ok' 6)).2 = crowded ok value := by
    rw [hq]
    rfl
  have hbytes : (crowded ok value).mapMemory (callWith ok' 6) .kBytes =
      1 + (value.length + 0) := by
    rw [hq]
    rfl
  have hother : ∀ t, t ≠ .kBytes → (crowded ok value).mapMemory (callWith ok' 6) t = 0 := by
    intro t ht
    rw [hq]
    simp [mapMemory, ht]
  have hcount : (crowded ok value).count = 1 := by
    rw [hq]
    rfl
  have hmemory : (crowded ok value).memoryUsage (callWith ok' 6) = value.length + 65 := by
    rw [memoryUsage, hbytes, hcount]
    simp [hother]
    omega
  have hopts : (crowded ok value).opts = ⟨[47], 1, .kAllKeysLRU⟩ := by rw [hq]
  have hlimit : (crowded ok value).limit = 2 ^ 20 := by
    rw [limit_of_lt (by rw [hopts]; decide), hopts]
    rfl
  have hcandidates : (crowded ok value).candidates (callWith ok' 6) = [[107]] := by
    rw [hq]
    rfl
  have hvictim : (crowded ok value).victim (callWith ok' 6) 0 [[107]] =
      (some [107], crowded ok value) := by
    rw [hq]
    rfl
  have htype : (crowded ok value).metas.getKeyType (callWith ok' 6).now [107] =
      (some .kBytes, (crowded ok value).metas) := by
    rw [hq]
    rfl
  have hover : (crowded ok value).memoryUsage (callWith ok' 6) > (crowded ok value).limit := by
    rw [hmemory, hlimit]
    omega
  have hunder : ¬ (crowded ok value).memoryUsage (callWith ok' 6) < (crowded ok value).lowMark :=
    not_lt.mpr ((lowMark_le (by rw [hlimit]; decide)).trans hover.le)
  simp [evictedBy, hclean, hopts, hunder, hcandidates, evictions, hover, hvictim, htype]

/-- With a value of a megabyte in particular. -/
theorem mem_evictedBy_crowded (ok ok' : Bool) :
    (0, [107]) ∈ (crowded ok (List.replicate (2 ^ 20) 0)).evictedBy (callWith ok' 6) := by
  rw [evictedBy_crowded List.length_replicate.ge]
  exact List.mem_singleton_self _

theorem eviction_forgets_big :
    ((crowded true (List.replicate (2 ^ 20) 0)).existsKey (.ofNow 7) [107]).1 = true ∧
      (((crowded true (List.replicate (2 ^ 20) 0)).checkMemoryAndEvict (callWith true 6)).existsKey
        (.ofNow 7) [107]).1 = false := by
  refine eviction_forgets (mem_evictedBy_crowded true true) ?_ (.ofNow 7)
  obtain ⟨q, hq⟩ := crowded_eq true (List.replicate (2 ^ 20) 0)
  rw [hq]
  rintro m hm
  obtain rfl := Option.some.inj hm
  rfl

/-- A byte string is not read after it was evicted, with its record in place. -/
theorem get_after_eviction :
    ((crowded true (List.replicate (2 ^ 20) 0)).get (.ofNow 7) [107]).1 =
        some (List.replicate (2 ^ 20) 0) ∧
      (((crowded true (List.replicate (2 ^ 20) 0)).checkMemoryAndEvict (callWith true 6)).get
        (.ofNow 7) [107]).1 = none := by
  constructor
  · obtain ⟨q, hq⟩ := crowded_eq true (List.replicate (2 ^ 20) 0)
    rw [hq]
    rfl
  · rw [get_fst, Slot.valid, metadata_of_evictedBy (mem_evictedBy_crowded true true)]
    rfl

theorem pass_holds_copies_big :
    HoldsCopy (crowded true (List.replicate (2 ^ 20) 0))
      ((crowded true (List.replicate (2 ^ 20) 0)).checkMemoryAndEvict (callWith true 6)) [107] := by
  obtain ⟨q, hq⟩ := crowded_eq true (List.replicate (2 ^ 20) 0)
  refine (pass_holds_copies_iff (by rw [hq]; rfl)).mpr (fun _ _ _ => .inl rfl) [107] ?_
  rw [hq]
  rfl

/-- The writes fail, and the value is neither in the map nor in a record. -/
theorem pass_loses_value :
    (crowded false (List.replicate (2 ^ 20) 0)).disk = true ∧
      ((crowded false (List.replicate (2 ^ 20) 0)).existsKey (.ofNow 6) [107]).1 = true ∧
      ¬ HoldsCopy (crowded false (List.replicate (2 ^ 20) 0))
        ((crowded false (List.replicate (2 ^ 20) 0)).checkMemoryAndEvict (callWith false 6))
        [107] := by
  obtain ⟨q, hq⟩ := crowded_eq false (List.replicate (2 ^ 20) 0)
  have hdisk : (crowded false (List.replicate (2 ^ 20) 0)).disk = true := by
    rw [hq]
    rfl
  refine ⟨hdisk, by rw [hq]; rfl, fun h => ?_⟩
  cases (holdsCopy_evicted_iff hdisk (mem_evictedBy_crowded false false)).mp h with
  | inl hok => exact Bool.false_ne_true hok
  | inr hcurrent =>
      rw [hq] at hcurrent
      obtain ⟨v', -, hrecord⟩ :=
        hcurrent ⟨.kBytes, none, 1, 0, 0⟩ (List.replicate (2 ^ 20) 0) rfl rfl
      exact nomatch hrecord

end Engine

end AstraKV
