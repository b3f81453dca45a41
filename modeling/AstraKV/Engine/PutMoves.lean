import AstraKV.Engine.StaleCopy

/-!
# AstraKV.Engine.PutMoves

The calls that `put` makes, one locked call at a time, down to the pass of
`CleanupExpired` that it ends with.

The pass belongs to the `put`: between the registration of the key and the
pass another client may write old metadata back, or forget the key, and then
the pass of the `put` removes the value that it has just written.  So the
moves of `CleanupExpired` at one key come first, and a `put` that has listed
the key goes on with them.

The eviction that may follow the pass is left out: `check_memory_and_evict`
returns here, as it does without a memory limit, under the policy that evicts
nothing, and below the mark from which it evicts.
-/

namespace AstraKV

open Slot Schedule

variable {E : Env}

/-! ## `CleanupExpired` -/

/-- The call `CleanupExpired` makes next for the key; `later` are the maps it has not come to. -/
inductive CleanupPhase where
  /-- `Get` of `IsValid`. -/
  | isValid
  /-- `Remove` of `IsValid`. -/
  | forget
  /-- `Remove` from the map of type `t`. -/
  | remove (t : KeyType) (later : List KeyType)
  /-- `RemoveKey` of the tracker. -/
  | removeKey
  /-- `Delete` of RocksDB. -/
  | rocksDelete
  | returned (cleaned : Bool)
deriving DecidableEq

def CleanupPhase.next : List KeyType → CleanupPhase
  | [] => .removeKey
  | t :: later => .remove t later

/-- The first of the maps, and the others. -/
def CleanupPhase.maps : CleanupPhase :=
  .remove .kBytes [.kZSet, .kList, .kHash, .kSet, .kStream, .kJson, .kVector]

def cleanupAct (key : Bytes) (now : Int) (s : KeyState E) :
    CleanupPhase → KeyState E × CleanupPhase
  | .isValid =>
      match s.slot.metadata with
      | none => (s, .maps)
      | some metadata => (s, if metadata.isExpired now then .forget else .returned false)
  | .forget => (s.setMetadata none, .maps)
  | .remove t later => ({ s with slot := s.slot.drop t }, .next later)
  | .removeKey => ({ s with tracker := s.tracker.removeKey key }, .rocksDelete)
  -- without RocksDB there is no record
  | .rocksDelete => ({ s with slot := { s.slot with record := none } }, .returned true)
  | .returned cleaned => (s, .returned cleaned)

/-- `CleanupExpired` alone returns, and leaves of a key with metadata what it leaves. -/
theorem cleanup_alone (key : Bytes) (now : Int) {s : KeyState E} (h : s.slot.metadata ≠ none) :
    ∃ n, (solo (cleanupAct key now) n (s, .isValid)).2 = .returned (s.slot.expired now) ∧
      (solo (cleanupAct key now) n (s, .isValid)).1.slot =
        if s.slot.expired now then .empty else s.slot := by
  obtain ⟨⟨value, metadata, record⟩, tracker⟩ := s
  obtain ⟨m, rfl⟩ := Option.ne_none_iff_exists'.mp h
  cases hexpired : m.isExpired now with
  | false =>
      refine ⟨1, ?_⟩
      simp [solo, cleanupAct, Slot.expired, hexpired]
  | true =>
      refine ⟨12, ?_⟩
      simp only [solo, Function.iterate_succ_apply, Function.iterate_zero_apply, cleanupAct,
        CleanupPhase.maps, CleanupPhase.next, Slot.expired, hexpired, Option.any_some, if_true]
      refine ⟨trivial, Slot.ext (funext fun t => ?_) rfl rfl⟩
      cases t with
      | kNone =>
          cases hvalue : value .kNone with
          | none => exact hvalue
          | some v => exact v.elim
      | _ => simp [KeyState.setMetadata, Slot.drop, Slot.empty]

/-! ## `put` -/

/-- The call `put` makes next. -/
inductive PutPhase where
  /-- `Insert` into `bytes_`. -/
  | insertBytes
  /-- `Get` of `RegisterKey`. -/
  | getVersion
  /-- `Insert` of `RegisterKey`. -/
  | register (version : UInt64)
  /-- `RecordAccess`. -/
  | recordAccess
  /-- `Put` of RocksDB. -/
  | rocksPut
  /-- `GetAllKeys` of `CleanupExpired`. -/
  | getAllKeys
  /-- `CleanupExpired` has come to the key. -/
  | cleanup (ph : CleanupPhase)
  | returned
deriving DecidableEq

/-- The pass of `CleanupExpired` goes on, and the `put` returns with it. -/
def PutPhase.ofCleanup : CleanupPhase → PutPhase
  | .returned _ => .returned
  | ph => .cleanup ph

/-- The key, the policy, and whether there is RocksDB. -/
structure KeySetting where
  key : Bytes
  eviction : EvictionPolicy
  disk : Bool

/-- One call of `put`, whose pass reads the clock as `now`. What the pass does with other keys
leaves this one, and the `put` evicts nothing itself. -/
def putAct (k : KeySetting) (now : Int) (value : Bytes) (putOk : Bool) (s : KeyState E) :
    PutPhase → KeyState E × PutPhase
  | .insertBytes => ({ s with slot := s.slot.set .kBytes value }, .getVersion)
  | .getVersion =>
      match s.slot.metadata with
      | none => (s, .register 1)
      | some existing => (s, .register (existing.version + 1))
  | .register version =>
      (s.setMetadata (some { KeyMetadata.ofType .kBytes with version := version }), .recordAccess)
  | .recordAccess =>
      ({ s with tracker := s.tracker.recordAccess E.maxProtected k.key }, .rocksPut)
  | .rocksPut => ({ s with slot := s.slot.save k.disk putOk value }, .getAllKeys)
  | .getAllKeys => (s, if s.slot.metadata.isSome then .cleanup .isValid else .returned)
  | .cleanup ph =>
      let res := cleanupAct k.key now s ph
      (res.1, .ofCleanup res.2)
  | .returned => (s, .returned)

/-- A `put` alone returns, and does to the slot what `put` does: its pass finds the key valid. -/
theorem put_alone (k : KeySetting) (c : Call) (value : Bytes) (s : KeyState E) :
    (solo (putAct k c.now value (c.putOk 0)) 7 (s, .insertBytes)).2 = .returned ∧
      (solo (putAct k c.now value (c.putOk 0)) 7 (s, .insertBytes)).1.slot =
        s.slot.act c k.disk (.put value) := by
  obtain ⟨⟨held, metadata, record⟩, tracker⟩ := s
  obtain ⟨key, eviction, disk⟩ := k
  generalize hok : c.putOk 0 = ok
  rw [Slot.act, hok]
  cases metadata <;> cases disk <;> cases ok <;> exact ⟨rfl, rfl⟩

/-- A key with metadata is in the list. -/
theorem putAct_getAllKeys {k : KeySetting} {now : Int} {value : Bytes} {putOk : Bool}
    {s : KeyState E} {m : KeyMetadata} (hm : s.slot.metadata = some m) :
    putAct k now value putOk s .getAllKeys = (s, .cleanup .isValid) := by
  simp [putAct, hm]

/-- The pass leaves a key that has not expired. -/
theorem putAct_isValid {k : KeySetting} {now : Int} {value : Bytes} {putOk : Bool}
    {s : KeyState E} {m : KeyMetadata} (hm : s.slot.metadata = some m)
    (hlive : m.isExpired now = false) :
    putAct k now value putOk s (.cleanup .isValid) = (s, .returned) := by
  simp [putAct, cleanupAct, hm, hlive, PutPhase.ofCleanup]

/-! ### where it is -/

/-- Where `put` is after `n` moves. -/
def PutAt (n : Nat) : PutPhase → Prop
  | .insertBytes => n = 0
  | .getVersion => n = 1
  | .register _ => n = 2
  | .recordAccess => n = 3
  | .rocksPut => n = 4
  | .getAllKeys => n = 5
  | .cleanup .isValid => n = 6
  | .cleanup _ => 7 ≤ n
  | .returned => 6 ≤ n

/-- The pass of the `put` is removing the key. -/
def PutPhase.Clears : PutPhase → Prop
  | .cleanup .isValid => False
  | .cleanup _ => True
  | _ => False

/-- After the listing the `put` may be anywhere in its pass. -/
theorem putAt_ofCleanup {n : Nat} (h : 7 ≤ n) (ph : CleanupPhase) (hph : ph ≠ .isValid) :
    PutAt n (.ofCleanup ph) := by
  cases ph with
  | isValid => exact absurd rfl hph
  | returned cleaned => exact Nat.le_of_succ_le h
  | _ => exact h

/-- No call of `CleanupExpired` goes back to the first one. -/
theorem cleanupAct_ne_isValid (key : Bytes) (now : Int) (s : KeyState E) (ph : CleanupPhase) :
    (cleanupAct key now s ph).2 ≠ .isValid := by
  cases ph with
  | isValid =>
      unfold cleanupAct
      dsimp only
      split
      · exact fun h => CleanupPhase.noConfusion h
      · split <;> exact fun h => CleanupPhase.noConfusion h
  | remove t later => cases later <;> exact fun h => CleanupPhase.noConfusion h
  | _ => exact fun h => CleanupPhase.noConfusion h

/-- One move further. -/
theorem PutAt.next {n : Nat} {ph : PutPhase} (h : PutAt n ph) (k : KeySetting) (now : Int)
    (value : Bytes) (putOk : Bool) (s : KeyState E) :
    PutAt (n + 1) (putAct k now value putOk s ph).2 := by
  cases ph with
  | getVersion =>
      obtain rfl := h
      unfold putAct
      dsimp only
      split <;> rfl
  | getAllKeys =>
      obtain rfl := h
      unfold putAct
      dsimp only
      split
      · rfl
      · exact Nat.le_refl 6
  | cleanup ph =>
      refine putAt_ofCleanup ?_ _ (cleanupAct_ne_isValid k.key now s ph)
      cases ph with
      | isValid => exact (congrArg (· + 1) h).ge
      | _ => exact Nat.le_succ_of_le h
  | returned => exact Nat.le_succ_of_le h
  | _ => exact congrArg (· + 1) h

/-- The pass has not begun after five moves. -/
theorem PutAt.early {n : Nat} {ph : PutPhase} (h : PutAt n ph) (hn : n ≤ 5) :
    ph ≠ .returned ∧ ∀ ph', ph ≠ .cleanup ph' := by
  refine ⟨?_, fun ph' => ?_⟩
  · rintro rfl
    exact absurd (Nat.le_trans h hn) (by decide)
  · rintro rfl
    cases ph' with
    | isValid => exact absurd (h.ge.trans hn) (by decide)
    | _ => exact absurd (Nat.le_trans h hn) (by decide)

/-- Until its pass removes the key, `put` writes the value by its first move, the metadata by its
third and the record by its fifth, and nothing else. -/
theorem PutAt.writes {n : Nat} {ph : PutPhase} (h : PutAt n ph) (hkeeps : ¬ ph.Clears)
    (k : KeySetting) (now : Int) (value : Bytes) (putOk : Bool) (s : KeyState E) :
    ((putAct k now value putOk s ph).1.slot.value .kBytes =
      if n = 0 then some value else s.slot.value .kBytes) ∧
    (if n = 2 then ∃ m, (putAct k now value putOk s ph).1.slot.metadata = some m ∧
        m.type = .kBytes ∧ m.expireTimeMs = none
      else (putAct k now value putOk s ph).1.slot.metadata = s.slot.metadata) ∧
    (putAct k now value putOk s ph).1.slot.record =
      if n = 4 ∧ (k.disk && putOk) = true then some value else s.slot.record := by
  cases ph with
  | insertBytes =>
      obtain rfl := h
      exact ⟨value_set_self, rfl, rfl⟩
  | getVersion =>
      obtain rfl := h
      have hslot : (putAct k now value putOk s .getVersion).1 = s := by
        unfold putAct
        dsimp only
        split <;> rfl
      rw [hslot]
      exact ⟨rfl, rfl, rfl⟩
  | register version =>
      obtain rfl := h
      exact ⟨rfl, ⟨_, rfl, rfl, rfl⟩, rfl⟩
  | recordAccess | getAllKeys =>
      obtain rfl := h
      exact ⟨rfl, rfl, rfl⟩
  | rocksPut =>
      obtain rfl := h
      refine ⟨congrFun value_save _, metadata_save, ?_⟩
      rw [putAct, record_save]
      simp
  | cleanup ph =>
      cases ph with
      | isValid =>
          obtain rfl := h
          have hslot : (putAct k now value putOk s (.cleanup .isValid)).1 = s := by
            unfold putAct cleanupAct
            dsimp only
            split <;> rfl
          rw [hslot]
          exact ⟨rfl, rfl, rfl⟩
      | _ => exact absurd trivial hkeeps
  | returned =>
      have hsix : 6 ≤ n := h
      rw [if_neg (by omega), if_neg (by omega), if_neg (by omega)]
      exact ⟨rfl, rfl, rfl⟩

end AstraKV
