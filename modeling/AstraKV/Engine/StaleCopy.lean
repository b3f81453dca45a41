import AstraKV.Engine.Slot
import AstraKV.Lib.Crowd
import AstraKV.Lib.LastStep

/-!
# AstraKV.Engine.StaleCopy

`get` beside `del` or `expire` on the same key, one locked call at a time.
The access time is written by reading all the metadata and writing all of it
back, and between the two calls the other client may move.

The clients are small state machines (`getAct`, `delAct`, `expireAct`), each
move one call of a map, of the metadata or of the tracker; `alone` runs of
each are shown to be the operation of the engine. `get` holds a copy of the
metadata between its two calls. If `del` unregisters the key in between, the
copy brings the metadata back; if `expire` sets a deadline in between, the
copy takes it away again. In both cases the step that does the harm leaves a
state in which nothing can mend it any more.
-/

namespace AstraKV

open Slot Schedule Machine

variable {E : Env}

/-- What the engine holds about the key, and the tracker. -/
structure KeyState (E : Env) where
  slot : Slot E
  tracker : Eviction2Q

def KeyState.setMetadata (s : KeyState E) (m : Option KeyMetadata) : KeyState E :=
  { s with slot := { s.slot with metadata := m } }

/-- The expiry of the key, if it has metadata with one. -/
def KeyState.expiry (s : KeyState E) : Option Int := s.slot.metadata.bind KeyMetadata.expireTimeMs

/-- The key, the policy, and the two readings of the clock. -/
structure Access where
  key : Bytes
  eviction : EvictionPolicy
  validNow : Int
  accessNow : Int

/-! ## the clients -/

/-- The call `get` makes next. -/
inductive GetPhase where
  /-- `Get` of `IsValid`. -/
  | isValid
  /-- `Remove` of `IsValid`. -/
  | forget
  /-- `Get` of `bytes_`. -/
  | getBytes
  /-- `Get` of RocksDB. -/
  | rocksGet
  /-- `Insert` into `bytes_`. -/
  | insertBytes (record : Bytes)
  /-- `Get` of `UpdateAccessInfo`. -/
  | getAccess (v : Bytes)
  /-- `Insert` of `UpdateAccessInfo`. -/
  | insertAccess (metadata : KeyMetadata) (v : Bytes)
  /-- `RecordAccess`. -/
  | recordAccess (v : Bytes)
  | returned (v : Option Bytes)
deriving DecidableEq

def getAct (a : Access) (s : KeyState E) : GetPhase → KeyState E × GetPhase
  | .isValid =>
      match s.slot.metadata with
      | none => (s, .returned none)
      | some metadata => (s, if metadata.isExpired a.validNow then .forget else .getBytes)
  | .forget => (s.setMetadata none, .returned none)
  | .getBytes =>
      match s.slot.value .kBytes with
      | some v => (s, .getAccess v)
      | none => (s, .rocksGet)
  | .rocksGet =>
      match s.slot.record with
      | some record => (s, .insertBytes record)
      | none => (s, .returned none)
  | .insertBytes record => ({ s with slot := s.slot.set .kBytes record }, .getAccess record)
  | .getAccess v =>
      match s.slot.metadata with
      | none => (s, .recordAccess v)
      | some metadata => (s, .insertAccess (metadata.updateAccess a.accessNow) v)
  | .insertAccess metadata v => (s.setMetadata (some metadata), .recordAccess v)
  | .recordAccess v =>
      if a.eviction = .k2Q then
        ({ s with tracker := s.tracker.recordAccess E.maxProtected a.key }, .returned (some v))
      else (s, .returned (some v))
  | .returned v => (s, .returned v)

/-- The call `del` makes next; `later` are the maps it has not come to. -/
inductive DelPhase where
  /-- `Remove` from `bytes_`. -/
  | removeBytes
  /-- `Get` of the map of type `t`. -/
  | getValue (t : KeyType) (later : List KeyType) (removed : Bool)
  /-- `Remove` from the map of type `t`. -/
  | removeValue (t : KeyType) (later : List KeyType) (removed : Bool)
  /-- `RemoveKey` of the tracker. -/
  | removeKey (removed : Bool)
  /-- `UnregisterKey`. -/
  | unregister (removed : Bool)
  /-- `Delete` of RocksDB. -/
  | rocksDelete (removed : Bool)
  | returned (removed : Bool)
deriving DecidableEq

def DelPhase.next (removed : Bool) : List KeyType → DelPhase
  | [] => .removeKey removed
  | t :: later => .getValue t later removed

def delAct (key : Bytes) (s : KeyState E) : DelPhase → KeyState E × DelPhase
  | .removeBytes =>
      ({ s with slot := s.slot.drop .kBytes },
        .next (s.slot.value .kBytes).isSome
          [.kZSet, .kList, .kHash, .kSet, .kStream, .kJson, .kVector])
  | .getValue t later removed =>
      (s, if (s.slot.value t).isSome then .removeValue t later removed else .next removed later)
  | .removeValue t later removed =>
      ({ s with slot := s.slot.drop t }, .next (removed || (s.slot.value t).isSome) later)
  | .removeKey removed => ({ s with tracker := s.tracker.removeKey key }, .unregister removed)
  | .unregister removed => (s.setMetadata none, .rocksDelete removed)
  -- without RocksDB there is no record
  | .rocksDelete removed => ({ s with slot := { s.slot with record := none } }, .returned removed)
  | .returned removed => (s, .returned removed)

/-- The call `expire` makes next. -/
inductive ExpirePhase where
  /-- `Get` of `IsValid`. -/
  | isValid
  /-- `Remove` of `IsValid`. -/
  | forget
  /-- `Get` of `SetExpireMs`. -/
  | get
  /-- `Insert` of `SetExpireMs`. -/
  | insert (metadata : KeyMetadata)
  | returned (ok : Bool)
deriving DecidableEq

/-- Nobody looks at the answer of `SetExpireMs`. -/
def expireAct (now ms : Int) (s : KeyState E) : ExpirePhase → KeyState E × ExpirePhase
  | .isValid =>
      match s.slot.metadata with
      | none => (s, .returned false)
      | some metadata => (s, if metadata.isExpired now then .forget else .get)
  | .forget => (s.setMetadata none, .returned false)
  | .get =>
      match s.slot.metadata with
      | none => (s, .returned true)
      | some metadata => (s, .insert (metadata.setExpireMs ms))
  | .insert metadata => (s.setMetadata (some metadata), .returned true)
  | .returned ok => (s, .returned ok)

/-- `get` and `del`, from their first calls on. -/
def getAndDel (a : Access) (s : KeyState E) (js : List Bool) :
    Pair (KeyState E) GetPhase DelPhase :=
  final (Pair.turn (getAct a) (delAct a.key)) ⟨s, .isValid, .removeBytes⟩ js

/-- `get` and `expire`, from their first calls on. -/
def getAndExpire (a : Access) (now ms : Int) (s : KeyState E) (js : List Bool) :
    Pair (KeyState E) GetPhase ExpirePhase :=
  final (Pair.turn (getAct a) (expireAct now ms)) ⟨s, .isValid, .isValid⟩ js

/-! ## one client alone -/

section Alone

variable (s : KeyState E) (c : Call) (disk : Bool)

/-- A `get` alone returns, and does to the slot what `get` does. -/
theorem get_alone {a : Access} (hvalid : a.validNow = c.now) (haccess : a.accessNow = c.now) :
    (∃ v, (solo (getAct a) 7 (s, .isValid)).2 = .returned v) ∧
      (solo (getAct a) 7 (s, .isValid)).1.slot = s.slot.act c disk .get := by
  obtain ⟨⟨value, metadata, record⟩, tracker⟩ := s
  cases metadata with
  | none => simp [solo, getAct, Slot.act, Slot.valid, Slot.check, Slot.expired]
  | some m =>
      by_cases hexpired : m.isExpired c.now = true
      · simp [solo, getAct, Slot.act, Slot.valid, Slot.check, Slot.expired, hvalid, hexpired,
          KeyState.setMetadata]
      · cases hbytes : value .kBytes <;> cases record <;> by_cases h2q : a.eviction = .k2Q <;>
          simp [solo, getAct, Slot.act, Slot.valid, hvalid, hexpired, hbytes, h2q, haccess,
            KeyState.setMetadata, Slot.touch, Slot.set]

/-- The maps are cleared one after the other. -/
theorem del_values (key : Bytes) (later : List KeyType) (removed : Bool) :
    ∃ n removed', solo (delAct key) n (s, .next removed later) =
      ({ s with slot := later.foldl Slot.drop s.slot }, .removeKey removed') := by
  induction later generalizing s removed with
  | nil => exact ⟨0, removed, rfl⟩
  | cons t later ih =>
      cases hvalue : s.slot.value t with
      | none =>
          obtain ⟨n, removed', hn⟩ := ih s removed
          have hdrop : s.slot.drop t = s.slot := by
            rw [Slot.drop, ← hvalue, Function.update_eq_self]
          refine ⟨n + 1, removed', ?_⟩
          rw [List.foldl_cons, hdrop, ← hn]
          simp [solo, DelPhase.next, delAct, hvalue]
      | some v =>
          obtain ⟨n, removed', hn⟩ := ih { s with slot := s.slot.drop t } (removed || true)
          refine ⟨n + 2, removed', ?_⟩
          rw [List.foldl_cons, ← hn]
          simp [solo, DelPhase.next, delAct, hvalue]

/-- A `del` alone returns, and empties the slot. -/
theorem del_alone (key : Bytes) :
    ∃ n removed, (solo (delAct key) n (s, .removeBytes)).2 = .returned removed ∧
      (solo (delAct key) n (s, .removeBytes)).1.slot = s.slot.act c disk .del := by
  obtain ⟨n, removed, hn⟩ := del_values { s with slot := s.slot.drop .kBytes } key
    [.kZSet, .kList, .kHash, .kSet, .kStream, .kJson, .kVector] (s.slot.value .kBytes).isSome
  have hall : solo (delAct key) (3 + n + 1) (s, .removeBytes) =
      solo (delAct key) 3 (solo (delAct key) n
        ({ s with slot := s.slot.drop .kBytes }, .next (s.slot.value .kBytes).isSome
          [.kZSet, .kList, .kHash, .kSet, .kStream, .kJson, .kVector])) := by
    simp only [solo, Function.iterate_succ_apply, Function.iterate_add_apply, delAct]
  refine ⟨3 + n + 1, removed, ?_⟩
  rw [hall, hn]
  refine ⟨rfl, Slot.ext (funext fun t => ?_) rfl rfl⟩
  cases t with
  | kNone =>
      cases hvalue : s.slot.value .kNone with
      | none => exact hvalue
      | some v => exact v.elim
  | _ => simp [solo, delAct, KeyState.setMetadata, Slot.drop, Slot.act, Slot.empty]

/-- An `expire` alone returns whether the key was valid, and does to the slot what `expire` does. -/
theorem expire_alone (ms : Int) :
    (solo (expireAct c.now ms) 3 (s, .isValid)).2 = .returned (s.slot.valid c.now) ∧
      (solo (expireAct c.now ms) 3 (s, .isValid)).1.slot = s.slot.act c disk (.expire ms) := by
  obtain ⟨⟨value, metadata, record⟩, tracker⟩ := s
  cases metadata with
  | none => simp [solo, expireAct, Slot.act, Slot.valid, Slot.check, Slot.expired]
  | some m =>
      by_cases hexpired : m.isExpired c.now = true <;>
        simp [solo, expireAct, Slot.act, Slot.valid, Slot.check, Slot.expired, hexpired,
          KeyState.setMetadata]

/-- A `get` and then a `del`. -/
theorem get_then_del {a : Access} (hvalid : a.validNow = c.now) (haccess : a.accessNow = c.now) :
    ∃ n v removed,
      (getAndDel a s (List.replicate 7 true ++ List.replicate n false)).first = .returned v ∧
      (getAndDel a s (List.replicate 7 true ++ List.replicate n false)).second =
        .returned removed ∧
      (getAndDel a s (List.replicate 7 true ++ List.replicate n false)).shared.slot =
        (s.slot.act c disk .get).act c disk .del := by
  obtain ⟨⟨v, hv⟩, hget⟩ := get_alone s c disk hvalid haccess
  obtain ⟨n, removed, hremoved, hdel⟩ :=
    del_alone (solo (getAct a) 7 (s, .isValid)).1 c disk a.key
  refine ⟨n, v, removed, ?_⟩
  rw [getAndDel, final_append, Pair.final_replicate_true, Pair.final_replicate_false, ← hget]
  exact ⟨hv, hremoved, hdel⟩

/-- A `get` and then an `expire`. -/
theorem get_then_expire {a : Access} (hvalid : a.validNow = c.now) (haccess : a.accessNow = c.now)
    (ms : Int) :
    ∃ v, (getAndExpire a c.now ms s (List.replicate 7 true ++ List.replicate 3 false)).first =
        .returned v ∧
      (getAndExpire a c.now ms s (List.replicate 7 true ++ List.replicate 3 false)).second =
        .returned ((s.slot.act c disk .get).valid c.now) ∧
      (getAndExpire a c.now ms s
          (List.replicate 7 true ++ List.replicate 3 false)).shared.slot =
        (s.slot.act c disk .get).act c disk (.expire ms) := by
  obtain ⟨⟨v, hv⟩, hget⟩ := get_alone s c disk hvalid haccess
  obtain ⟨hvalid', hexpire⟩ :=
    expire_alone (solo (getAct a) 7 (s, .isValid)).1 c disk ms
  refine ⟨v, ?_⟩
  rw [getAndExpire, final_append, Pair.final_replicate_true, Pair.final_replicate_false, ← hget]
  exact ⟨hv, hvalid', hexpire⟩

end Alone

/-! ## what the calls do to the metadata -/

/-- The metadata that `get` is about to write back. -/
def GetPhase.copy : GetPhase → Option KeyMetadata
  | .insertAccess metadata _ => some metadata
  | _ => none

/-- The metadata is no longer `get`'s business. -/
def GetPhase.Past : GetPhase → Prop
  | .recordAccess _ | .returned _ => True
  | _ => False

def DelPhase.Unregistered : DelPhase → Prop
  | .rocksDelete _ | .returned _ => True
  | _ => False

/-- `expire` has found the key valid. -/
def ExpirePhase.Valid : ExpirePhase → Prop
  | .get | .insert _ | .returned true => True
  | _ => False

/-- The metadata set are read back. -/
@[simp] theorem metadata_setMetadata (s : KeyState E) (m : Option KeyMetadata) :
    (s.setMetadata m).slot.metadata = m := rfl

/-- The expiry is a matter of the metadata. -/
theorem expiry_congr {s s' : KeyState E} (h : s'.slot.metadata = s.slot.metadata) :
    s'.expiry = s.expiry :=
  congrArg (fun m => Option.bind m KeyMetadata.expireTimeMs) h

/-- Where there are metadata it is theirs. -/
theorem expiry_of_some {s : KeyState E} {m : KeyMetadata} (h : s.slot.metadata = some m) :
    s.expiry = m.expireTimeMs :=
  congrArg (fun m => Option.bind m KeyMetadata.expireTimeMs) h

/-- Where there are none there is none. -/
theorem expiry_of_none {s : KeyState E} (h : s.slot.metadata = none) : s.expiry = none :=
  congrArg (fun m => Option.bind m KeyMetadata.expireTimeMs) h

section Calls

variable {a : Access} {s : KeyState E} {key : Bytes} {now ms : Int}

/-- After its second call `get` leaves the metadata. -/
theorem metadata_getAct_of_past {ph : GetPhase} (h : ph.Past) :
    (getAct a s ph).1.slot.metadata = s.slot.metadata ∧ (getAct a s ph).2.Past := by
  cases ph with
  | recordAccess v =>
      simp only [getAct]
      split <;> exact ⟨rfl, trivial⟩
  | returned v => exact ⟨rfl, trivial⟩
  | _ => exact h.elim

/-- A copy is written back. -/
theorem getAct_of_copy {ph : GetPhase} {m : KeyMetadata} (h : ph.copy = some m) :
    (getAct a s ph).1.slot.metadata = some m ∧ (getAct a s ph).2.Past := by
  cases ph with
  | insertAccess metadata v => exact ⟨h, trivial⟩
  | _ => simp [GetPhase.copy] at h

/-- Without a copy to write back, `get` leaves the metadata or forgets it. -/
theorem metadata_getAct {ph : GetPhase} (h : ph.copy = none) :
    (getAct a s ph).1.slot.metadata = s.slot.metadata ∨
      (ph = .forget ∧ (getAct a s ph).1.slot.metadata = none ∧ (getAct a s ph).2.Past) := by
  cases ph with
  | isValid =>
      simp only [getAct]
      split <;> exact .inl rfl
  | forget => exact .inr ⟨rfl, rfl, trivial⟩
  | getBytes =>
      simp only [getAct]
      split <;> exact .inl rfl
  | rocksGet =>
      simp only [getAct]
      split <;> exact .inl rfl
  | insertBytes record => exact .inl rfl
  | getAccess v =>
      simp only [getAct]
      split <;> exact .inl rfl
  | insertAccess metadata v => simp [GetPhase.copy] at h
  | recordAccess v =>
      have hpast : (GetPhase.recordAccess v).Past := trivial
      exact .inl (metadata_getAct_of_past hpast).1
  | returned v => exact .inl rfl

/-- After `UnregisterKey` so does `del`. -/
theorem metadata_delAct_of_unregistered {ph : DelPhase} (h : ph.Unregistered) :
    (delAct key s ph).1.slot.metadata = s.slot.metadata ∧ (delAct key s ph).2.Unregistered := by
  cases ph with
  | rocksDelete removed => exact ⟨rfl, trivial⟩
  | returned removed => exact ⟨rfl, trivial⟩
  | _ => exact h.elim

/-- Before its last map `del` has not unregistered the key. -/
theorem not_unregistered_next (removed : Bool) (later : List KeyType) :
    ¬ (DelPhase.next removed later).Unregistered := by
  cases later <;> exact id

/-- Only `UnregisterKey` gets `del` past `UnregisterKey`. -/
theorem metadata_delAct {ph : DelPhase} (h : ¬ ph.Unregistered)
    (hnext : (delAct key s ph).2.Unregistered) : (delAct key s ph).1.slot.metadata = none := by
  cases ph with
  | removeBytes => exact hnext.elim
  | getValue t later removed =>
      simp only [delAct] at hnext
      split at hnext
      · exact hnext.elim
      · exact absurd hnext (not_unregistered_next _ _)
  | removeValue t later removed => exact absurd hnext (not_unregistered_next _ _)
  | removeKey removed => exact hnext.elim
  | unregister removed => rfl
  | rocksDelete removed => exact absurd trivial h
  | returned removed => exact absurd trivial h

/-- `expire` goes on with metadata it has seen. -/
theorem valid_expireAct {ph : ExpirePhase} (h : (expireAct now ms s ph).2.Valid) :
    ph.Valid ∨ s.slot.metadata ≠ none := by
  cases ph with
  | isValid =>
      cases hmetadata : s.slot.metadata with
      | none =>
          simp only [expireAct, hmetadata] at h
          exact h.elim
      | some metadata => exact .inr (by simp)
  | forget => exact h.elim
  | get => exact .inl trivial
  | insert metadata => exact .inl trivial
  | returned ok => exact .inl h

/-- `expire` drops no metadata once it has found the key valid. -/
theorem metadata_expireAct {ph : ExpirePhase} (h : (expireAct now ms s ph).2.Valid)
    (hsome : s.slot.metadata ≠ none) : (expireAct now ms s ph).1.slot.metadata ≠ none := by
  cases ph with
  | isValid =>
      simp only [expireAct]
      split <;> exact hsome
  | forget => exact h.elim
  | get =>
      simp only [expireAct]
      split <;> exact hsome
  | insert metadata => simp [expireAct]
  | returned ok => exact hsome

end Calls

/-! ## after `del` -/

section Del

variable {a : Access} {s : Pair (KeyState E) GetPhase DelPhase}

/-- After `del`'s `UnregisterKey`, `get` writes no copy back. -/
def NoCopyAfterDel (s : Pair (KeyState E) GetPhase DelPhase) (i : Bool) : Prop :=
  i = true → s.second.Unregistered → s.first.copy = none

/-- What `del` has removed is gone. -/
def Removed (s : Pair (KeyState E) GetPhase DelPhase) : Prop :=
  s.second.Unregistered → s.shared.slot.metadata = none

/-- What `del` has removed is back, and stays. -/
structure Revived (s : Pair (KeyState E) GetPhase DelPhase) : Prop where
  unregistered : s.second.Unregistered
  past : s.first.Past
  metadata : s.shared.slot.metadata ≠ none

/-- What was removed stays removed if no copy is written back. -/
theorem Removed.step (h : Removed s) {i : Bool} (hi : NoCopyAfterDel s i) :
    Removed (Pair.turn (getAct a) (delAct a.key) s i).2 := by
  intro hun
  cases i with
  | true =>
      obtain heq | ⟨-, hnone, -⟩ := metadata_getAct (a := a) (s := s.shared) (hi rfl hun)
      · exact heq.trans (h hun)
      · exact hnone
  | false =>
      by_cases hbefore : s.second.Unregistered
      · exact (metadata_delAct_of_unregistered hbefore).1.trans (h hbefore)
      · exact metadata_delAct hbefore hun

/-- A copy written back revives the key. -/
theorem revived_of_copy {i : Bool} (hi : ¬ NoCopyAfterDel s i) :
    Revived (Pair.turn (getAct a) (delAct a.key) s i).2 := by
  simp only [NoCopyAfterDel, Classical.not_imp] at hi
  obtain ⟨rfl, hun, hcopy⟩ := hi
  obtain ⟨m, hm⟩ := Option.ne_none_iff_exists'.mp hcopy
  obtain ⟨hsome, hpast⟩ := getAct_of_copy (a := a) (s := s.shared) hm
  exact ⟨hun, hpast, by simp [Pair.turn, hsome]⟩

theorem Revived.step (h : Revived s) (i : Bool) :
    Revived (Pair.turn (getAct a) (delAct a.key) s i).2 := by
  cases i with
  | true =>
      obtain ⟨heq, hpast⟩ := metadata_getAct_of_past (a := a) (s := s.shared) h.past
      exact ⟨h.unregistered, hpast, fun hnone => h.metadata (heq.symm.trans hnone)⟩
  | false =>
      obtain ⟨heq, hun⟩ : (delAct a.key s.shared s.second).1.slot.metadata =
          s.shared.slot.metadata ∧ (delAct a.key s.shared s.second).2.Unregistered :=
        metadata_delAct_of_unregistered h.unregistered
      exact ⟨hun, h.past, fun hnone => h.metadata (heq.symm.trans hnone)⟩

/-- Once `del` has removed the metadata, it is gone as long as no copy is written back. -/
theorem metadata_eq_none_iff {s : KeyState E} {js : List Bool}
    (h : (getAndDel a s js).second.Unregistered) :
    (getAndDel a s js).shared.slot.metadata = none ↔
      Along (Pair.turn (getAct a) (delAct a.key)) NoCopyAfterDel
        ⟨s, .isValid, .removeBytes⟩ js := by
  have hstart : Removed (⟨s, .isValid, .removeBytes⟩ : Pair (KeyState E) GetPhase DelPhase) :=
    False.elim
  obtain ⟨hall, hremoved⟩ | ⟨hnot, hrevived⟩ :=
    along_or_not (I := fun _ => True) (fun _ _ _ => trivial) (fun _ _ _ hs hi => hs.step hi)
      (fun _ _ _ hi => revived_of_copy hi) (fun _ i hs => hs.step i) trivial hstart js
  · exact iff_of_true (hremoved h) hall
  · exact iff_of_false hrevived.metadata hnot

end Del

/-! ## after `expire` -/

section Expire

variable {a : Access} {now ms : Int} {s : Pair (KeyState E) GetPhase ExpirePhase}

/-- `expire` still finds the metadata, and after it `get` neither forgets it nor writes a copy back
that has another expiry. -/
def NoCopyAfterExpire (ms : Int) (s : Pair (KeyState E) GetPhase ExpirePhase) (i : Bool) : Prop :=
  if i then s.second = .returned true →
    s.first ≠ .forget ∧ ∀ m, s.first.copy = some m → m.expireTimeMs = some ms
  else s.second = .get → s.shared.slot.metadata ≠ none

/-- The metadata `expire` has found is there, or `get` has forgotten it. -/
def StillFound (s : Pair (KeyState E) GetPhase ExpirePhase) : Prop :=
  s.second.Valid → s.shared.slot.metadata ≠ none ∨ s.first.Past

/-- The expiry is what `expire` stores. -/
structure Expiring (ms : Int) (s : Pair (KeyState E) GetPhase ExpirePhase) : Prop where
  insert : ∀ m, s.second = .insert m → m.expireTimeMs = some ms
  returned : s.second = .returned true → s.shared.expiry = some ms

/-- The expiry is not what `expire` has stored, and stays so. -/
structure Overwritten (ms : Int) (s : Pair (KeyState E) GetPhase ExpirePhase) : Prop where
  returned : s.second = .returned true
  past : s.first.Past
  expiry : s.shared.expiry ≠ some ms

/-- What `expire` has found is there until it stores the deadline. -/
theorem StillFound.step (h : StillFound s) (i : Bool) :
    StillFound (Pair.turn (getAct a) (expireAct now ms) s i).2 := by
  intro hvalid
  cases i with
  | true =>
      cases hcopy : s.first.copy with
      | none =>
          obtain heq | ⟨-, -, hpast⟩ := metadata_getAct (a := a) (s := s.shared) hcopy
          · obtain hsome | hpast := h hvalid
            · exact .inl fun hnone => hsome (heq.symm.trans hnone)
            · exact .inr (metadata_getAct_of_past hpast).2
          · exact .inr hpast
      | some m => exact .inr (getAct_of_copy hcopy).2
  | false =>
      obtain hbefore | hsome := valid_expireAct hvalid
      · obtain hsome | hpast := h hbefore
        · exact .inl (metadata_expireAct hvalid hsome)
        · exact .inr hpast
      · exact .inl (metadata_expireAct hvalid hsome)

/-- A duration that is positive is stored as the deadline. -/
theorem expireTimeMs_setExpireMs (hms : 0 < ms) (m : KeyMetadata) :
    (m.setExpireMs ms).expireTimeMs = some ms := by
  rw [KeyMetadata.setExpireMs, if_neg hms.not_ge]

/-- The deadline stays if no other copy is written back. -/
theorem Expiring.step (hms : 0 < ms) (h : Expiring ms s) {i : Bool}
    (hi : NoCopyAfterExpire ms s i) :
    Expiring ms (Pair.turn (getAct a) (expireAct now ms) s i).2 := by
  cases i with
  | true =>
      refine ⟨h.insert, fun hret => ?_⟩
      obtain ⟨hforget, hexpiry⟩ := hi hret
      cases hcopy : s.first.copy with
      | none =>
          obtain heq | ⟨heq, -, -⟩ := metadata_getAct (a := a) (s := s.shared) hcopy
          · exact (expiry_congr heq).trans (h.returned hret)
          · exact absurd heq hforget
      | some m =>
          have hsome := (getAct_of_copy (a := a) (s := s.shared) hcopy).1
          exact (expiry_of_some hsome).trans (hexpiry m hcopy)
  | false =>
      obtain ⟨shared, first, second⟩ := s
      cases second with
      | isValid =>
          cases hmetadata : shared.slot.metadata with
          | none => constructor <;> simp [Pair.turn, expireAct, hmetadata]
          | some m =>
              constructor <;> simp only [Pair.turn, expireAct, hmetadata] <;> split <;> simp
      | forget => constructor <;> simp [Pair.turn, expireAct]
      | get =>
          obtain ⟨m, hm⟩ := Option.ne_none_iff_exists'.mp (hi rfl)
          dsimp only at hm
          constructor <;> simp [Pair.turn, expireAct, hm, expireTimeMs_setExpireMs hms]
      | insert m =>
          have hexpiry := h.insert m rfl
          constructor <;> simp [Pair.turn, expireAct, KeyState.expiry, hexpiry]
      | returned ok => exact h

/-- A copy with another deadline overwrites it. -/
theorem overwritten_of_copy (h : StillFound s) {i : Bool} (hi : ¬ NoCopyAfterExpire ms s i) :
    Overwritten ms (Pair.turn (getAct a) (expireAct now ms) s i).2 := by
  cases i with
  | true =>
      simp only [NoCopyAfterExpire, if_true, Classical.not_imp, not_and_or, not_not] at hi
      obtain ⟨hret, hforget | hcopy⟩ := hi
      · obtain ⟨shared, first, second⟩ := s
        obtain rfl := hforget
        exact ⟨hret, trivial, by simp [Pair.turn, getAct, KeyState.expiry]⟩
      · push Not at hcopy
        obtain ⟨m, hm, hne⟩ := hcopy
        obtain ⟨hsome, hpast⟩ := getAct_of_copy (a := a) (s := s.shared) hm
        exact ⟨hret, hpast, fun heq => hne ((expiry_of_some hsome).symm.trans heq)⟩
  | false =>
      simp only [NoCopyAfterExpire, Bool.false_eq_true, if_false, Classical.not_imp, not_not] at hi
      obtain ⟨hget, hnone⟩ := hi
      obtain ⟨shared, first, second⟩ := s
      obtain rfl := hget
      have hpast := (h trivial).resolve_left (not_not_intro hnone)
      dsimp only at hnone
      simp only [Pair.turn, expireAct, hnone]
      exact ⟨rfl, hpast, by simp [expiry_of_none hnone]⟩

theorem Overwritten.step (h : Overwritten ms s) (i : Bool) :
    Overwritten ms (Pair.turn (getAct a) (expireAct now ms) s i).2 := by
  cases i with
  | true =>
      obtain ⟨heq, hpast⟩ := metadata_getAct_of_past (a := a) (s := s.shared) h.past
      exact ⟨h.returned, hpast, fun hsome => h.expiry ((expiry_congr heq).symm.trans hsome)⟩
  | false =>
      obtain ⟨shared, first, second⟩ := s
      obtain rfl := h.returned
      exact h

/-- Once `expire` has returned true, the expiry is what it stored as long as nothing is forgotten
and no copy with another expiry is written back. -/
theorem expireTimeMs_eq_iff (hms : 0 < ms) {s : KeyState E} {js : List Bool}
    (h : (getAndExpire a now ms s js).second = .returned true) :
    (getAndExpire a now ms s js).shared.expiry = some ms ↔
      Along (Pair.turn (getAct a) (expireAct now ms)) (NoCopyAfterExpire ms)
        ⟨s, .isValid, .isValid⟩ js := by
  have hfound : StillFound (⟨s, .isValid, .isValid⟩ : Pair (KeyState E) GetPhase ExpirePhase) :=
    False.elim
  have hstart : Expiring ms (⟨s, .isValid, .isValid⟩ : Pair (KeyState E) GetPhase ExpirePhase) :=
    ⟨by simp, by simp⟩
  obtain ⟨hall, hexpiring⟩ | ⟨hnot, hoverwritten⟩ :=
    along_or_not (fun _ i hs => hs.step i) (fun _ _ _ hs hi => hs.step hms hi)
      (fun _ _ hs hi => overwritten_of_copy hs hi) (fun _ i hs => hs.step i) hfound hstart js
  · exact iff_of_true (hexpiring.returned h) hall
  · exact iff_of_false hoverwritten.expiry hnot

end Expire

/-! ## `get` beside another client -/

/-- Once `del` has returned, no metadata is left if and only if `get` wrote no copy back after the
`UnregisterKey`; once `expire` has returned true, the expiry is what it stored if and only if
`expire` found the metadata the second time too and `get` neither forgot it later nor wrote a copy
with another expiry back. -/
theorem get_beside_iff (a : Access) (now ms : Int) (hms : 0 < ms) (s : KeyState E)
    (js : List Bool) :
    (∀ removed, (getAndDel a s js).second = .returned removed →
      ((getAndDel a s js).shared.slot.metadata = none ↔
        Along (Pair.turn (getAct a) (delAct a.key)) NoCopyAfterDel
          ⟨s, .isValid, .removeBytes⟩ js)) ∧
    ((getAndExpire a now ms s js).second = .returned true →
      ((getAndExpire a now ms s js).shared.expiry = some ms ↔
        Along (Pair.turn (getAct a) (expireAct now ms)) (NoCopyAfterExpire ms)
          ⟨s, .isValid, .isValid⟩ js)) := by
  constructor
  · intro removed hreturned
    exact metadata_eq_none_iff (by rw [hreturned]; trivial)
  · exact expireTimeMs_eq_iff hms

/-- A key with a value in memory and no expiry. -/
def KeyState.resident : KeyState Env.bare :=
  ⟨(Slot.empty.set .kBytes [1]).register .kBytes, .empty⟩

theorem get_beside_iff_in_turn :
    ((getAndDel ⟨[107], .k2Q, 5, 5⟩ .resident
        (List.replicate 5 true ++ List.replicate 11 false)).shared.slot.metadata = none ↔
      Along (Pair.turn (getAct ⟨[107], .k2Q, 5, 5⟩) (delAct [107])) NoCopyAfterDel
        ⟨KeyState.resident, .isValid, .removeBytes⟩
        (List.replicate 5 true ++ List.replicate 11 false)) ∧
    ((getAndExpire ⟨[107], .k2Q, 5, 5⟩ 5 9 .resident
        (List.replicate 5 true ++ List.replicate 3 false)).shared.expiry = some 9 ↔
      Along (Pair.turn (getAct ⟨[107], .k2Q, 5, 5⟩) (expireAct 5 9)) (NoCopyAfterExpire 9)
        ⟨KeyState.resident, .isValid, .isValid⟩
        (List.replicate 5 true ++ List.replicate 3 false)) :=
  ⟨(get_beside_iff ⟨[107], .k2Q, 5, 5⟩ 5 9 (by decide) .resident
      (List.replicate 5 true ++ List.replicate 11 false)).1 true (by decide),
    (get_beside_iff ⟨[107], .k2Q, 5, 5⟩ 5 9 (by decide) .resident
      (List.replicate 5 true ++ List.replicate 3 false)).2 (by decide)⟩

/-- `get` takes its copy of the metadata, the other client does all of its work, and `get` writes
the copy back: the removed key exists again, and the expiry is lost. -/
theorem copy_written_back :
    ((getAndDel ⟨[107], .k2Q, 5, 5⟩ .resident
          (List.replicate 3 true ++ List.replicate 11 false ++ List.replicate 2 true)).first =
        .returned (some [1]) ∧
      (getAndDel ⟨[107], .k2Q, 5, 5⟩ .resident
          (List.replicate 3 true ++ List.replicate 11 false ++ List.replicate 2 true)).second =
        .returned true ∧
      (getAndDel ⟨[107], .k2Q, 5, 5⟩ .resident
          (List.replicate 3 true ++ List.replicate 11 false ++
            List.replicate 2 true)).shared.slot.valid 7 = true) ∧
    ((getAndExpire ⟨[107], .k2Q, 5, 5⟩ 5 9 .resident
          (List.replicate 3 true ++ List.replicate 3 false ++ List.replicate 2 true)).first =
        .returned (some [1]) ∧
      (getAndExpire ⟨[107], .k2Q, 5, 5⟩ 5 9 .resident
          (List.replicate 3 true ++ List.replicate 3 false ++ List.replicate 2 true)).second =
        .returned true ∧
      (getAndExpire ⟨[107], .k2Q, 5, 5⟩ 5 9 .resident
          (List.replicate 3 true ++ List.replicate 3 false ++
            List.replicate 2 true)).shared.expiry = none) := by
  decide

end AstraKV
