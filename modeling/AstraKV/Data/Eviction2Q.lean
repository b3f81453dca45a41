import AstraKV.Lib.Dict
import AstraKV.Lib.LittleEndian

/-!
# AstraKV.Data.Eviction2Q

The 2Q tracker (`Eviction2Q` of `eviction_2q.cpp`): a queue of keys seen once,
first in first out, and a queue of keys seen again, least recently used first.

The bound on the second queue, a `double` product in the source, is a
parameter.

A key has a state in the map and a place in one of the queues, and the two are
kept in step by hand: `WellFormed` says that each queue holds exactly the keys
of its state, without repetition, and every operation is shown to keep it.
Promoting a key may push the oldest protected keys back to the first queue, so
the bound is applied in a loop.
-/

namespace AstraKV

inductive EvictionState where
  | kProbationary
  | kProtected
deriving DecidableEq

structure Eviction2Q where
  probationaryQueue : List Bytes
  protectedQueue : List Bytes
  keyState : Dict Bytes EvictionState

namespace Eviction2Q

def empty : Eviction2Q := ⟨[], [], ∅⟩

instance : Inhabited Eviction2Q := ⟨empty⟩

/-- Move the front of the protected queue over until it is within its bound. -/
def demote (maxProtected : Nat) : List Bytes → List Bytes → Dict Bytes EvictionState → Eviction2Q
  | [], probationary, keyState => ⟨probationary, [], keyState⟩
  | demoted :: rest, probationary, keyState =>
      if rest.length + 1 > maxProtected then
        demote maxProtected rest (probationary ++ [demoted])
          (keyState.insert demoted .kProbationary)
      else ⟨probationary, demoted :: rest, keyState⟩

def promoteToProtected (maxProtected : Nat → Nat) (q : Eviction2Q) (key : Bytes) : Eviction2Q :=
  let probationary := q.probationaryQueue.erase key
  let total := probationary.length + q.protectedQueue.length
  let q := demote (maxProtected total) q.protectedQueue probationary q.keyState
  ⟨q.probationaryQueue, q.protectedQueue ++ [key], q.keyState.insert key .kProtected⟩

def recordAccess (maxProtected : Nat → Nat) (q : Eviction2Q) (key : Bytes) : Eviction2Q :=
  match q.keyState.lookup key with
  | none =>
      ⟨q.probationaryQueue ++ [key], q.protectedQueue, q.keyState.insert key .kProbationary⟩
  | some .kProbationary => promoteToProtected maxProtected q key
  | some .kProtected => { q with protectedQueue := q.protectedQueue.erase key ++ [key] }

def removeKey (q : Eviction2Q) (key : Bytes) : Eviction2Q :=
  match q.keyState.lookup key with
  | none => q
  | some .kProbationary =>
      ⟨q.probationaryQueue.erase key, q.protectedQueue, q.keyState.erase key⟩
  | some .kProtected =>
      ⟨q.probationaryQueue, q.protectedQueue.erase key, q.keyState.erase key⟩

def getVictim (q : Eviction2Q) : Option Bytes × Eviction2Q :=
  match q.probationaryQueue, q.protectedQueue with
  | victim :: rest, queue => (some victim, ⟨rest, queue, q.keyState.erase victim⟩)
  | [], victim :: rest => (some victim, ⟨[], rest, q.keyState.erase victim⟩)
  | [], [] => (none, q)

def size (q : Eviction2Q) : Nat := q.keyState.keys.length

/-! ## the keys tracked -/

/-- The tracker has an entry for the key, in a queue or in the map of states. -/
instance : Membership Bytes Eviction2Q :=
  ⟨fun q k => k ∈ q.probationaryQueue ∨ k ∈ q.protectedQueue ∨ k ∈ q.keyState⟩

/-- Each queue holds the keys of its state, once. -/
structure WellFormed (q : Eviction2Q) : Prop where
  mem_probationary : ∀ k, k ∈ q.probationaryQueue ↔ q.keyState.lookup k = some .kProbationary
  mem_protected : ∀ k, k ∈ q.protectedQueue ↔ q.keyState.lookup k = some .kProtected
  nodup_probationary : q.probationaryQueue.Nodup
  nodup_protected : q.protectedQueue.Nodup

variable {q : Eviction2Q} {key k : Bytes}

/-- A new tracker is well formed. -/
theorem wellFormed_empty : empty.WellFormed := by
  constructor <;> simp [empty]

/-- The keys tracked are those with a state. -/
theorem WellFormed.mem_iff (h : q.WellFormed) : k ∈ q ↔ k ∈ q.keyState := by
  constructor
  · rintro (hk | hk | hk)
    · exact Dict.mem_of_lookup ((h.mem_probationary k).mp hk)
    · exact Dict.mem_of_lookup ((h.mem_protected k).mp hk)
    · exact hk
  · exact fun hk => .inr (.inr hk)

/-- The keys at the front of the protected queue go over to the other. -/
theorem demote_eq (maxProtected : Nat) (queue probationary : List Bytes)
    (keyState : Dict Bytes EvictionState) :
    ∃ moved kept keyState', queue = moved ++ kept ∧
      demote maxProtected queue probationary keyState = ⟨probationary ++ moved, kept, keyState'⟩ ∧
      ∀ k, keyState'.lookup k = if k ∈ moved then some .kProbationary else keyState.lookup k := by
  induction queue generalizing probationary keyState with
  | nil => exact ⟨[], [], keyState, rfl, by simp [demote], by simp⟩
  | cons demoted rest ih =>
      by_cases hmax : rest.length + 1 > maxProtected
      · obtain ⟨moved, kept, keyState', hrest, hdemote, hlookup⟩ :=
          ih (probationary ++ [demoted]) (keyState.insert demoted .kProbationary)
        refine ⟨demoted :: moved, kept, keyState', by simp [hrest], ?_, fun k => ?_⟩
        · simp [demote, hmax, hdemote]
        · rw [hlookup, Dict.lookup_insert_ite]
          by_cases hk : k = demoted <;> simp [hk]
      · exact ⟨[], demoted :: rest, keyState, rfl, by simp [demote, hmax], by simp⟩

/-- Maps that know the same keys track the same keys. -/
theorem mem_keyState_of_lookup {d d' : Dict Bytes EvictionState}
    (h : ∀ k, (d'.lookup k).isSome = (d.lookup k).isSome) : k ∈ d' ↔ k ∈ d := by
  rw [← AList.lookup_isSome, h, AList.lookup_isSome]

/-- Promoting a key keeps the tracker well formed and its keys. -/
theorem WellFormed.promoteToProtected (h : q.WellFormed) (maxProtected : Nat → Nat)
    (hkey : q.keyState.lookup key = some .kProbationary) :
    (q.promoteToProtected maxProtected key).WellFormed ∧
      ∀ k, k ∈ (q.promoteToProtected maxProtected key).keyState ↔ k ∈ q.keyState := by
  unfold Eviction2Q.promoteToProtected
  obtain ⟨moved, kept, keyState, hqueue, hdemote, hlookup⟩ :=
    demote_eq (maxProtected ((q.probationaryQueue.erase key).length + q.protectedQueue.length))
      q.protectedQueue (q.probationaryQueue.erase key) q.keyState
  dsimp only
  rw [hdemote]
  have hmoved : ∀ k, k ∈ moved → q.keyState.lookup k = some .kProtected := fun k hk =>
    (h.mem_protected k).mp (by simp [hqueue, hk])
  have hkept : ∀ k, k ∈ kept → q.keyState.lookup k = some .kProtected := fun k hk =>
    (h.mem_protected k).mp (by simp [hqueue, hk])
  have hkey_moved : key ∉ moved := fun hk => by simp [hmoved key hk] at hkey
  have hkey_kept : key ∉ kept := fun hk => by simp [hkept key hk] at hkey
  have hnodup := h.nodup_protected
  rw [hqueue, List.nodup_append'] at hnodup
  have hstate : ∀ k, (keyState.insert key .kProtected).lookup k =
      if k = key then some .kProtected
      else if k ∈ moved then some .kProbationary else q.keyState.lookup k := fun k => by
    rw [Dict.lookup_insert_ite, hlookup]
  refine ⟨⟨fun k => ?_, fun k => ?_, ?_, ?_⟩, fun k => mem_keyState_of_lookup fun k => ?_⟩
  · rw [hstate, List.mem_append, h.nodup_probationary.mem_erase_iff, h.mem_probationary]
    by_cases hk : k = key
    · simp [hk, hkey_moved]
    · by_cases hk' : k ∈ moved <;> simp [hk, hk']
  · rw [hstate, List.mem_append, List.mem_singleton]
    by_cases hk : k = key
    · simp [hk]
    · by_cases hk' : k ∈ moved
      · have hkept : k ∉ kept := fun h => hnodup.2.2 hk' h
        simp [hk, hk', hkept]
      · simp [hk, hk', ← h.mem_protected, hqueue]
  · refine List.nodup_append'.mpr ⟨h.nodup_probationary.erase key, hnodup.1, fun k hk hk' => ?_⟩
    have hstate := (h.mem_probationary k).mp (List.mem_of_mem_erase hk)
    simp [hmoved k hk'] at hstate
  · refine List.nodup_append'.mpr ⟨hnodup.2.1, List.nodup_singleton key, fun k hk hk' => ?_⟩
    exact hkey_kept (List.mem_singleton.mp hk' ▸ hk)
  · rw [hstate]
    by_cases hk : k = key
    · subst hk
      simp [hkey]
    · by_cases hk' : k ∈ moved
      · simp [hk, hk', hmoved k hk']
      · simp [hk, hk']

/-- An access adds its key, if it is new, and no other. -/
theorem WellFormed.recordAccess (h : q.WellFormed) (maxProtected : Nat → Nat) (key : Bytes) :
    (q.recordAccess maxProtected key).WellFormed ∧
      ∀ k, k ∈ (q.recordAccess maxProtected key).keyState ↔ k = key ∨ k ∈ q.keyState := by
  unfold Eviction2Q.recordAccess
  cases hkey : q.keyState.lookup key with
  | none =>
      have hfresh : key ∉ q.probationaryQueue := by simp [h.mem_probationary, hkey]
      refine ⟨⟨fun k => ?_, fun k => ?_, ?_, h.nodup_protected⟩, fun k => AList.mem_insert _⟩
      · rw [Dict.lookup_insert_ite, List.mem_append, List.mem_singleton, h.mem_probationary]
        by_cases hk : k = key <;> simp [hk]
      · rw [Dict.lookup_insert_ite, h.mem_protected]
        obtain rfl | hk := eq_or_ne k key
        · simp [hkey]
        · simp [hk]
      · refine List.nodup_append'.mpr ⟨h.nodup_probationary, List.nodup_singleton key, ?_⟩
        intro k hk hk'
        exact hfresh (List.mem_singleton.mp hk' ▸ hk)
  | some state =>
      have hmem := Dict.mem_of_lookup hkey
      have hsame : ∀ k, k ∈ q.keyState ↔ k = key ∨ k ∈ q.keyState := fun k => by
        by_cases hk : k = key <;> simp [hk, hmem]
      cases state with
      | kProbationary =>
          obtain ⟨hformed, hkeys⟩ := h.promoteToProtected maxProtected hkey
          exact ⟨hformed, fun k => (hkeys k).trans (hsame k)⟩
      | kProtected =>
          have hperm : (q.protectedQueue.erase key ++ [key]).Perm q.protectedQueue :=
            List.perm_append_comm.trans
              (List.perm_cons_erase ((h.mem_protected key).mpr hkey)).symm
          refine ⟨⟨h.mem_probationary, fun k => ?_, h.nodup_probationary, ?_⟩, hsame⟩
          · rw [hperm.mem_iff, h.mem_protected]
          · exact hperm.nodup_iff.mpr h.nodup_protected

/-- Removing takes its key out, and no other. -/
theorem WellFormed.removeKey (h : q.WellFormed) (key : Bytes) :
    (q.removeKey key).WellFormed ∧
      ∀ k, k ∈ (q.removeKey key).keyState ↔ k ≠ key ∧ k ∈ q.keyState := by
  unfold Eviction2Q.removeKey
  cases hkey : q.keyState.lookup key with
  | none =>
      refine ⟨h, fun k => ⟨fun hk => ⟨?_, hk⟩, fun hk => hk.2⟩⟩
      rintro rfl
      exact AList.lookup_eq_none.mp hkey hk
  | some state =>
      cases state with
      | kProbationary =>
          refine ⟨⟨fun k => ?_, fun k => ?_, h.nodup_probationary.erase key, h.nodup_protected⟩,
            fun k => AList.mem_erase⟩
          · rw [Dict.lookup_erase_ite, h.nodup_probationary.mem_erase_iff, h.mem_probationary]
            by_cases hk : k = key <;> simp [hk]
          · rw [Dict.lookup_erase_ite, h.mem_protected]
            obtain rfl | hk := eq_or_ne k key
            · simp [hkey]
            · simp [hk]
      | kProtected =>
          refine ⟨⟨fun k => ?_, fun k => ?_, h.nodup_probationary, h.nodup_protected.erase key⟩,
            fun k => AList.mem_erase⟩
          · rw [Dict.lookup_erase_ite, h.mem_probationary]
            obtain rfl | hk := eq_or_ne k key
            · simp [hkey]
            · simp [hk]
          · rw [Dict.lookup_erase_ite, h.nodup_protected.mem_erase_iff, h.mem_protected]
            by_cases hk : k = key <;> simp [hk]

/-- The victim is removed. -/
theorem WellFormed.getVictim_eq (h : q.WellFormed) :
    q.getVictim = (none, q) ∨ ∃ victim, q.getVictim = (some victim, q.removeKey victim) := by
  obtain ⟨probationary, queue, keyState⟩ := q
  cases probationary with
  | cons victim rest =>
      have hvictim := (h.mem_probationary victim).mp (by simp)
      exact .inr ⟨victim, by simp [getVictim, Eviction2Q.removeKey, hvictim]⟩
  | nil =>
      cases queue with
      | cons victim rest =>
          have hvictim := (h.mem_protected victim).mp (by simp)
          exact .inr ⟨victim, by simp [getVictim, Eviction2Q.removeKey, hvictim]⟩
      | nil => exact .inl rfl

/-- Victims come from the probationary queue and then from the protected one. -/
theorem getVictim_cons {rest : List Bytes}
    (h : q.probationaryQueue ++ q.protectedQueue = key :: rest) :
    ∃ q', q.getVictim = (some key, q') ∧ q'.probationaryQueue ++ q'.protectedQueue = rest ∧
      q'.removeKey key = q' := by
  obtain ⟨probationary, queue, keyState⟩ := q
  have hgone : ∀ probationary queue,
      removeKey ⟨probationary, queue, keyState.erase key⟩ key =
        ⟨probationary, queue, keyState.erase key⟩ := by
    simp [Eviction2Q.removeKey]
  cases probationary with
  | cons victim probationary =>
      obtain ⟨rfl, rfl⟩ := List.cons.inj h
      exact ⟨_, rfl, rfl, hgone _ _⟩
  | nil =>
      obtain rfl : queue = key :: rest := h
      exact ⟨_, rfl, rfl, hgone _ _⟩

/-- With nothing tracked there is no victim. -/
theorem getVictim_nil (h : q.probationaryQueue ++ q.protectedQueue = []) :
    q.getVictim = (none, q) := by
  obtain ⟨probationary, queue, keyState⟩ := q
  obtain ⟨rfl, rfl⟩ := List.append_eq_nil_iff.mp h
  rfl

end Eviction2Q

end AstraKV
