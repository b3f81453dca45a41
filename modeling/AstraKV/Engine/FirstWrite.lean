import AstraKV.Engine.Collection
import AstraKV.Lib.Schedule

/-!
# AstraKV.Engine.FirstWrite

Two clients that write to the same key (`zadd`, `hset`, `sadd`), one locked
call at a time.  The maps hold pointers to the collections, and between the
calls of one client the other may move.

A client looks the key up, makes a collection of its own if there is none,
puts it into the map, registers the key, changes the collection it holds a
pointer to, and writes it out. If both clients make one, the second takes the
place of the first in the map, and what the first then writes goes into a
collection nobody finds. `Divided` is the invariant of that case; in the other
one client has found what the other put there, and the schedule decides which.
-/

namespace AstraKV

open Slot Schedule Machine

variable {E : Env} {t : KeyType}

/-! ## the clients -/

/-- What the engine holds about the key, and the collections made so far by the pointers to
them. -/
structure Shared (E : Env) (t : KeyType) where
  heap : List (Value E t)
  entry : Option Nat
  metadata : Option KeyMetadata
  record : Option Bytes

/-- The call a client makes next. -/
inductive Phase where
  /-- `Get` of the map. -/
  | get
  /-- `Insert` of a new collection into the map. -/
  | insert
  /-- `Get` of `RegisterKey`. -/
  | getVersion (p : Nat)
  /-- `Insert` of `RegisterKey`. -/
  | register (p : Nat) (version : UInt64)
  /-- `Add` or `Insert` of the collection. -/
  | add (p : Nat)
  /-- `GetAll` or `AllEntries` of the collection, for the record. -/
  | serialize (p : Nat)
  /-- `Put` of RocksDB. -/
  | put (record : Bytes)
  /-- `check_memory_and_evict`. -/
  | checkMemory
  | returned
deriving DecidableEq

/-- What client `i` writes, and whether its RocksDB write succeeds. -/
structure Write {E : Env} {t : KeyType} (K : Collection E t) where
  name : Bytes
  element : K.Element
  putOk : Bool

namespace Shared

variable {K : Collection E t}

/-- One call of a client.  Nothing is expired and nothing is evicted, and so the last one only
reads. -/
def act (disk : Bool) (w : Write K) (s : Shared E t) : Phase → Shared E t × Phase
  | .get =>
      match s.entry with
      | some p => (s, .add p)
      | none => (s, .insert)
  | .insert =>
      ({ s with heap := s.heap ++ [K.fresh], entry := some s.heap.length },
        .getVersion s.heap.length)
  | .getVersion p =>
      match s.metadata with
      | none => (s, .register p 1)
      | some existing => (s, .register p (existing.version + 1))
  | .register p version =>
      ({ s with metadata := some { KeyMetadata.ofType t with version := version } }, .add p)
  | .add p => ({ s with heap := s.heap.modify p fun v => K.add v w.name w.element }, .serialize p)
  | .serialize p =>
      if disk then (s, .put ((s.heap[p]?.map (Engine.serialize (E := E) t)).getD []))
      else (s, .checkMemory)
  | .put record => (if w.putOk then { s with record := some record } else s, .checkMemory)
  | .checkMemory => (s, .returned)
  | .returned => (s, .returned)

/-- What the engine holds about the key. -/
def slot (s : Shared E t) : Slot E :=
  ⟨Function.update (fun _ => none) t (s.entry.bind fun p => s.heap[p]?), s.metadata, s.record⟩

def absent : Shared E t := ⟨[], none, none, none⟩

end Shared

/-- The two clients after the moves of a schedule, from a key that is absent. -/
def afterMoves {K : Collection E t} (disk : Bool) (w : Bool → Write K) (js : List Bool) :
    Clients (Shared E t) Phase :=
  final (turn fun i => Shared.act disk (w i)) ⟨.absent, fun _ => .get⟩ js

/-- Both calls have returned. -/
def Returned (s : Clients (Shared E t) Phase) : Prop := ∀ i, s.phase i = .returned

/-! ## one client alone -/

/-- A key that is absent has an empty slot. -/
theorem slot_absent : (Shared.absent : Shared E t).slot = .empty := by
  refine Slot.ext (funext fun t' => ?_) rfl rfl
  by_cases ht : t' = t
  · subst ht
    simp [Shared.slot, Shared.absent, Slot.empty]
  · simp [Shared.slot, ht, Slot.empty]

/-- The value of the type in the slot is the collection the map points to. -/
theorem value_slot (s : Shared E t) : s.slot.value t = s.entry.bind fun p => s.heap[p]? := by
  simp [Shared.slot]

/-- A client that moves alone. -/
def alone {K : Collection E t} (disk : Bool) (w : Write K) (s : Shared E t) :
    Nat → Shared E t × Phase
  | 0 => (s, .get)
  | n + 1 => Shared.act disk w (alone disk w s n).1 (alone disk w s n).2

/-- Turns of one client alone are the moves of that client. -/
theorem final_replicate {K : Collection E t} (disk : Bool) (w : Bool → Write K) (s : Shared E t)
    (i : Bool) (n : Nat) :
    (final (turn fun i => Shared.act disk (w i)) ⟨s, fun _ => .get⟩ (List.replicate n i)).shared =
        (alone disk (w i) s n).1 ∧
      (final (turn fun i => Shared.act disk (w i)) ⟨s, fun _ => .get⟩
          (List.replicate n i)).phase i = (alone disk (w i) s n).2 := by
  induction n with
  | zero => exact ⟨rfl, rfl⟩
  | succ n ih =>
      rw [List.replicate_succ', final_append_singleton, shared_turn, phase_turn_self, ih.1, ih.2]
      exact ⟨rfl, rfl⟩

/-- A client that moves alone returns, and does what the operation does to the slot. -/
theorem alone_slot {K : Collection E t} (disk : Bool) (w : Write K) (s : Shared E t)
    (hentry : ∀ p, s.entry = some p → p < s.heap.length) (c : Call) (hok : c.putOk 0 = w.putOk) :
    (alone disk w s 8).2 = .returned ∧
      (alone disk w s 8).1.slot = s.slot.act c disk (K.shape w.name w.element) := by
  obtain ⟨heap, entry, metadata, record⟩ := s
  obtain ⟨name, element, ok⟩ := w
  cases entry with
  | none =>
      cases metadata <;> cases disk <;> cases ok <;>
        simp [alone, Shared.act, Shared.slot, Collection.shape, Slot.act, Slot.store, Slot.set,
          Slot.register, Slot.save, persistIf, hok]
  | some p =>
      have hp := hentry p rfl
      cases disk <;> cases ok <;>
        simp [alone, Shared.act, Shared.slot, Collection.shape, Slot.act, Slot.store, Slot.set,
          Slot.save, persistIf, hok, hp]

section Schedules

variable {K : Collection E t} {disk : Bool} {w : Bool → Write K} {a i j : Bool} {js : List Bool}
  {s : Clients (Shared E t) Phase}

/-- One more move of a schedule. -/
theorem afterMoves_append_singleton :
    afterMoves disk w (js ++ [i]) =
      (turn (fun i => Shared.act disk (w i)) (afterMoves disk w js) i).2 :=
  final_append_singleton js

/-! ## two collections -/

/-- The pointer a client holds. -/
def Phase.pointer : Phase → Option Nat
  | .getVersion p | .register p _ | .add p | .serialize p => some p
  | _ => none

/-- Neither client will see the collection of the other: each collection has an owner, and lacks
what the other client writes. -/
structure Divided (w : Bool → Write K) (owner : Nat → Bool) (s : Clients (Shared E t) Phase) :
    Prop where
  past : ∀ i, s.phase i ≠ .get
  owns : ∀ i p, (s.phase i).pointer = some p → owner p = i ∧ p < s.shared.heap.length
  entry : ∀ p, s.shared.entry = some p → p < s.shared.heap.length
  inserted : ∀ i, s.phase i ≠ .insert → s.shared.entry ≠ none
  lacks : ∀ p v, s.shared.heap[p]? = some v → K.get v (w (!owner p)).name = none

/-- A move that puts no new collection into the map. -/
theorem Divided.moved {owner : Nat → Bool} (h : Divided w owner s) {s' : Shared E t} {ph : Phase}
    (hpast : ph ≠ .get) (hpointer : ∀ p, ph.pointer = some p → (s.phase i).pointer = some p)
    (hphase : s.phase i ≠ .insert) (hlength : s'.heap.length = s.shared.heap.length)
    (hentry : s'.entry = s.shared.entry)
    (hlacks : ∀ p v, s'.heap[p]? = some v → K.get v (w (!owner p)).name = none) :
    Divided w owner ⟨s', Function.update s.phase i ph⟩ := by
  constructor
  · intro j
    dsimp only
    rw [Function.update_apply]
    split
    · exact hpast
    · exact h.past j
  · intro j p hp
    dsimp only at hp ⊢
    rw [Function.update_apply] at hp
    rw [hlength]
    split at hp
    · rename_i hj
      exact hj ▸ h.owns i p (hpointer p hp)
    · exact h.owns j p hp
  · dsimp only
    rw [hentry, hlength]
    exact h.entry
  · intro j _
    dsimp only
    rw [hentry]
    exact h.inserted i hphase
  · exact hlacks

/-- The new collection belongs to the client that made it. -/
theorem Divided.made {owner : Nat → Bool} (h : Divided w owner s) :
    Divided w (Function.update owner s.shared.heap.length i)
      ⟨{ s.shared with heap := s.shared.heap ++ [K.fresh], entry := some s.shared.heap.length },
        Function.update s.phase i (.getVersion s.shared.heap.length)⟩ := by
  constructor
  · intro j
    dsimp only
    rw [Function.update_apply]
    split
    · simp
    · exact h.past j
  · intro j p hp
    dsimp only at hp ⊢
    rw [Function.update_apply] at hp
    rw [List.length_append, List.length_singleton]
    split at hp
    · rename_i hj
      obtain rfl : s.shared.heap.length = p := Option.some.inj hp
      exact ⟨by rw [Function.update_self, hj], Nat.lt_succ_self _⟩
    · obtain ⟨howner, hlt⟩ := h.owns j p hp
      exact ⟨by rw [Function.update_of_ne hlt.ne, howner], Nat.lt_succ_of_lt hlt⟩
  · intro p hp
    obtain rfl : s.shared.heap.length = p := Option.some.inj hp
    simp
  · simp
  · intro p v hv
    dsimp only at hv
    by_cases hp : p < s.shared.heap.length
    · rw [List.getElem?_append_left hp] at hv
      rw [Function.update_of_ne hp.ne]
      exact h.lacks p v hv
    · rw [List.getElem?_append_right (not_lt.mp hp), List.getElem?_singleton] at hv
      split at hv
      · obtain rfl := Option.some.inj hv
        exact K.get_fresh _
      · simp at hv

/-- Names of different clients. -/
theorem other_name (hne : (w false).name ≠ (w true).name) (i : Bool) :
    (w (!i)).name ≠ (w i).name := by
  cases i
  · exact hne.symm
  · exact hne

/-- Two collections stay divided. -/
theorem Divided.step {owner : Nat → Bool} (hne : (w false).name ≠ (w true).name)
    (h : Divided w owner s) (i : Bool) :
    ∃ owner', Divided w owner' (turn (fun i => Shared.act disk (w i)) s i).2 := by
  unfold turn
  dsimp only
  cases hphase : s.phase i with
  | get => exact absurd hphase (h.past i)
  | insert => exact ⟨_, h.made⟩
  | getVersion p =>
      cases hmetadata : s.shared.metadata with
      | none =>
          simp only [Shared.act, hmetadata]
          exact ⟨owner, h.moved (by simp) (fun p' hp' => by rw [hphase]; exact hp')
            (by simp [hphase]) rfl rfl h.lacks⟩
      | some existing =>
          simp only [Shared.act, hmetadata]
          exact ⟨owner, h.moved (by simp) (fun p' hp' => by rw [hphase]; exact hp')
            (by simp [hphase]) rfl rfl h.lacks⟩
  | register p version =>
      exact ⟨owner, h.moved (by simp [Shared.act]) (fun p' hp' => by rw [hphase]; exact hp')
        (by simp [hphase]) rfl rfl h.lacks⟩
  | add p =>
      have hpointer : (s.phase i).pointer = some p := by rw [hphase, Phase.pointer]
      refine ⟨owner, h.moved (by simp [Shared.act]) (fun p' hp' => hpointer.trans hp')
        (by simp [hphase]) (by simp [Shared.act]) rfl ?_⟩
      intro p' v hv
      rw [Shared.act, List.getElem?_modify] at hv
      obtain ⟨v', hv', rfl⟩ := Option.map_eq_some_iff.mp hv
      split
      · rename_i hp
        subst hp
        rw [(h.owns i p hpointer).1, K.get_add_of_ne _ _ _ _ (other_name hne i)]
        rw [← (h.owns i p hpointer).1]
        exact h.lacks p v' hv'
      · exact h.lacks p' v' hv'
  | serialize p =>
      cases disk with
      | false =>
          exact ⟨owner, h.moved (by simp [Shared.act]) (fun p' hp' => by
            simp [Shared.act, Phase.pointer] at hp') (by simp [hphase]) rfl rfl h.lacks⟩
      | true =>
          exact ⟨owner, h.moved (by simp [Shared.act]) (fun p' hp' => by
            simp [Shared.act, Phase.pointer] at hp') (by simp [hphase]) rfl rfl h.lacks⟩
  | put record =>
      refine ⟨owner, h.moved (by simp [Shared.act]) (fun p' hp' => by
        simp [Shared.act, Phase.pointer] at hp') (by simp [hphase]) ?_ ?_ ?_⟩
      all_goals
        unfold Shared.act
        dsimp only
        split
        · first | rfl | exact h.lacks
        · first | rfl | exact h.lacks
  | checkMemory =>
      exact ⟨owner, h.moved (by simp [Shared.act]) (fun p' hp' => by
        simp [Shared.act, Phase.pointer] at hp') (by simp [hphase]) rfl rfl h.lacks⟩
  | returned =>
      exact ⟨owner, h.moved (by simp [Shared.act]) (fun p' hp' => by
        simp [Shared.act, Phase.pointer] at hp') (by simp [hphase]) rfl rfl h.lacks⟩

/-- Both clients looked before either had put a collection into the map. -/
theorem divided_afterMoves (hne : (w false).name ≠ (w true).name) (i : Bool) (js : List Bool) :
    ∃ owner, Divided w owner (afterMoves disk w (i :: (!i) :: js)) := by
  refine invariant_run (I := fun s => ∃ owner, Divided w owner s)
    (fun s i ⟨owner, h⟩ => h.step hne i) ⟨fun _ => i, ?_⟩ js
  have hphase : ∀ j, Function.update (Function.update (fun _ => Phase.get) i .insert) (!i)
      .insert j = .insert := by
    intro j
    cases i <;> cases j <;> rfl
  have hother : Function.update (fun _ => Phase.get) i .insert (!i) = .get := by
    cases i <;> rfl
  simp only [turn, Shared.act, Shared.absent, hother]
  constructor
  · simp [hphase]
  · simp [hphase, Phase.pointer]
  · simp
  · simp [hphase]
  · simp

/-- One of the clients cannot read what it wrote. -/
theorem Divided.lost {owner : Nat → Bool} (h : Divided w owner s) (hreturned : Returned s) :
    ∃ i v, s.shared.slot.value t = some v ∧ K.get v (w i).name = none := by
  have hsome : s.shared.entry ≠ none := h.inserted true (by simp [hreturned true])
  obtain ⟨p, hp⟩ := Option.ne_none_iff_exists'.mp hsome
  obtain ⟨v, hv⟩ : ∃ v, s.shared.heap[p]? = some v :=
    Option.isSome_iff_exists.mp (by simp [h.entry p hp])
  exact ⟨!owner p, v, by rw [value_slot, hp, Option.bind_some, hv], h.lacks p v hv⟩

end Schedules

end AstraKV
