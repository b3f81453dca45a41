import AstraKV.Engine.FirstWrite
import AstraKV.Lib.Crowd

/-!
# AstraKV.Engine.Increment

Any number of clients that call `hincrby` on the same field, one locked call
at a time.  The number is read in one call and written in another, and
between the two the others may move.

The lost update is the familiar one, and the condition is on the schedule
alone: whoever writes the field has read the number that is there now
(`Latest`). The invariant `Summed` says that the field holds the start plus
the increments of all who have written, and each of them returns the sum as of
its own turn. With one client after the other the condition holds by itself.
-/

namespace AstraKV

open Slot Schedule Machine

variable {E : Env}

/-! ## the clients -/

/-- The call a client makes next. -/
inductive IncrementPhase where
  /-- `Get` of `hashes_`. -/
  | get
  /-- `Get` of RocksDB, in `load_hash`. -/
  | load
  /-- `Insert` of the new hash into `hashes_`. -/
  | insert (h : Dict Bytes Bytes)
  /-- `Get` of `RegisterKey`. -/
  | getVersion (p : Nat)
  /-- `Insert` of `RegisterKey`. -/
  | register (p : Nat) (version : UInt64)
  /-- `Get` of the hash. -/
  | getField (p : Nat)
  /-- `Insert` into the hash. -/
  | insertField (p : Nat) (current : Int)
  /-- `AllEntries` of the hash, for the record. -/
  | serialize (p : Nat) (newVal : Int)
  /-- `Put` of RocksDB. -/
  | put (record : Bytes) (newVal : Int)
  | returned (newVal : Int)

/-- What a client adds, and whether its RocksDB write succeeds. -/
structure Increment where
  delta : Int
  putOk : Bool

/-- One call of a client. -/
def incrementAct (disk : Bool) (field : Bytes) (w : Increment) (s : Shared E .kHash) :
    IncrementPhase → Shared E .kHash × IncrementPhase
  | .get =>
      match s.entry with
      | some p => (s, .getField p)
      | none => (s, .load)
  | .load => (s, .insert ((s.record.map fun data => deserializeHash data ∅).getD (false, ∅)).2)
  | .insert h =>
      ({ s with heap := s.heap ++ [h], entry := some s.heap.length }, .getVersion s.heap.length)
  | .getVersion p =>
      match s.metadata with
      | none => (s, .register p 1)
      | some existing => (s, .register p (existing.version + 1))
  | .register p version =>
      ({ s with metadata := some { KeyMetadata.ofType .kHash with version := version } },
        .getField p)
  | .getField p =>
      (s, .insertField p
        (((s.heap[p]?.bind fun h => AList.lookup field h).map Decimal.strtoll).getD 0))
  | .insertField p current =>
      let newVal := Engine.addInt64 current w.delta
      ({ s with heap := s.heap.modify p fun h => AList.insert field (Decimal.ofInt newVal) h },
        .serialize p newVal)
  | .serialize p newVal =>
      if disk then (s, .put ((s.heap[p]?.map (Engine.serialize (E := E) .kHash)).getD []) newVal)
      else (s, .returned newVal)
  | .put record newVal =>
      (if w.putOk then { s with record := some record } else s, .returned newVal)
  | .returned newVal => (s, .returned newVal)

variable {ι : Type}

/-- The clients after the moves of a schedule. -/
def increments [DecidableEq ι] (disk : Bool) (field : Bytes) (w : ι → Increment)
    (s : Shared E .kHash) (js : List ι) : Crowd (Shared E .kHash) IncrementPhase ι :=
  final (Crowd.turn fun i => incrementAct disk field (w i)) ⟨s, fun _ => .get⟩ js

/-! ## the number -/

namespace Shared

/-- The hash in the map, or else what a load of the record leaves in a new one. -/
def hash (s : Shared E .kHash) : Dict Bytes Bytes :=
  match s.entry with
  | some p => s.heap[p]?.getD ∅
  | none => ((s.record.map fun data => deserializeHash data ∅).getD (false, ∅)).2

/-- The number that the field holds. -/
def number (s : Shared E .kHash) (field : Bytes) : Option Int :=
  (s.hash.lookup field).map Decimal.strtoll

end Shared

/-! ## one client alone -/

/-- A client alone returns the sum, and does what `hincrby` does to the slot. -/
theorem increment_alone [DecidableEq ι] (disk : Bool) (key field : Bytes) (w : ι → Increment)
    (s : Shared E .kHash) (i : ι) (hentry : ∀ p, s.entry = some p → p < s.heap.length) (c : Call)
    (hok : c.putOk 0 = (w i).putOk) :
    ∃ newVal, (increments disk field w s (List.replicate 9 i)).phase i = .returned newVal ∧
      (Engine.increment field (w i).delta s.hash).1 = some newVal ∧
      (increments disk field w s (List.replicate 9 i)).shared.slot =
        s.slot.act c disk ((Op.hincrby key field (w i).delta).shape E c) := by
  rw [increments, Crowd.final_replicate]
  dsimp only
  rw [Function.update_self]
  generalize w i = increment at *
  obtain ⟨heap, entry, metadata, record⟩ := s
  obtain ⟨delta, ok⟩ := increment
  cases entry with
  | none =>
      cases metadata <;> cases disk <;> cases ok <;>
        simp [solo, incrementAct, Shared.slot, Shared.hash, Op.shape, persistIf,
          Engine.increment, Slot.act, Slot.store, Slot.set, Slot.register, Slot.save, hok]
  | some p =>
      have hp := hentry p rfl
      cases disk <;> cases ok <;>
        simp [solo, incrementAct, Shared.slot, Shared.hash, Op.shape, persistIf,
          Engine.increment, Slot.act, Slot.store, Slot.set, Slot.save, hok, hp]

/-! ## the total -/

/-- A counter that one client after the other adds to. -/
def addUp (delta : ι → Int) (n : Int) (i : ι) : Int × Int := (n + delta i, n + delta i)

/-- One client after the other adds up to the sum. -/
theorem final_addUp (delta : ι → Int) (n : Int) (order : List ι) :
    final (addUp delta) n order = n + (order.map delta).sum := by
  induction order generalizing n with
  | nil => simp
  | cons i order ih =>
      rw [final_cons, ih, List.map_cons, List.sum_cons, ← add_assoc]
      rfl

/-- What a client will return, once it has written it. -/
def IncrementPhase.result : IncrementPhase → Option Int
  | .serialize _ newVal | .put _ newVal | .returned newVal => some newVal
  | _ => none

/-- The client has found a hash in the map, or put one there. -/
def IncrementPhase.Entered : IncrementPhase → Prop
  | .get | .load | .insert _ => False
  | _ => True

/-- A hash that goes into the map holds the number that the field holds, and so does the client that
writes the field of the hash in the map. -/
def Shared.Latest (field : Bytes) (s : Shared E .kHash) : IncrementPhase → Prop
  | .insert h => (AList.lookup field h).map Decimal.strtoll = s.number field
  | .insertField p current => s.entry = some p ∧ s.number field = some current
  | _ => True

/-- The sum that the client writes is an `int64_t`. -/
def IncrementPhase.Fits (delta : Int) : IncrementPhase → Prop
  | .insertField _ current => -2 ^ 63 ≤ current + delta ∧ current + delta < 2 ^ 63
  | _ => True

instance {field : Bytes} {s : Shared E .kHash} : (ph : IncrementPhase) →
    Decidable (s.Latest field ph)
  | .insert _ => inferInstanceAs (Decidable (_ = _))
  | .insertField _ _ => inferInstanceAs (Decidable (_ ∧ _))
  | .get | .load | .getVersion _ | .register _ _ | .getField _ | .serialize _ _ | .put _ _
  | .returned _ => .isTrue trivial

instance {delta : Int} : (ph : IncrementPhase) → Decidable (ph.Fits delta)
  | .insertField _ _ => inferInstanceAs (Decidable (_ ∧ _))
  | .get | .load | .insert _ | .getVersion _ | .register _ _ | .getField _ | .serialize _ _
  | .put _ _ | .returned _ => .isTrue trivial

section Total

variable [DecidableEq ι] {disk : Bool} {field : Bytes} {w : ι → Increment} {n : Int}
  {s : Crowd (Shared E .kHash) IncrementPhase ι} {i : ι}

/-- The hash in the map is the one it points to. -/
theorem Shared.hash_of_entry {s : Shared E .kHash} {p : Nat} (h : s.entry = some p) :
    s.hash = s.heap[p]?.getD ∅ := by
  simp only [Shared.hash, h]

/-- Writing a number into the field makes it the number there. -/
theorem Shared.number_write {s : Shared E .kHash} {p : Nat} (hentry : s.entry = some p)
    (hp : p < s.heap.length) {v : Int} (hmin : -2 ^ 63 ≤ v) (hmax : v < 2 ^ 63) :
    ({ s with heap := s.heap.modify p fun h => AList.insert field (Decimal.ofInt v) h } :
      Shared E .kHash).number field = some v := by
  obtain ⟨heap, entry, metadata, record⟩ := s
  obtain rfl := hentry
  dsimp only at hp
  simp [Shared.number, Shared.hash, hp, Decimal.strtoll_ofInt hmin hmax]

/-- The results when one client has moved. -/
theorem result_update (phase : ι → IncrementPhase) (i : ι) (ph : IncrementPhase) :
    (fun j => (Function.update phase i ph j).result) =
      Function.update (fun j => (phase j).result) i ph.result :=
  Function.comp_update IncrementPhase.result phase i ph

/-- The field holds what the clients that have written it add up to. -/
structure Summed (field : Bytes) (w : ι → Increment) (n : Int)
    (s : Crowd (Shared E .kHash) IncrementPhase ι) : Prop where
  bound : ∀ p, s.shared.entry = some p → p < s.shared.heap.length
  entered : ∀ i, (s.phase i).Entered → s.shared.entry ≠ none
  serial : ∃ order a, s.shared.number field = some a ∧
    Serial (addUp fun i => (w i).delta) n order a fun i => (s.phase i).result

/-- A move that does not write the field. -/
theorem Summed.moved (h : Summed field w n s) {s' : Shared E .kHash} {ph : IncrementPhase}
    (hbound : ∀ p, s'.entry = some p → p < s'.heap.length)
    (hentered : s.shared.entry ≠ none → s'.entry ≠ none) (hself : ph.Entered → s'.entry ≠ none)
    (hnumber : s'.number field = s.shared.number field) (hresult : ph.result = (s.phase i).result) :
    Summed field w n ⟨s', Function.update s.phase i ph⟩ where
  bound := hbound
  entered := Crowd.forall_update (P := fun _ (ph : IncrementPhase) => ph.Entered → s'.entry ≠ none)
    (fun j hj => hentered (h.entered j hj)) hself
  serial := by
    obtain ⟨order, a, ha, hserial⟩ := h.serial
    refine ⟨order, a, hnumber.trans ha, ?_⟩
    dsimp only
    rwa [result_update, hresult, Function.update_eq_self (f := fun j => (s.phase j).result)]

/-- A move that changes neither the map nor a hash. -/
theorem Summed.stayed (h : Summed field w n s) {s' : Shared E .kHash} {ph : IncrementPhase}
    (hentered : s.shared.entry ≠ none) (hentry : s'.entry = s.shared.entry)
    (hheap : s'.heap = s.shared.heap) (hresult : ph.result = (s.phase i).result) :
    Summed field w n ⟨s', Function.update s.phase i ph⟩ := by
  obtain ⟨p, hp⟩ := Option.ne_none_iff_exists'.mp hentered
  refine h.moved ?_ ?_ ?_ ?_ hresult
  · rw [hentry, hheap]
    exact h.bound
  · rw [hentry]
    exact id
  · rw [hentry]
    exact fun _ => hentered
  · rw [Shared.number, Shared.number, Shared.hash_of_entry hp,
      Shared.hash_of_entry (hentry.trans hp), hheap]

/-- The client puts a hash into the map in which the field holds the same. -/
theorem Summed.inserted (h : Summed field w n s) {d : Dict Bytes Bytes}
    (hphase : s.phase i = .insert d)
    (hlatest : (AList.lookup field d).map Decimal.strtoll = s.shared.number field) :
    Summed field w n
      ⟨{ s.shared with heap := s.shared.heap ++ [d], entry := some s.shared.heap.length },
        Function.update s.phase i (.getVersion s.shared.heap.length)⟩ := by
  refine h.moved (fun p hp => ?_) (by simp) (by simp) ?_ (by rw [hphase]; rfl)
  · obtain rfl : s.shared.heap.length = p := Option.some.inj hp
    simp
  · rw [← hlatest, Shared.number, Shared.hash_of_entry rfl]
    simp

/-- The client adds to what the field holds. -/
theorem Summed.written (h : Summed field w n s) {p : Nat} {current : Int}
    (hphase : s.phase i = .insertField p current) (hentry : s.shared.entry = some p)
    (hnumber : s.shared.number field = some current)
    (hmin : -2 ^ 63 ≤ current + (w i).delta) (hmax : current + (w i).delta < 2 ^ 63) :
    Summed field w n (Crowd.turn (fun i => incrementAct disk field (w i)) s i).2 := by
  have hsum : Engine.addInt64 current (w i).delta = current + (w i).delta := by
    rw [Engine.addInt64, Int.bmod_eq_of_le] <;> omega
  have hp := h.bound p hentry
  have hentered : s.shared.entry ≠ none := by simp [hentry]
  simp only [Crowd.turn, hphase, incrementAct, hsum]
  obtain ⟨order, a, ha, hserial⟩ := h.serial
  obtain rfl : a = current := Option.some.inj (ha.symm.trans hnumber)
  refine ⟨?_, ?_, order ++ [i], a + (w i).delta, ?_, ?_⟩
  · simpa using h.bound
  · exact Crowd.forall_update (P := fun _ (ph : IncrementPhase) => ph.Entered → _)
      (fun j _ => hentered) fun _ => hentered
  · exact Shared.number_write hentry hp hmin hmax
  · dsimp only
    rw [result_update]
    exact hserial.append (by rw [hphase]; rfl)

/-- A client that writes the latest number keeps the sum. -/
theorem Summed.step (h : Summed field w n s) (hlatest : s.shared.Latest field (s.phase i))
    (hfits : (s.phase i).Fits (w i).delta) :
    Summed field w n (Crowd.turn (fun i => incrementAct disk field (w i)) s i).2 := by
  have hentered := h.entered i
  cases hphase : s.phase i with
  | get =>
      simp only [Crowd.turn, hphase, incrementAct]
      cases hentry : s.shared.entry with
      | none => exact h.moved h.bound id False.elim rfl (by rw [hphase]; rfl)
      | some p => exact h.moved h.bound id (fun _ => by simp [hentry]) rfl (by rw [hphase]; rfl)
  | load =>
      simp only [Crowd.turn, hphase, incrementAct]
      exact h.moved h.bound id False.elim rfl (by rw [hphase]; rfl)
  | insert d =>
      rw [hphase] at hlatest
      simp only [Crowd.turn, hphase, incrementAct]
      exact h.inserted hphase hlatest
  | getVersion p =>
      rw [hphase] at hentered
      simp only [Crowd.turn, hphase, incrementAct]
      cases s.shared.metadata with
      | none => exact h.stayed (hentered trivial) rfl rfl (by rw [hphase]; rfl)
      | some m => exact h.stayed (hentered trivial) rfl rfl (by rw [hphase]; rfl)
  | register p version =>
      rw [hphase] at hentered
      simp only [Crowd.turn, hphase, incrementAct]
      exact h.stayed (hentered trivial) rfl rfl (by rw [hphase]; rfl)
  | getField p =>
      rw [hphase] at hentered
      simp only [Crowd.turn, hphase, incrementAct]
      exact h.stayed (hentered trivial) rfl rfl (by rw [hphase]; rfl)
  | insertField p current =>
      rw [hphase] at hlatest hfits
      exact h.written hphase hlatest.1 hlatest.2 hfits.1 hfits.2
  | serialize p newVal =>
      rw [hphase] at hentered
      simp only [Crowd.turn, hphase, incrementAct]
      split
      · exact h.stayed (hentered trivial) rfl rfl (by rw [hphase]; rfl)
      · exact h.stayed (hentered trivial) rfl rfl (by rw [hphase]; rfl)
  | put record newVal =>
      rw [hphase] at hentered
      simp only [Crowd.turn, hphase, incrementAct]
      split
      · exact h.stayed (hentered trivial) rfl rfl (by rw [hphase]; rfl)
      · exact h.stayed (hentered trivial) rfl rfl (by rw [hphase]; rfl)
  | returned newVal =>
      rw [hphase] at hentered
      simp only [Crowd.turn, hphase, incrementAct]
      exact h.stayed (hentered trivial) rfl rfl (by rw [hphase])

theorem summed_increments {s : Shared E .kHash} {js : List ι}
    (hentry : ∀ p, s.entry = some p → p < s.heap.length) (hnumber : s.number field = some n)
    (hlatest : Along (Crowd.turn fun i => incrementAct disk field (w i))
      (fun s i => s.shared.Latest field (s.phase i)) ⟨s, fun _ => .get⟩ js)
    (hfits : Along (Crowd.turn fun i => incrementAct disk field (w i))
      (fun s i => (s.phase i).Fits (w i).delta) ⟨s, fun _ => .get⟩ js) :
    Summed field w n (increments disk field w s js) :=
  invariant_along (fun _ _ hs hi => hs.step hi.1 hi.2)
    ⟨hentry, fun _ => False.elim, [], n, hnumber, .nil⟩ (along_and.mpr ⟨hlatest, hfits⟩)

/-- If no client puts a number into the hash, or a hash into the map, that goes by an older one, the
calls of all clients add up. -/
theorem increments_add_up [Fintype ι] (E : Env) (disk : Bool) (field : Bytes) (w : ι → Increment)
    (s : Shared E .kHash) (n : Int) (js : List ι)
    (hentry : ∀ p, s.entry = some p → p < s.heap.length) (hnumber : s.number field = some n)
    (hlatest : Along (Crowd.turn fun i => incrementAct disk field (w i))
      (fun s i => s.shared.Latest field (s.phase i)) ⟨s, fun _ => .get⟩ js)
    (hfits : Along (Crowd.turn fun i => incrementAct disk field (w i))
      (fun s i => (s.phase i).Fits (w i).delta) ⟨s, fun _ => .get⟩ js)
    (hreturned : ∀ i, ∃ newVal, (increments disk field w s js).phase i = .returned newVal) :
    (increments disk field w s js).shared.number field = some (n + ∑ i, (w i).delta) ∧
      ∃ order : List ι, order.Nodup ∧ (∀ i, i ∈ order) ∧
        ∀ order₁ i order₂, order = order₁ ++ i :: order₂ →
          (increments disk field w s js).phase i =
            .returned (n + ((order₁ ++ [i]).map fun j => (w j).delta).sum) := by
  obtain ⟨-, -, order, a, ha, hserial⟩ := summed_increments hentry hnumber hlatest hfits
  have hall : ∀ i, i ∈ order := by
    intro i
    obtain ⟨newVal, hi⟩ := hreturned i
    rw [hserial.mem_iff, hi]
    exact Option.some_ne_none newVal
  have hsum : (order.map fun i => (w i).delta).sum = ∑ i, (w i).delta := by
    have huniv : order.toFinset = Finset.univ :=
      Finset.eq_univ_of_forall fun i => List.mem_toFinset.mpr (hall i)
    rw [← List.sum_toFinset _ hserial.nodup, huniv]
  refine ⟨?_, order, hserial.nodup, hall, ?_⟩
  · rw [ha, hserial.eq_final, final_addUp, hsum]
  · intro order₁ i order₂ horder
    obtain ⟨newVal, hi⟩ := hreturned i
    have hret := hserial.ret_eq horder
    rw [hi, final_addUp] at hret
    rw [hi, Option.some.inj hret]
    simp [addUp, add_assoc]

end Total

/-- Two clients that add 1 and 2 to a field that holds 5. -/
def fieldOfFive : Shared Env.bare .kHash :=
  ⟨[AList.insert [102] [53] ∅], some 0, some ⟨.kHash, none, 1, 0, 0⟩, none⟩

def oneAndTwo (i : Bool) : Increment := ⟨if i then 1 else 2, true⟩

theorem increments_add_up_in_turn :
    (increments true [102] oneAndTwo fieldOfFive
        [true, false, true, true, false, true, false, true, false, false]).shared.number [102] =
      some (5 + ∑ i, (oneAndTwo i).delta) :=
  (increments_add_up Env.bare true [102] oneAndTwo fieldOfFive 5
    [true, false, true, true, false, true, false, true, false, false] (by simp [fieldOfFive])
    (by decide +kernel) (by decide +kernel) (by decide +kernel)
    fun i => by cases i <;> exact ⟨_, rfl⟩).1

/-- Both clients read before either writes: one of the increments is lost. -/
theorem increment_lost :
    let js := [true, true, false, false, true, false, true, true, false, false]
    (∀ i, ∃ newVal, (increments true [102] oneAndTwo fieldOfFive js).phase i = .returned newVal) ∧
      fieldOfFive.number [102] = some 5 ∧
      (increments true [102] oneAndTwo fieldOfFive js).shared.number [102] = some 7 := by
  intro js
  exact ⟨fun i => by cases i <;> exact ⟨_, rfl⟩, by decide +kernel, by decide +kernel⟩

end AstraKV
