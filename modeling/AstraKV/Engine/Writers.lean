import AstraKV.Engine.FirstWrite
import AstraKV.Lib.Crowd
import AstraKV.Lib.Points

/-!
# AstraKV.Engine.Writers

Any number of clients that write to a key whose collection is in the map
(`zadd`, `hset`, `sadd`), one locked call at a time.

The key has no expiry that is passed and the engine evicts nothing, so the pass
that each of the calls ends with leaves the collection where it is.  Every
client comes upon the same collection then, and its write to it is one move.

The writes are then totally ordered by their moves at the collection, whatever
the schedule, and the collection is what that order makes of it. The record is
another matter: each client serializes and puts by later moves, so the record
is the collection after some first part of the order that contains the
writer's own change (`RecordOf`), and who puts last need not have seen all.
-/

namespace AstraKV

open Slot Schedule Machine

variable {E : Env} {t : KeyType} {K : Collection E t} {ι : Type}

/-- The clients after the moves of a schedule. -/
def writes [DecidableEq ι] (disk : Bool) (w : ι → Write K) (s : Shared E t) (js : List ι) :
    Crowd (Shared E t) Phase ι :=
  final (Crowd.turn fun i => Shared.act disk (w i)) ⟨s, fun _ => .get⟩ js

/-! ## the order of the writes -/

/-- The client that is about to write to the collection. -/
def adding (s : Crowd (Shared E t) Phase ι) (i : ι) : Option ι :=
  match s.phase i with
  | .add _ => some i
  | _ => none

/-- The clients that have written to the collection, in the order in which they did. -/
def added [DecidableEq ι] (disk : Bool) (w : ι → Write K) (s : Shared E t) (js : List ι) : List ι :=
  points (Crowd.turn fun i => Shared.act disk (w i)) adding ⟨s, fun _ => .get⟩ js

/-- One write after the other. -/
def addOne (w : ι → Write K) (v : Value E t) (i : ι) : Unit × Value E t :=
  ((), K.add v (w i).name (w i).element)

/-- The record is that of the collection with the first writes of `order`, that of `i` among
them. -/
def RecordOf (w : ι → Write K) (v : Value E t) (order : List ι) (i : ι) (record : Bytes) : Prop :=
  ∃ first, first <+: order ∧ i ∈ first ∧
    record = Engine.serialize (E := E) t (final (addOne w) v first)

/-- A record of some writes is one when more have been made. -/
theorem RecordOf.mono {w : ι → Write K} {v : Value E t} {order order' : List ι} {i : ι}
    {record : Bytes} (h : RecordOf w v order i record) (hgrow : order <+: order') :
    RecordOf w v order' i record := by
  obtain ⟨first, hfirst, hi, hrecord⟩ := h
  exact ⟨first, hfirst.trans hgrow, hi, hrecord⟩

/-- Where client `i` is, with the writes of `order` made. -/
def Placed (w : ι → Write K) (v : Value E t) (p : Nat) (order : List ι) (i : ι) : Phase → Prop
  | .get => i ∉ order
  | .add p' => p' = p ∧ i ∉ order
  | .serialize p' => p' = p ∧ i ∈ order
  | .put record => i ∈ order ∧ RecordOf w v order i record
  | .checkMemory | .returned => i ∈ order
  | .insert | .getVersion _ | .register _ _ => False

/-- Another client's write leaves this one where it is. -/
theorem Placed.of_ne {w : ι → Write K} {v : Value E t} {p : Nat} {order : List ι} {i j : ι}
    {ph : Phase} (h : Placed w v p order i ph) (hne : i ≠ j) :
    Placed w v p (order ++ [j]) i ph := by
  have hmem : i ∈ order ++ [j] ↔ i ∈ order := by simp [hne]
  cases ph with
  | get => exact fun hi => h (hmem.mp hi)
  | add p' => exact ⟨h.1, fun hi => h.2 (hmem.mp hi)⟩
  | serialize p' => exact ⟨h.1, hmem.mpr h.2⟩
  | put record => exact ⟨hmem.mpr h.1, h.2.mono (List.prefix_append _ _)⟩
  | checkMemory | returned => exact hmem.mpr h
  | insert | getVersion _ | register _ _ => exact h

/-- Where a write of the collection in the map has got to: `s₀` is what the clients found, with the
collection `v` at `p`. -/
structure Written (w : ι → Write K) (s₀ : Shared E t) (v : Value E t) (p : Nat) (order : List ι)
    (s : Crowd (Shared E t) Phase ι) : Prop where
  entry : s.shared.entry = some p
  metadata : s.shared.metadata = s₀.metadata
  value : s.shared.heap[p]? = some (final (addOne w) v order)
  nodup : order.Nodup
  placed : ∀ i, Placed w v p order i (s.phase i)
  record : s.shared.record = s₀.record ∨
    ∃ i record, s.shared.record = some record ∧ (w i).putOk = true ∧ RecordOf w v order i record

section Steps

variable [DecidableEq ι] {disk : Bool} {w : ι → Write K} {s₀ : Shared E t} {v : Value E t} {p : Nat}
  {order : List ι} {s : Crowd (Shared E t) Phase ι} {i : ι}

/-- A move that writes neither to the collection nor to the record. -/
theorem Written.moved (h : Written w s₀ v p order s) {ph : Phase}
    (hph : Placed w v p order i ph) :
    Written w s₀ v p order ⟨s.shared, Function.update s.phase i ph⟩ where
  entry := h.entry
  metadata := h.metadata
  value := h.value
  nodup := h.nodup
  placed := Crowd.forall_update (P := Placed w v p order) h.placed hph
  record := h.record

/-- A write extends the order. -/
theorem Written.add (h : Written w s₀ v p order s) (hi : i ∉ order) :
    Written w s₀ v p (order ++ [i])
      ⟨{ s.shared with heap := s.shared.heap.modify p fun v => K.add v (w i).name (w i).element },
        Function.update s.phase i (.serialize p)⟩ where
  entry := h.entry
  metadata := h.metadata
  value := by
    dsimp only
    rw [List.getElem?_modify_eq, h.value, final_append]
    rfl
  nodup := List.nodup_append.mpr ⟨h.nodup, List.nodup_singleton i, by
    rintro j hj j' hj' rfl
    exact hi (List.mem_singleton.mp hj' ▸ hj)⟩
  placed j := by
    by_cases hj : j = i
    · subst hj
      dsimp only
      rw [Function.update_self]
      exact ⟨rfl, by simp⟩
    · dsimp only
      rw [Function.update_of_ne hj]
      exact (h.placed j).of_ne hj
  record := h.record.imp id fun ⟨j, record, hrecord, hok, hrecordOf⟩ =>
    ⟨j, record, hrecord, hok, hrecordOf.mono (List.prefix_append _ _)⟩

/-- A put makes the record that of what the client saw. -/
theorem Written.put (h : Written w s₀ v p order s) {record : Bytes}
    (hmem : i ∈ order) (hrecordOf : RecordOf w v order i record) :
    Written w s₀ v p order
      ⟨if (w i).putOk then { s.shared with record := some record } else s.shared,
        Function.update s.phase i .checkMemory⟩ := by
  by_cases hok : (w i).putOk = true
  · rw [if_pos hok]
    exact ⟨h.entry, h.metadata, h.value, h.nodup,
      Crowd.forall_update (P := Placed w v p order) h.placed hmem,
      .inr ⟨i, record, rfl, hok, hrecordOf⟩⟩
  · rw [if_neg hok]
    exact h.moved hmem

/-- Every move keeps the collection written in order. -/
theorem Written.step (h : Written w s₀ v p order s) (i : ι) :
    Written w s₀ v p (order ++ (adding s i).toList)
      (Crowd.turn (fun i => Shared.act disk (w i)) s i).2 := by
  have hplaced := h.placed i
  cases hphase : s.phase i with
  | get =>
      rw [hphase] at hplaced
      simp only [adding, Crowd.turn, hphase, Shared.act, h.entry, Option.toList_none,
        List.append_nil]
      exact h.moved ⟨rfl, hplaced⟩
  | insert | getVersion _ | register _ _ =>
      rw [hphase] at hplaced
      exact hplaced.elim
  | add p' =>
      rw [hphase] at hplaced
      obtain ⟨rfl, hi⟩ := hplaced
      simp only [adding, Crowd.turn, hphase, Shared.act, Option.toList_some]
      exact h.add hi
  | serialize p' =>
      rw [hphase] at hplaced
      obtain ⟨rfl, hi⟩ := hplaced
      simp only [adding, Crowd.turn, hphase, Shared.act, Option.toList_none, List.append_nil]
      cases disk with
      | false => exact h.moved hi
      | true =>
          refine h.moved ⟨hi, order, List.prefix_rfl, hi, ?_⟩
          rw [h.value]
          rfl
  | put record =>
      rw [hphase] at hplaced
      simp only [adding, Crowd.turn, hphase, Shared.act, Option.toList_none, List.append_nil]
      exact h.put hplaced.1 hplaced.2
  | checkMemory | returned =>
      rw [hphase] at hplaced
      simp only [adding, Crowd.turn, hphase, Shared.act, Option.toList_none, List.append_nil]
      exact h.moved hplaced

end Steps

variable [DecidableEq ι]

end AstraKV
