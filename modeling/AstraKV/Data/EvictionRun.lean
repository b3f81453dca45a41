import AstraKV.Data.Eviction2Q
import AstraKV.Lib.Machine

/-!
# AstraKV.Data.EvictionRun

The 2Q tracker over whole runs: its queues and its map of states hold the
same keys, and the victims come out in the order of the queues.

A victim is the first key of the first queue, or of the second when the first
is empty. The order matters because a victim is not put back: asking again and
again goes through both queues and ends when every key tracked has come out
(`run_getVictim`). Everything else is the invariant of `AstraKV.Data.Eviction2Q`,
which every operation keeps.
-/

namespace AstraKV

namespace Eviction2Q

open Machine

variable {q : Eviction2Q} {k : Bytes} {maxProtected : Nat → Nat}

inductive TrackerOp where
  | recordAccess (key : Bytes)
  | removeKey (key : Bytes)
  | getVictim

/-- The victim of `GetVictim`, and nothing for the other calls. -/
def step (maxProtected : Nat → Nat) (q : Eviction2Q) : TrackerOp → Option Bytes × Eviction2Q
  | .recordAccess key => (none, q.recordAccess maxProtected key)
  | .removeKey key => (none, q.removeKey key)
  | .getVictim => q.getVictim

/-- Taking a victim keeps the tracker well formed. -/
theorem WellFormed.getVictim (h : q.WellFormed) : q.getVictim.2.WellFormed := by
  obtain heq | ⟨victim, heq⟩ := h.getVictim_eq
  · rw [heq]
    exact h
  · rw [heq]
    exact (h.removeKey victim).1

/-- Every operation does. -/
theorem WellFormed.step (h : q.WellFormed) (op : TrackerOp) :
    (q.step maxProtected op).2.WellFormed := by
  cases op with
  | recordAccess key => exact (h.recordAccess maxProtected key).1
  | removeKey key => exact (h.removeKey key).1
  | getVictim => exact h.getVictim

/-- No key is twice in a queue, or in both. -/
theorem WellFormed.nodup (h : q.WellFormed) : (q.probationaryQueue ++ q.protectedQueue).Nodup := by
  refine List.nodup_append'.mpr ⟨h.nodup_probationary, h.nodup_protected, fun k hk hk' => ?_⟩
  rw [h.mem_probationary] at hk
  rw [h.mem_protected, hk] at hk'
  cases hk'

/-- The queues hold the keys that have a state. -/
theorem WellFormed.mem_queues (h : q.WellFormed) :
    k ∈ q.probationaryQueue ++ q.protectedQueue ↔ k ∈ q.keyState := by
  rw [List.mem_append, h.mem_probationary, h.mem_protected]
  constructor
  · rintro (hk | hk)
    · exact Dict.mem_of_lookup hk
    · exact Dict.mem_of_lookup hk
  · intro hk
    obtain ⟨state, hstate⟩ := Dict.exists_lookup hk
    cases state with
    | kProbationary => exact .inl hstate
    | kProtected => exact .inr hstate

/-- Calls of `GetVictim` go through the queues one after the other, and then return nothing. -/
theorem run_getVictim (n : Nat) :
    (run (step maxProtected) q (List.replicate n .getVictim)).1 =
      (List.range n).map fun i => (q.probationaryQueue ++ q.protectedQueue)[i]? := by
  induction n generalizing q with
  | zero => rfl
  | succ n ih =>
      rw [List.replicate_succ, List.range_succ_eq_map, List.map_cons, List.map_map]
      cases hqueue : q.probationaryQueue ++ q.protectedQueue with
      | nil =>
          have hvictim : q.step maxProtected .getVictim = (none, q) := getVictim_nil hqueue
          rw [run, hvictim]
          simp [ih, hqueue, Function.comp_def]
      | cons victim rest =>
          obtain ⟨q', hq', hrest, -⟩ := getVictim_cons hqueue
          have hvictim : q.step maxProtected .getVictim = (some victim, q') := hq'
          rw [run, hvictim]
          simp [ih, hrest]

/-- **The tracker is exact.**  After every run the queues have no key twice and none in common, the
map has the keys of the queues with their states, an access tracks its key and loses no other, and
`GetVictim` drains the tracker in the order of the queues, the probationary one first. -/
theorem tracker_exact (maxProtected : Nat → Nat) (ops : List TrackerOp) :
    let q := final (step maxProtected) empty ops
    (q.probationaryQueue ++ q.protectedQueue).Nodup ∧
      (∀ k, q.keyState.lookup k = some .kProbationary ↔ k ∈ q.probationaryQueue) ∧
      (∀ k, q.keyState.lookup k = some .kProtected ↔ k ∈ q.protectedQueue) ∧
      (∀ key k, k ∈ (q.recordAccess maxProtected key).keyState ↔ k = key ∨ k ∈ q.keyState) ∧
      (∀ k, k ∈ q.keyState ↔ k ∈ q.probationaryQueue ++ q.protectedQueue) ∧
      ∀ n, (run (step maxProtected) q (List.replicate n .getVictim)).1 =
        (List.range n).map fun i => (q.probationaryQueue ++ q.protectedQueue)[i]? := by
  intro q
  have h : q.WellFormed := invariant_run (fun _ op h => h.step op) wellFormed_empty ops
  exact ⟨h.nodup, fun k => (h.mem_probationary k).symm, fun k => (h.mem_protected k).symm,
    fun key => (h.recordAccess maxProtected key).2, fun _ => h.mem_queues.symm, run_getVictim⟩

end Eviction2Q

end AstraKV
