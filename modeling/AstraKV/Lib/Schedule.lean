import Mathlib
import AstraKV.Lib.Machine

/-!
# AstraKV.Lib.Schedule

Two clients that take turns over a state they share.  A schedule says who
moves; what happened before what is a matter of the schedule alone
(`Before`), and grows with it one move at a time.
-/

universe u v

namespace Schedule

open Machine

variable {σ : Type u} {τ : Type v}

/-- What the clients share, and where each of them is. -/
structure Clients (σ : Type u) (τ : Type v) where
  shared : σ
  phase : Bool → τ

/-- Client `i` moves. -/
def turn (act : Bool → σ → τ → σ × τ) (s : Clients σ τ) (i : Bool) : Unit × Clients σ τ :=
  let res := act i s.shared (s.phase i)
  ((), ⟨res.1, Function.update s.phase i res.2⟩)

section Turn

variable {act : Bool → σ → τ → σ × τ} {s : Clients σ τ} {i j : Bool}

/-- A turn moves the client whose turn it is. -/
theorem phase_turn_self : (turn act s i).2.phase i = (act i s.shared (s.phase i)).2 :=
  Function.update_self _ _ _

/-- It leaves the phase of the other. -/
theorem phase_turn_of_ne (h : j ≠ i) : (turn act s i).2.phase j = s.phase j :=
  Function.update_of_ne h _ _

theorem shared_turn : (turn act s i).2.shared = (act i s.shared (s.phase i)).1 := rfl

theorem final_append_singleton (js : List Bool) :
    final (turn act) s (js ++ [i]) = (turn act (final (turn act) s js) i).2 := by
  rw [final_append]
  rfl

end Turn

/-! ## before -/

/-- When client `j` makes its move number `l`, client `i` has made `k` moves. -/
def Before (js : List Bool) (i : Bool) (k : Nat) (j : Bool) (l : Nat) : Prop :=
  ∃ js₁ js₂, js = js₁ ++ j :: js₂ ∧ js₁.count j + 1 = l ∧ k ≤ js₁.count i

variable {js js' : List Bool} {i j m : Bool} {k l : Nat}

/-- What came before what, after one more move. -/
theorem before_append_singleton :
    Before (js ++ [m]) i k j l ↔
      Before js i k j l ∨ (m = j ∧ js.count j + 1 = l ∧ k ≤ js.count i) := by
  constructor
  · rintro ⟨js₁, js₂, heq, hl, hk⟩
    obtain ⟨rfl, hm, -⟩ | ⟨js₂, rfl, -⟩ := append_singleton_eq_iff.mp heq
    · exact .inr ⟨hm, hl, hk⟩
    · exact .inl ⟨js₁, js₂, rfl, hl, hk⟩
  · rintro (⟨js₁, js₂, rfl, hl, hk⟩ | ⟨rfl, hl, hk⟩)
    · exact ⟨js₁, js₂ ++ [m], by simp, hl, hk⟩
    · exact ⟨js, [], rfl, hl, hk⟩

/-- The later of two moves has been made. -/
theorem Before.le_count (h : Before js i k j l) : l ≤ js.count j := by
  obtain ⟨js₁, js₂, rfl, rfl, -⟩ := h
  simp

/-- A move of another client, or another move, decides nothing. -/
theorem before_append_of_ne (h : m ≠ j ∨ js.count j + 1 ≠ l) :
    Before (js ++ [m]) i k j l ↔ Before js i k j l := by
  rw [before_append_singleton]
  refine or_iff_left ?_
  rintro ⟨hm, hl, -⟩
  exact h.elim (absurd hm) (absurd hl)

/-- The move made decides. -/
theorem before_append_self (hl : js.count j + 1 = l) :
    Before (js ++ [j]) i k j l ↔ k ≤ js.count i := by
  rw [before_append_singleton]
  constructor
  · rintro (h | ⟨-, -, hk⟩)
    · have hle := h.le_count
      omega
    · exact hk
  · exact fun hk => .inr ⟨rfl, hl, hk⟩

/-- A move that is not this one does not make it. -/
theorem le_count_append_of_ne (h : m ≠ i ∨ js.count i + 1 ≠ k) :
    k ≤ (js ++ [m]).count i ↔ k ≤ js.count i := by
  rw [List.count_append, List.count_singleton]
  by_cases hm : m = i
  · have hk := h.resolve_left (not_not_intro hm)
    simp only [hm, beq_self_eq_true, if_true]
    omega
  · simp [hm]

theorem count_append_self : (js ++ [i]).count i = js.count i + 1 := by simp

theorem count_append_of_ne (h : m ≠ i) : (js ++ [m]).count i = js.count i := by simp [h]

/-- The first move of `j` comes after the moves made without it. -/
theorem before_first (hnone : js.count j = 0) (hsome : 1 ≤ js'.count j) :
    Before (js ++ js') i (js.count i) j 1 := by
  induction js' using List.reverseRecOn with
  | nil => simp at hsome
  | append_singleton js' m ih =>
      rw [← List.append_assoc, before_append_singleton]
      by_cases hmore : 1 ≤ js'.count j
      · exact .inl (ih hmore)
      · have hzero : js'.count j = 0 := by omega
        rw [List.count_append, hzero, List.count_singleton] at hsome
        refine .inr ⟨?_, ?_, ?_⟩
        · by_contra hne
          simp [hne] at hsome
        · rw [List.count_append, hnone, hzero]
        · rw [List.count_append]
          exact Nat.le_add_right _ _

/-- Nothing comes before the first move of the client that moves first. -/
theorem not_before_head : ¬ Before (j :: js) i (k + 1) j 1 := by
  rintro ⟨js₁, js₂, heq, hl, hk⟩
  cases js₁ with
  | nil => simp at hk
  | cons m js₁ =>
      obtain ⟨rfl, -⟩ := List.cons.inj heq
      simp at hl

/-- Only one move comes before that of the client that moves second. -/
theorem not_before_second : ¬ Before (i :: j :: js) i (k + 2) j 1 := by
  rintro ⟨js₁, js₂, heq, hl, hk⟩
  match js₁ with
  | [] => simp at hk
  | [m] =>
      have hle : [m].count i ≤ 1 := List.count_le_length
      omega
  | m :: m' :: js₁ =>
      obtain ⟨-, htail⟩ := List.cons.inj heq
      obtain ⟨rfl, -⟩ := List.cons.inj htail
      have hpos : 0 < (m :: j :: js₁).count j := List.count_pos_iff.mpr (by simp)
      omega

end Schedule
