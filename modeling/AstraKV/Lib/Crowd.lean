import Mathlib
import AstraKV.Lib.Machine

/-!
# AstraKV.Lib.Crowd

Clients that share a state and move in any order: two of different kinds
(`Pair`), or any number of one kind (`Crowd`).  What many clients did may come
to what they would have done one after the other (`Serial`).

A client is a function from the shared state and its own phase to the same
two, and a schedule is the list of who moves. Anything a schedule can do is
reached by moves that each touch one phase, so invariants are proved one move
at a time; and the clients alone, `solo`, are what is compared with the
sequential operations they stand for.
-/

universe u v w x

namespace Schedule

open Machine

variable {σ : Type u} {τ : Type v} {υ : Type w} {ι : Type x}

/-- Where a client that moves alone gets in `n` moves. -/
def solo (act : σ → τ → σ × τ) (n : Nat) (p : σ × τ) : σ × τ := (fun p => act p.1 p.2)^[n] p

/-- The first of the moves and then the rest. -/
theorem solo_succ (act : σ → τ → σ × τ) (n : Nat) (p : σ × τ) :
    solo act (n + 1) p = act (solo act n p).1 (solo act n p).2 :=
  Function.iterate_succ_apply' _ n p

/-! ## two clients of different kinds -/

structure Pair (σ : Type u) (τ : Type v) (υ : Type w) where
  shared : σ
  first : τ
  second : υ

namespace Pair

/-- The first client moves on `true`, the second on `false`. -/
def turn (act₁ : σ → τ → σ × τ) (act₂ : σ → υ → σ × υ) (s : Pair σ τ υ) : Bool → Unit × Pair σ τ υ
  | true =>
      let res := act₁ s.shared s.first
      ((), { s with shared := res.1, first := res.2 })
  | false =>
      let res := act₂ s.shared s.second
      ((), { s with shared := res.1, second := res.2 })

variable {act₁ : σ → τ → σ × τ} {act₂ : σ → υ → σ × υ} {s : Pair σ τ υ}

/-- Turns of the first client are its moves alone. -/
theorem final_replicate_true (n : Nat) :
    final (turn act₁ act₂) s (List.replicate n true) =
      ⟨(solo act₁ n (s.shared, s.first)).1, (solo act₁ n (s.shared, s.first)).2, s.second⟩ := by
  induction n with
  | zero => rfl
  | succ n ih =>
      rw [List.replicate_succ', final_append, ih, solo_succ]
      rfl

/-- Turns of the second client are its moves alone. -/
theorem final_replicate_false (n : Nat) :
    final (turn act₁ act₂) s (List.replicate n false) =
      ⟨(solo act₂ n (s.shared, s.second)).1, s.first, (solo act₂ n (s.shared, s.second)).2⟩ := by
  induction n with
  | zero => rfl
  | succ n ih =>
      rw [List.replicate_succ', final_append, ih, solo_succ]
      rfl

end Pair

/-! ## any number of clients of one kind -/

structure Crowd (σ : Type u) (τ : Type v) (ι : Type x) where
  shared : σ
  phase : ι → τ

namespace Crowd

variable [DecidableEq ι]

/-- Client `i` moves. -/
def turn (act : ι → σ → τ → σ × τ) (s : Crowd σ τ ι) (i : ι) : Unit × Crowd σ τ ι :=
  let res := act i s.shared (s.phase i)
  ((), ⟨res.1, Function.update s.phase i res.2⟩)

/-- Turns of one client are its moves alone. -/
theorem final_replicate {act : ι → σ → τ → σ × τ} {s : Crowd σ τ ι} (i : ι) (n : Nat) :
    final (turn act) s (List.replicate n i) =
      ⟨(solo (act i) n (s.shared, s.phase i)).1,
        Function.update s.phase i (solo (act i) n (s.shared, s.phase i)).2⟩ := by
  induction n with
  | zero => simp [solo]
  | succ n ih =>
      rw [List.replicate_succ', final_append, ih, solo_succ]
      simp [turn]

/-- What all clients are in, they stay in. -/
theorem forall_update {P : ι → τ → Prop} {phase : ι → τ} {i : ι} {ph : τ}
    (h : ∀ j, P j (phase j)) (hi : P i ph) (j : ι) : P j (Function.update phase i ph j) := by
  by_cases hj : j = i
  · subst hj
    rwa [Function.update_self]
  · rw [Function.update_of_ne hj]
    exact h j

end Crowd

/-! ## one after the other -/

section Serial

variable {α : Type u} {ρ : Type v} [DecidableEq ι]

/-- The clients of `order` operate on `a₀`, one after the other and each of them once: what becomes
of `a₀`, and the answers so far. -/
inductive Serial (op : α → ι → ρ × α) (a₀ : α) : List ι → α → (ι → Option ρ) → Prop where
  | nil : Serial op a₀ [] a₀ fun _ => none
  | append {order : List ι} {a : α} {ret : ι → Option ρ} {i : ι} (h : Serial op a₀ order a ret)
      (hi : ret i = none) :
      Serial op a₀ (order ++ [i]) (op a i).2 (Function.update ret i (some (op a i).1))

namespace Serial

variable {op : α → ι → ρ × α} {a₀ a : α} {order order₁ order₂ : List ι} {ret : ι → Option ρ} {i : ι}

/-- What many clients left is what one after the other leaves. -/
theorem eq_final (h : Serial op a₀ order a ret) : a = final op a₀ order := by
  induction h with
  | nil => rfl
  | append h hi ih => rw [final_append, ← ih, final_cons, final_nil]

/-- The clients in the order are those that have an answer. -/
theorem mem_iff (h : Serial op a₀ order a ret) : i ∈ order ↔ ret i ≠ none := by
  induction h with
  | nil => simp
  | @append order a ret j h hj ih =>
      rw [List.mem_append, List.mem_singleton, ih]
      by_cases heq : i = j
      · simp [heq]
      · simp [heq]

theorem nodup (h : Serial op a₀ order a ret) : order.Nodup := by
  induction h with
  | nil => exact List.nodup_nil
  | append h hi ih =>
      refine ih.append (List.nodup_singleton _) ?_
      rw [List.disjoint_singleton, h.mem_iff]
      exact not_not_intro hi

/-- Each client has the answer of its turn. -/
theorem ret_eq (h : Serial op a₀ order a ret) (horder : order = order₁ ++ i :: order₂) :
    ret i = some (op (final op a₀ order₁) i).1 := by
  induction h generalizing order₂ with
  | nil => simp at horder
  | @append order a ret j h hj ih =>
      obtain ⟨rfl, rfl, -⟩ | ⟨order₃, hinit, -⟩ := append_singleton_eq_iff.mp horder
      · rw [Function.update_self, ← h.eq_final]
      · have hmem : i ∈ order := by simp [hinit]
        have hne : i ≠ j := by
          rintro rfl
          exact h.mem_iff.mp hmem hj
        rw [Function.update_of_ne hne, ih hinit]

end Serial

end Serial

end Schedule
