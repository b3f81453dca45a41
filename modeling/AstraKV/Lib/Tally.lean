import AstraKV.Lib.Machine
import Mathlib.Data.Finset.Card
import Mathlib.Tactic.Ring

/-!
# AstraKV.Lib.Tally

Quantities that every step of a machine adds to.  A measure of the state that
grows at each step by what the step counts for has grown over a run by the
sum (`measure_final`).  `card_of_agree` is the count of a set of which one
element may come or go.
-/

universe u w x

namespace Machine

variable {σ : Type u} {ι : Type w} {ο : Type x}

/-- What the steps of a run count for, all together. -/
def total (step : σ → ι → ο × σ) (count : σ → ι → Int) : σ → List ι → Int
  | _, [] => 0
  | s, i :: is => count s i + total step count (step s i).2 is

variable {step : σ → ι → ο × σ} {count count' : σ → ι → Int} {s : σ}

/-- A measure that grows by each step's count has grown by their sum. -/
theorem measure_final {measure : σ → Int}
    (hstep : ∀ s i, measure (step s i).2 = measure s + count s i) (is : List ι) :
    measure (final step s is) = measure s + total step count s is := by
  induction is generalizing s with
  | nil => exact (Int.add_zero _).symm
  | cons i is ih =>
      rw [final_cons, ih, hstep, total]
      ring

/-- Sums of two counts subtract. -/
theorem total_sub (is : List ι) :
    total step (fun s i => count s i - count' s i) s is =
      total step count s is - total step count' s is := by
  induction is generalizing s with
  | nil => rfl
  | cons i is ih =>
      rw [total, total, total, ih]
      ring

/-- A count that looks at the input and the output only. -/
theorem total_run {marks : ι → ο → Bool} (is : List ι) :
    total step (fun s i => if marks i (step s i).1 then 1 else 0) s is =
      (((is.zip (run step s is).1).countP fun io => marks io.1 io.2 : Nat) : Int) := by
  induction is generalizing s with
  | nil => rfl
  | cons i is ih =>
      rw [total, ih, run, List.zip_cons_cons, List.countP_cons]
      push_cast
      split <;> ring

/-- Sets that agree but for one element. -/
theorem card_of_agree {α : Type u} [DecidableEq α] {s t : Finset α} {a : α}
    (h : ∀ b, b ≠ a → (b ∈ s ↔ b ∈ t)) :
    (s.card : Int) + (if a ∈ t ∧ a ∉ s then 1 else 0) =
      t.card + if a ∈ s ∧ a ∉ t then 1 else 0 := by
  have herase : s.erase a = t.erase a := by
    ext b
    rw [Finset.mem_erase, Finset.mem_erase]
    exact and_congr_right (h b)
  have hcard := congrArg Finset.card herase
  by_cases hs : a ∈ s <;> by_cases ht : a ∈ t <;> simp only [hs, ht, not_true_eq_false,
    not_false_eq_true, and_true, and_false, and_self, if_true, if_false]
  · have hs' := Finset.card_erase_add_one hs
    have ht' := Finset.card_erase_add_one ht
    omega
  · have hs' := Finset.card_erase_add_one hs
    rw [Finset.erase_eq_of_notMem ht] at hcard
    omega
  · have ht' := Finset.card_erase_add_one ht
    rw [Finset.erase_eq_of_notMem hs] at hcard
    omega
  · rw [Finset.erase_eq_of_notMem hs, Finset.erase_eq_of_notMem ht] at hcard
    omega

end Machine
