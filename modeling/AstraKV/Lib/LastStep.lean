import Mathlib
import AstraKV.Lib.Machine

/-!
# AstraKV.Lib.LastStep

The last step of a kind in a run, and the state it was taken in; and what a
run comes to whose steps all meet a condition, or do not.

A run with such a step splits into what came before it and what came after,
where no step is of the kind any more; induction on the run from its end keeps
track of the split as one step is added.
-/

universe u w x

namespace Machine

variable {σ : Type u} {ι : Type w} {ο : Type x}

/-- The last step of the run that meets `Q`, if there is one, was taken in a state with `P`. -/
def AtLast (step : σ → ι → ο × σ) (Q : σ → ι → Prop) (P : σ → Prop) (s : σ) (is : List ι) : Prop :=
  ∀ is₁ i is₂, is = is₁ ++ i :: is₂ → Q (final step s is₁) i →
    Along step (fun s i => ¬ Q s i) (final step s (is₁ ++ [i])) is₂ → P (final step s is₁)

/-- No step meets `Q`, or there is a last one that does. -/
theorem along_or_last (step : σ → ι → ο × σ) (Q : σ → ι → Prop) (s : σ) (is : List ι) :
    Along step (fun s i => ¬ Q s i) s is ∨ ∃ is₁ i is₂, is = is₁ ++ i :: is₂ ∧
      Q (final step s is₁) i ∧ Along step (fun s i => ¬ Q s i) (final step s (is₁ ++ [i])) is₂ := by
  induction is using List.reverseRecOn with
  | nil => exact .inl trivial
  | append_singleton is j ih =>
      by_cases hj : Q (final step s is) j
      · exact .inr ⟨is, j, [], rfl, hj, trivial⟩
      · obtain hall | ⟨is₁, i, is₂, rfl, hi, hafter⟩ := ih
        · exact .inl (along_append.mpr ⟨hall, hj, trivial⟩)
        · exact .inr ⟨is₁, i, is₂ ++ [j], by simp, hi, along_append_singleton hafter hj⟩

/-- What steps that meet `Q` keep, and what one that does not brings about for good. -/
theorem along_or_not {step : σ → ι → ο × σ} {Q : σ → ι → Prop} {I G B : σ → Prop}
    (hI : ∀ s i, I s → I (step s i).2) (hgood : ∀ s i, I s → G s → Q s i → G (step s i).2)
    (hbad : ∀ s i, I s → ¬ Q s i → B (step s i).2) (hkeep : ∀ s i, B s → B (step s i).2)
    {s : σ} (hIs : I s) (hGs : G s) (is : List ι) :
    (Along step Q s is ∧ G (final step s is)) ∨ (¬ Along step Q s is ∧ B (final step s is)) := by
  induction is generalizing s with
  | nil => exact .inl ⟨trivial, hGs⟩
  | cons i is ih =>
      rw [Along, final_cons]
      by_cases hQ : Q s i
      · obtain ⟨hall, hG⟩ | ⟨hnot, hB⟩ := ih (hI s i hIs) (hgood s i hIs hGs hQ)
        · exact .inl ⟨⟨hQ, hall⟩, hG⟩
        · exact .inr ⟨fun h => hnot h.2, hB⟩
      · exact .inr ⟨fun h => hQ h.1, invariant_run hkeep (hbad s i hIs hQ) is⟩

end Machine
