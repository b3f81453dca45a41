import AstraKV.Lib.Machine

/-!
# AstraKV.Lib.Points

The steps of a run that count, each by its mark and in the order in which they
were taken: where the calls of several clients take effect, one after the
other (`invariant_points`).

An invariant of a concurrent run is then stated over the list of marks, the
order in which the calls take effect, and is proved one move at a time: a move
with a mark must act as the next call of the order, one without must not act.
-/

universe u v w x

namespace Machine

variable {σ : Type u} {ι : Type v} {μ : Type w} {ο : Type x}

/-- The marks of the steps that have one. -/
def points (step : σ → ι → ο × σ) (mark : σ → ι → Option μ) : σ → List ι → List μ
  | _, [] => []
  | s, i :: is => (mark s i).toList ++ points step mark (step s i).2 is

variable {step : σ → ι → ο × σ} {mark : σ → ι → Option μ} {s : σ} {is js : List ι}

/-- The marks of two parts are those of one and then of the other. -/
theorem points_append :
    points step mark s (is ++ js) =
      points step mark s is ++ points step mark (final step s is) js := by
  induction is generalizing s with
  | nil => rfl
  | cons i is ih =>
      rw [List.cons_append, points, ih, points, List.append_assoc]
      rfl

/-- What happened first stays first. -/
theorem points_prefix (is js : List ι) :
    points step mark s is <+: points step mark s (is ++ js) := by
  rw [points_append]
  exact List.prefix_append _ _

/-- What every step keeps of a state and the points so far. -/
theorem invariant_points {I : List μ → σ → Prop}
    (hstep : ∀ points s i, I points s → I (points ++ (mark s i).toList) (step s i).2)
    (hs : I [] s) (is : List ι) : I (points step mark s is) (final step s is) := by
  suffices h : ∀ before s, I before s → I (before ++ points step mark s is) (final step s is) from
    h [] s hs
  induction is with
  | nil =>
      intro before s hs
      rwa [points, List.append_nil]
  | cons i is ih =>
      intro before s hs
      rw [points, ← List.append_assoc]
      exact ih _ _ (hstep before s i hs)

end Machine
