import AstraKV.Lib.Machine

/-!
# AstraKV.Lib.Projection

A machine seen at one part of its state.  Some inputs act on the part as the
steps of a smaller machine do, and the others leave it as it is; then a run of
the whole comes, at that part, to a run of the smaller machine on its own
inputs (`Projects.run`), and two runs with the same inputs of its own cannot
be told apart there (`Projects.run_congr`).
-/

universe u v w x

namespace Machine

variable {σ : Type u} {ρ : Type v} {ι : Type w} {ο : Type x}

/-- The outputs of the inputs that meet `own`. -/
def outputsAt (own : ι → Bool) : List ι → List ο → List ο
  | i :: is, o :: os => if own i then o :: outputsAt own is os else outputsAt own is os
  | _, _ => []

/-- A step that meets `Q` acts on `view` as one of `part` does if its input is one of `own`, and
otherwise leaves it. -/
structure Projects (Q : σ → ι → Prop) (own : ι → Bool) (view : σ → ρ) (step : σ → ι → ο × σ)
    (part : ρ → ι → ο × ρ) : Prop where
  output : ∀ s i, Q s i → own i = true → (step s i).1 = (part (view s) i).1
  next : ∀ s i, Q s i → own i = true → view (step s i).2 = (part (view s) i).2
  rest : ∀ s i, Q s i → own i = false → view (step s i).2 = view s

variable {Q : σ → ι → Prop} {own : ι → Bool} {view : σ → ρ} {step : σ → ι → ο × σ}
  {part : ρ → ι → ο × ρ} {s s' : σ} {is is' : List ι}

/-- The outputs of its own, one input at a time. -/
theorem outputsAt_run_cons (i : ι) :
    outputsAt own (i :: is) (run step s (i :: is)).1 =
      if own i then (step s i).1 :: outputsAt own is (run step (step s i).2 is).1
      else outputsAt own is (run step (step s i).2 is).1 := rfl

/-- Seen at the part, a run is the run of the part on its own inputs. -/
theorem Projects.run (h : Projects Q own view step part) (hQ : Along step Q s is) :
    outputsAt own is (run step s is).1 = (run part (view s) (is.filter own)).1 ∧
      view (final step s is) = final part (view s) (is.filter own) := by
  induction is generalizing s with
  | nil => exact ⟨rfl, rfl⟩
  | cons i is ih =>
      obtain ⟨hout, hfinal⟩ := ih hQ.2
      rw [outputsAt_run_cons, final_cons, hout, hfinal]
      cases hi : own i with
      | true =>
          rw [h.next s i hQ.1 hi, h.output s i hQ.1 hi, List.filter_cons_of_pos hi]
          exact ⟨rfl, rfl⟩
      | false =>
          rw [h.rest s i hQ.1 hi, List.filter_cons_of_neg (by simp [hi])]
          exact ⟨rfl, rfl⟩

/-- Runs that are the same at the part, from states that are. -/
theorem Projects.run_congr (h : Projects Q own view step part) (hview : view s = view s')
    (hown : is.filter own = is'.filter own) (hQ : Along step Q s is)
    (hQ' : Along step Q s' is') :
    outputsAt own is (Machine.run step s is).1 = outputsAt own is' (Machine.run step s' is').1 ∧
      view (final step s is) = view (final step s' is') := by
  obtain ⟨hout, hfinal⟩ := h.run hQ
  obtain ⟨hout', hfinal'⟩ := h.run hQ'
  rw [hout, hfinal, hout', hfinal', hview, hown]
  exact ⟨rfl, rfl⟩

/-- Where the part is not a function of the whole but stands in a relation to it, which may depend
on the inputs to come; of its own inputs only those that meet `asks` are answered alike. -/
theorem run_of_share {asks : ι → Bool} {R : List ι → σ → ρ → Prop} {r : ρ} (is : List ι)
    (hasks : ∀ i, asks i = true → own i = true)
    (hown : ∀ i is s r, R (i :: is) s r → own i = true →
      (asks i = true → (step s i).1 = (part r i).1) ∧ R is (step s i).2 (part r i).2)
    (hrest : ∀ i is s r, R (i :: is) s r → own i = false → R is (step s i).2 r)
    (hR : R is s r) :
    outputsAt asks is (Machine.run step s is).1 =
        outputsAt asks (is.filter own) (Machine.run part r (is.filter own)).1 ∧
      R [] (final step s is) (final part r (is.filter own)) := by
  induction is generalizing s r with
  | nil => exact ⟨rfl, hR⟩
  | cons i is ih =>
      rw [outputsAt_run_cons, final_cons]
      cases hi : own i with
      | true =>
          obtain ⟨hhead, hnext⟩ := hown i is s r hR hi
          obtain ⟨hout, hfinal⟩ := ih hnext
          rw [List.filter_cons_of_pos hi, outputsAt_run_cons, hout]
          refine ⟨?_, hfinal⟩
          split
          · rw [hhead ‹_›]
          · rfl
      | false =>
          have hi' : asks i = false := by
            rw [← Bool.not_eq_true]
            exact fun hasked => Bool.false_ne_true (hi.symm.trans (hasks i hasked))
          obtain ⟨hout, hfinal⟩ := ih (hrest i is s r hR hi)
          rw [List.filter_cons_of_neg (by simp [hi]), hi']
          exact ⟨hout, hfinal⟩

theorem outputsAt_run_filter :
    outputsAt own (is.filter own) (Machine.run step s (is.filter own)).1 =
      (Machine.run step s (is.filter own)).1 := by
  induction is generalizing s with
  | nil => rfl
  | cons i is ih =>
      cases hi : own i with
      | true =>
          rw [List.filter_cons_of_pos hi, outputsAt_run_cons, if_pos hi, ih]
          rfl
      | false => rw [List.filter_cons_of_neg (by simp [hi]), ih]

/-- The same along a relation instead of a view. -/
theorem run_of_part {R : σ → ρ → Prop} {r : ρ}
    (hown : ∀ s r i, R s r → own i = true →
      (step s i).1 = (part r i).1 ∧ R (step s i).2 (part r i).2)
    (hrest : ∀ s r i, R s r → own i = false → R (step s i).2 r) (hR : R s r) (is : List ι) :
    outputsAt own is (Machine.run step s is).1 = (Machine.run part r (is.filter own)).1 ∧
      R (final step s is) (final part r (is.filter own)) := by
  have hshare := run_of_share (R := fun _ => R) is (fun _ h => h)
    (fun i _ s r h hi => (hown s r i h hi).imp_left fun hout _ => hout)
    (fun i _ s r h hi => hrest s r i h hi) hR
  rwa [outputsAt_run_filter] at hshare

end Machine
