/-!
# AstraKV.Lib.Machine

Deterministic machines: a step function from a state and an input to an
output and the next state, run over a list of inputs.

Five rules carry every statement about whole runs: `invariant_run` lifts a
property that every step keeps, `invariant_along` one that the steps meeting
a condition keep, `along_congr` an equivalence under such an invariant, and
`Simulates.run` and `simulates_along` lift a step-by-step agreement with a
second machine to equal outputs and related final states.
-/

universe u v w x y

namespace Machine

variable {σ : Type u} {τ : Type v} {ι : Type w} {ο : Type x}

/-- The outputs of a run, in order, and its final state. -/
def run (step : σ → ι → ο × σ) : σ → List ι → List ο × σ
  | s, [] => ([], s)
  | s, i :: is =>
      let res := run step (step s i).2 is
      ((step s i).1 :: res.1, res.2)

/-- The state a run ends in. -/
def final (step : σ → ι → ο × σ) (s : σ) (is : List ι) : σ := (run step s is).2

@[simp] theorem final_nil (step : σ → ι → ο × σ) (s : σ) : final step s [] = s := rfl

@[simp] theorem final_cons (step : σ → ι → ο × σ) (s : σ) (i : ι) (is : List ι) :
    final step s (i :: is) = final step (step s i).2 is := rfl

/-- A run in two parts. -/
theorem final_append (step : σ → ι → ο × σ) (s : σ) (is js : List ι) :
    final step s (is ++ js) = final step (final step s is) js := by
  induction is generalizing s with
  | nil => rfl
  | cons i is ih => rw [List.cons_append, final_cons, ih, final_cons]

/-- Two machines that differ in what they answer end in the same state. -/
theorem final_congr {π : Type y} {step : σ → ι → ο × σ} {step' : σ → ι → π × σ}
    (h : ∀ s i, (step s i).2 = (step' s i).2) (s : σ) (is : List ι) :
    final step s is = final step' s is := by
  induction is generalizing s with
  | nil => rfl
  | cons i is ih => rw [final_cons, final_cons, h, ih]

/-- What every step keeps holds at the end of every run. -/
theorem invariant_run {step : σ → ι → ο × σ} {I : σ → Prop} (hstep : ∀ s i, I s → I (step s i).2)
    {s : σ} (hs : I s) (is : List ι) : I (final step s is) := by
  induction is generalizing s with
  | nil => exact hs
  | cons i is ih => exact ih (hstep s i hs)

/-- Every step of the run meets `Q` in the state it starts from. -/
def Along (step : σ → ι → ο × σ) (Q : σ → ι → Prop) : σ → List ι → Prop
  | _, [] => True
  | s, i :: is => Q s i ∧ Along step Q (step s i).2 is

instance decidableAlong {step : σ → ι → ο × σ} {Q : σ → ι → Prop} [∀ s i, Decidable (Q s i)] :
    (s : σ) → (is : List ι) → Decidable (Along step Q s is)
  | _, [] => .isTrue trivial
  | s, i :: is =>
      @instDecidableAnd (Q s i) (Along step Q (step s i).2 is) _ (decidableAlong (step s i).2 is)

/-- A condition on inputs alone holds along any run of such inputs. -/
theorem along_of_forall {step : σ → ι → ο × σ} {P : ι → Prop} {is : List ι} (h : ∀ i ∈ is, P i)
    (s : σ) : Along step (fun _ => P) s is := by
  induction is generalizing s with
  | nil => trivial
  | cons i is ih =>
      exact ⟨h i List.mem_cons_self, ih (fun j hj => h j (List.mem_cons_of_mem i hj)) (step s i).2⟩

/-- What every step that meets `Q` keeps holds at the end of every run of such steps. -/
theorem invariant_along {step : σ → ι → ο × σ} {Q : σ → ι → Prop} {I : σ → Prop}
    (hstep : ∀ s i, I s → Q s i → I (step s i).2) {s : σ} (hs : I s) {is : List ι}
    (hQ : Along step Q s is) : I (final step s is) := by
  induction is generalizing s with
  | nil => exact hs
  | cons i is ih => exact ih (hstep s i hs hQ.1) hQ.2

/-- A run whose steps meet `Q` has the property `R` at each of them, if a kept invariant and `Q`
give it. -/
theorem along_invariant {step : σ → ι → ο × σ} {Q R : σ → ι → Prop} {I : σ → Prop}
    (hstep : ∀ s i, I s → Q s i → I (step s i).2) (hR : ∀ s i, I s → Q s i → R s i) {s : σ}
    (hs : I s) {is : List ι} (hQ : Along step Q s is) : Along step R s is := by
  induction is generalizing s with
  | nil => trivial
  | cons i is ih => exact ⟨hR s i hs hQ.1, ih (hstep s i hs hQ.1) hQ.2⟩

/-- Two conditions on the steps come to the same over a run, if they do so under an invariant that
the first keeps. -/
theorem along_congr {step : σ → ι → ο × σ} {Q R : σ → ι → Prop} {I : σ → Prop}
    (hstep : ∀ s i, I s → Q s i → I (step s i).2) (hiff : ∀ s i, I s → (R s i ↔ Q s i)) {s : σ}
    (hs : I s) {is : List ι} : Along step R s is ↔ Along step Q s is := by
  induction is generalizing s with
  | nil => rfl
  | cons i is ih =>
      rw [Along, Along, hiff s i hs]
      exact and_congr_right fun hQ => ih (hstep s i hs hQ)

/-- Two conditions hold along a run if each of them does. -/
theorem along_and {step : σ → ι → ο × σ} {Q R : σ → ι → Prop} {s : σ} {is : List ι} :
    Along step (fun s i => Q s i ∧ R s i) s is ↔ Along step Q s is ∧ Along step R s is := by
  induction is generalizing s with
  | nil => simp [Along]
  | cons i is ih =>
      rw [Along, Along, Along, ih]
      exact and_and_and_comm

/-- A condition holds along two parts if it does along each. -/
theorem along_append {step : σ → ι → ο × σ} {Q : σ → ι → Prop} {s : σ} {is js : List ι} :
    Along step Q s (is ++ js) ↔ Along step Q s is ∧ Along step Q (final step s is) js := by
  induction is generalizing s with
  | nil => simp [Along]
  | cons i is ih => rw [List.cons_append, Along, Along, final_cons, ih, and_assoc]

/-- One more step, after a run that is looked at from its step `i` on. -/
theorem along_append_singleton {step : σ → ι → ο × σ} {Q : σ → ι → Prop} {s : σ} {is₁ is₂ : List ι}
    {i j : ι} (h : Along step Q (final step s (is₁ ++ [i])) is₂)
    (hj : Q (final step s (is₁ ++ i :: is₂)) j) :
    Along step Q (final step s (is₁ ++ [i])) (is₂ ++ [j]) := by
  refine along_append.mpr ⟨h, ?_, trivial⟩
  rwa [← final_append, List.append_assoc]

/-- A run meets `Q` at each of its steps. -/
theorem along_iff {step : σ → ι → ο × σ} {Q : σ → ι → Prop} {s : σ} {is : List ι} :
    Along step Q s is ↔ ∀ is₁ i is₂, is = is₁ ++ i :: is₂ → Q (final step s is₁) i := by
  constructor
  · rintro h is₁ i is₂ rfl
    exact (along_append.mp h).2.1
  · intro h
    induction is generalizing s with
    | nil => trivial
    | cons i is ih =>
        refine ⟨h [] i is rfl, ih fun is₁ j is₂ hsplit => ?_⟩
        exact h (i :: is₁) j is₂ (by rw [hsplit, List.cons_append])

/-- A list with one more input is split at that input, or where the list is. -/
theorem append_singleton_eq_iff {is is₁ is₂ : List ι} {i j : ι} :
    is ++ [i] = is₁ ++ j :: is₂ ↔
      (is = is₁ ∧ i = j ∧ is₂ = []) ∨ ∃ is₃, is = is₁ ++ j :: is₃ ∧ is₂ = is₃ ++ [i] := by
  constructor
  · intro hsplit
    obtain rfl | ⟨is₃, l, rfl⟩ := List.eq_nil_or_concat is₂
    · obtain ⟨hinit, hlast⟩ := List.append_inj' hsplit rfl
      exact .inl ⟨hinit, List.singleton_inj.mp hlast, rfl⟩
    · rw [List.concat_eq_append, ← List.cons_append, ← List.append_assoc] at hsplit
      obtain ⟨hinit, hlast⟩ := List.append_inj' hsplit rfl
      rw [List.singleton_inj.mp hlast, List.concat_eq_append]
      exact .inr ⟨is₃, hinit, rfl⟩
  · rintro (⟨rfl, rfl, rfl⟩ | ⟨is₃, rfl, rfl⟩) <;> simp

/-- `P` was the case of some input, and `Q` of all inputs after it. -/
def Since (P Q : ι → Prop) (is : List ι) : Prop :=
  ∃ is₁ i is₂, is = is₁ ++ i :: is₂ ∧ P i ∧ ∀ j ∈ is₂, Q j

theorem since_nil {P Q : ι → Prop} : ¬ Since P Q [] := by
  rintro ⟨is₁, i, is₂, hsplit, -⟩
  simp at hsplit

/-- The last input decides, or it changes nothing. -/
theorem since_append_singleton {P Q : ι → Prop} {is : List ι} {i : ι} :
    Since P Q (is ++ [i]) ↔ P i ∨ (Since P Q is ∧ Q i) := by
  constructor
  · rintro ⟨is₁, j, is₂, hsplit, hj, hlater⟩
    obtain ⟨-, rfl, -⟩ | ⟨is₂, rfl, rfl⟩ := append_singleton_eq_iff.mp hsplit
    · exact .inl hj
    · exact .inr ⟨⟨is₁, j, is₂, rfl, hj, fun l hl => hlater l (by simp [hl])⟩, hlater i (by simp)⟩
  · rintro (hi | ⟨⟨is₁, j, is₂, rfl, hj, hlater⟩, hi⟩)
    · exact ⟨is, i, [], rfl, hi, by simp⟩
    · refine ⟨is₁, j, is₂ ++ [i], by simp, hj, fun l hl => ?_⟩
      obtain hl | hl := List.mem_append.mp hl
      · exact hlater l hl
      · rwa [List.mem_singleton.mp hl]

/-- `R` relates the states of two machines that take the same steps, on inputs that meet `P`, with
the same outputs. -/
structure Simulates (P : ι → Prop) (R : σ → τ → Prop) (step : σ → ι → ο × σ)
    (spec : τ → ι → ο × τ) : Prop where
  output : ∀ s t i, P i → R s t → (step s i).1 = (spec t i).1
  next : ∀ s t i, P i → R s t → R (step s i).2 (spec t i).2

/-- Machines that agree step by step agree over runs. -/
theorem Simulates.run {P : ι → Prop} {R : σ → τ → Prop} {step : σ → ι → ο × σ}
    {spec : τ → ι → ο × τ} (h : Simulates P R step spec) {s : σ} {t : τ} (hst : R s t)
    {is : List ι} (hP : ∀ i ∈ is, P i) :
    (run step s is).1 = (run spec t is).1 ∧ R (final step s is) (final spec t is) := by
  induction is generalizing s t with
  | nil => exact ⟨rfl, hst⟩
  | cons i is ih =>
      have hi := hP i List.mem_cons_self
      obtain ⟨hout, hfinal⟩ :=
        ih (h.next s t i hi hst) fun j hj => hP j (List.mem_cons_of_mem i hj)
      have hhead := h.output s t i hi hst
      unfold Machine.run
      dsimp only
      rw [hhead, hout]
      exact ⟨rfl, hfinal⟩

/-- Two machines that take the same steps, with the same outputs, on inputs that meet `Q` in the
state of the second. -/
theorem simulates_along {Q : τ → ι → Prop} {R : σ → τ → Prop} {step : σ → ι → ο × σ}
    {spec : τ → ι → ο × τ}
    (hstep : ∀ s t i, R s t → Q t i → (step s i).1 = (spec t i).1 ∧ R (step s i).2 (spec t i).2)
    {s : σ} {t : τ} (hst : R s t) {is : List ι} (hQ : Along spec Q t is) :
    (run step s is).1 = (run spec t is).1 ∧ R (final step s is) (final spec t is) := by
  induction is generalizing s t with
  | nil => exact ⟨rfl, hst⟩
  | cons i is ih =>
      obtain ⟨hhead, hnext⟩ := hstep s t i hst hQ.1
      obtain ⟨hout, hfinal⟩ := ih hnext hQ.2
      unfold Machine.run
      dsimp only
      rw [hhead, hout]
      exact ⟨rfl, hfinal⟩

end Machine
