import Mathlib
import AstraKV.Lib.Machine

/-!
# AstraKV.Lib.Tour

Clients that go through the places of a shared state one by one and collect
what they find, while others change the state between two visits.  Each place
is found as it is at some moment of the tour, later places at later moments
(`Touring.visited`).
-/

universe u v w x y

namespace Machine

variable {σ : Type u} {ι : Type v} {κ : Type w} {γ : Type x} {ο : Type y}

/-- The shared state and, for each client on a tour, the place it comes to next and what it has
collected. -/
structure Touring (κ : Type w) (σ : Type u) (γ : Type x) where
  shared : σ
  touring : κ → Option (Nat × List γ)

inductive TourStep (κ : Type w) (ι : Type v) where
  | move (i : ι)
  | visit (client : κ)
deriving DecidableEq

/-- The step is a visit of the client. -/
def TourStep.visits [DecidableEq κ] (client : κ) : TourStep κ ι → Bool
  | .move _ => false
  | .visit client' => client' = client

namespace Touring

variable [DecidableEq κ] {places : σ → Nat} {look : σ → Nat → List γ} {step : σ → ι → ο × σ}
  {s : Touring κ σ γ} {client : κ}

/-- How far a client has come, and with what. -/
def progress (s : Touring κ σ γ) (client : κ) : Nat × List γ := (s.touring client).getD (0, [])

/-- A client visits a place, or has been at all of them and returns what it has. -/
def tourStep (places : σ → Nat) (look : σ → Nat → List γ) (step : σ → ι → ο × σ)
    (s : Touring κ σ γ) : TourStep κ ι → Option (List γ) × Touring κ σ γ
  | .move i => (none, { s with shared := (step s.shared i).2 })
  | .visit client =>
      let idx := (s.progress client).1
      let seen := (s.progress client).2
      if idx < places s.shared then
        let progress := (idx + 1, seen ++ look s.shared idx)
        (none, { s with touring := Function.update s.touring client (some progress) })
      else (some seen, { s with touring := Function.update s.touring client none })

/-- The shared state after the first steps of a run. -/
def sharedAt (places : σ → Nat) (look : σ → Nat → List γ) (step : σ → ι → ο × σ)
    (s : Touring κ σ γ) (steps : List (TourStep κ ι)) (moment : Nat) : σ :=
  (final (tourStep places look step) s (steps.take moment)).shared

/-- A step that is no visit leaves the client where it is. -/
theorem progress_of_not_visits {i : TourStep κ ι} (h : i.visits client = false) :
    (tourStep places look step s i).2.progress client = s.progress client := by
  cases i with
  | move i => rfl
  | visit client' =>
      have hne : client ≠ client' := Ne.symm (of_decide_eq_false h)
      unfold tourStep
      dsimp only
      split <;> exact congrArg (Option.getD · _) (Function.update_of_ne hne _ _)

/-- A visit collects what there is at the next place. -/
theorem progress_visit (h : (s.progress client).1 < places s.shared) :
    (tourStep places look step s (.visit client)).2.progress client =
      ((s.progress client).1 + 1,
        (s.progress client).2 ++ look s.shared (s.progress client).1) := by
  unfold tourStep
  dsimp only
  rw [if_pos h]
  exact congrArg (Option.getD · (0, [])) (Function.update_self client _ s.touring)

/-- A client that has been everywhere returns what it has collected. -/
theorem visit_fst_of_le (h : places s.shared ≤ (s.progress client).1) :
    (tourStep places look step s (.visit client)).1 = some (s.progress client).2 := by
  unfold tourStep
  dsimp only
  rw [if_neg (not_lt.mpr h)]

/-- Every step keeps what the moves keep. -/
theorem shared_invariant {I : σ → Prop} (hmove : ∀ t i, I t → I (step t i).2) (hs : I s.shared)
    (steps : List (TourStep κ ι)) :
    I (final (tourStep places look step) s steps).shared := by
  refine invariant_run (I := fun t : Touring κ σ γ => I t.shared) ?_ hs steps
  rintro t (i | client) ht
  · exact hmove t.shared i ht
  · unfold tourStep
    dsimp only
    split <;> exact ht

/-- Earlier moments do not depend on later steps. -/
theorem sharedAt_append {steps : List (TourStep κ ι)} {i : TourStep κ ι} {moment : Nat}
    (h : moment ≤ steps.length) :
    sharedAt places look step s (steps ++ [i]) moment =
      sharedAt places look step s steps moment := by
  unfold sharedAt
  rw [List.take_append_of_le_length h]

/-- The last moment is the state reached. -/
theorem sharedAt_length (steps : List (TourStep κ ι)) :
    sharedAt places look step s steps steps.length =
      (final (tourStep places look step) s steps).shared := by
  unfold sharedAt
  rw [List.take_length]

/-- The client has been at the first `n` places, at the moments given and in their order. -/
structure Visited (places : σ → Nat) (look : σ → Nat → List γ) (step : σ → ι → ο × σ)
    (s : Touring κ σ γ) (client : κ) (steps : List (TourStep κ ι)) (n : Nat) (moment : Nat → Nat) :
    Prop where
  lt : ∀ idx < n, moment idx < steps.length
  increasing : ∀ idx idx', idx < idx' → idx' < n → moment idx < moment idx'
  progress : (final (tourStep places look step) s steps).progress client =
    (n, (List.range n).flatMap fun idx => look (sharedAt places look step s steps (moment idx)) idx)

section Steps

variable {steps : List (TourStep κ ι)} {n : Nat} {moment : Nat → Nat}

/-- What was visited stays so. -/
theorem Visited.append_singleton {i : TourStep κ ι}
    (h : Visited places look step s client steps n moment) (hi : i.visits client = false) :
    Visited places look step s client (steps ++ [i]) n moment := by
  refine ⟨fun idx hidx => ?_, h.increasing, ?_⟩
  · have := h.lt idx hidx
    simp
    omega
  · rw [final_append, final_cons, final_nil, progress_of_not_visits hi, h.progress]
    congr 1
    refine List.flatMap_congr fun idx hidx => ?_
    rw [sharedAt_append (h.lt idx (List.mem_range.mp hidx)).le]

/-- The visit of the next place. -/
theorem Visited.append_visit (h : Visited places look step s client steps n moment)
    (hn : n < places (final (tourStep places look step) s steps).shared) :
    Visited places look step s client (steps ++ [.visit client]) (n + 1)
      (Function.update moment n steps.length) := by
  have hold : ∀ idx < n, Function.update moment n steps.length idx = moment idx :=
    fun idx hidx => Function.update_of_ne hidx.ne _ _
  have hnew : Function.update moment n steps.length n = steps.length := Function.update_self ..
  refine ⟨fun idx hidx => ?_, fun idx idx' hlt hidx' => ?_, ?_⟩
  · rw [List.length_append, List.length_singleton]
    obtain hidx | rfl := Nat.lt_succ_iff_lt_or_eq.mp hidx
    · have := h.lt idx hidx
      rw [hold idx hidx]
      omega
    · omega
  · rw [hold idx (by omega)]
    obtain hidx' | rfl := Nat.lt_succ_iff_lt_or_eq.mp hidx'
    · rw [hold idx' hidx']
      exact h.increasing idx idx' hlt hidx'
    · rw [hnew]
      exact h.lt idx hlt
  · have hidx : ((final (tourStep places look step) s steps).progress client).1 = n := by
      rw [h.progress]
    rw [final_append, final_cons, final_nil, progress_visit (by rwa [hidx]), h.progress,
      List.range_succ, List.flatMap_append, List.flatMap_singleton, hnew, sharedAt_append le_rfl,
      sharedAt_length]
    congr 2
    refine List.flatMap_congr fun idx hidx => ?_
    have hidx := List.mem_range.mp hidx
    rw [hold idx hidx, sharedAt_append (h.lt idx hidx).le]

end Steps

/-- A client that has made no more visits than there are places has found each place as it was at
some moment of the run, later places at later moments. -/
theorem exists_visited (hplaces : ∀ t i, places (step t i).2 = places t)
    (hstart : s.touring client = none) {steps : List (TourStep κ ι)}
    (hcount : steps.countP (TourStep.visits client) ≤ places s.shared) :
    ∃ moment, Visited places look step s client steps (steps.countP (TourStep.visits client))
      moment := by
  induction steps using List.reverseRecOn with
  | nil =>
      refine ⟨id, by simp, by simp, ?_⟩
      rw [final_nil, progress, hstart]
      rfl
  | append_singleton steps i ih =>
      rw [List.countP_append, List.countP_singleton] at hcount ⊢
      obtain ⟨moment, hvisited⟩ := ih (by omega)
      cases hi : i.visits client with
      | false => exact ⟨moment, hvisited.append_singleton hi⟩
      | true =>
          have hvisit : i = .visit client := by
            cases i with
            | move i => contradiction
            | visit client' => rw [of_decide_eq_true hi]
          have hconst : places (final (tourStep places look step) s steps).shared =
              places s.shared :=
            shared_invariant (I := fun t => places t = places s.shared)
              (fun t i ht => (hplaces t i).trans ht) rfl steps
          rw [hi, if_pos rfl] at hcount
          subst hvisit
          exact ⟨_, hvisited.append_visit (by omega)⟩

end Touring

end Machine
