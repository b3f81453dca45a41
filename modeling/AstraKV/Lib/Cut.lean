import Mathlib

/-!
# AstraKV.Lib.Cut

Where a query falls in an ordered list.

`Cuts q l` is the only order fact a search for `q` needs: of any two
elements in order, the first is below `q` or the second is above it.  It
holds of every strictly increasing list over a strict weak order, so the
search lemmas built on it do not ask for a linear order; a comparison that
is not a strict weak order simply has no such lemma to offer.
-/

universe u

namespace Cut

variable {α : Type u} [LT α]

structure Cuts (q : α) (l : List α) : Prop where
  sep : l.Pairwise fun x y => x < q ∨ q < y
  asymm : ∀ x ∈ l, q < x → ¬ x < q

variable {q k : α} {l l₁ l₂ : List α}

/-- What cuts a list cuts every part of it. -/
theorem Cuts.sublist (h : Cuts q l) (hs : l₁.Sublist l) : Cuts q l₁ where
  sep := h.sep.sublist hs
  asymm := fun x hx => h.asymm x (hs.subset hx)

/-- Everything before an element not above `q` is below `q`. -/
theorem Cuts.lt_left (h : Cuts q (l₁ ++ k :: l₂)) (hk : ¬ q < k) : ∀ x ∈ l₁, x < q := by
  intro x hx
  have hsep := (List.pairwise_append.mp h.sep).2.2 x hx k List.mem_cons_self
  exact hsep.resolve_right hk

/-- Everything after an element not below `q` is above `q`. -/
theorem Cuts.gt_right (h : Cuts q (l₁ ++ k :: l₂)) (hk : ¬ k < q) : ∀ y ∈ l₂, q < y := by
  intro y hy
  have hpair := (List.pairwise_append.mp h.sep).2.1
  have hsep := (List.pairwise_cons.mp hpair).1 y hy
  exact hsep.resolve_left hk

/-- `q` falls just before position `i`. -/
structure Falls (q : α) (l : List α) (i : Nat) : Prop where
  le : i ≤ l.length
  below : ∀ x ∈ l.take i, x < q
  above : ∀ y ∈ l.drop i, q < y

section Position

variable {l : List α} {i : Nat}

/-- What stands before an element not above the query is below it. -/
theorem Cuts.take_lt (h : Cuts q l) (hi : i < l.length) (hk : ¬ q < l[i]) :
    ∀ x ∈ l.take i, x < q := by
  have hsplit : l = l.take i ++ l[i] :: l.drop (i + 1) := by
    rw [← List.drop_eq_getElem_cons hi, List.take_append_drop]
  rw [hsplit] at h
  exact h.lt_left hk

/-- What stands behind an element not below the query is above it. -/
theorem Cuts.drop_gt (h : Cuts q l) (hi : i < l.length) (hk : ¬ l[i] < q) :
    ∀ y ∈ l.drop (i + 1), q < y := by
  have hsplit : l = l.take i ++ l[i] :: l.drop (i + 1) := by
    rw [← List.drop_eq_getElem_cons hi, List.take_append_drop]
  rw [hsplit] at h
  exact h.gt_right hk

/-- An element below `q` has only elements below `q` up to it. -/
theorem Cuts.take_succ_lt (h : Cuts q l) (hi : i < l.length) (hk : l[i] < q) :
    ∀ x ∈ l.take (i + 1), x < q := by
  have hq : ¬ q < l[i] := fun hq => h.asymm _ (List.getElem_mem hi) hq hk
  intro x hx
  rw [← List.take_append_getElem hi, List.mem_append] at hx
  cases hx with
  | inl hx => exact h.take_lt hi hq x hx
  | inr hx => rwa [List.mem_singleton.mp hx]

/-- An element above `q` has only elements above `q` from it on. -/
theorem Cuts.drop_self_gt (h : Cuts q l) (hi : i < l.length) (hk : q < l[i]) :
    ∀ y ∈ l.drop i, q < y := by
  have hq : ¬ l[i] < q := h.asymm _ (List.getElem_mem hi) hk
  intro y hy
  rw [List.drop_eq_getElem_cons hi, List.mem_cons] at hy
  cases hy with
  | inl hy => rwa [hy]
  | inr hy => exact h.drop_gt hi hq y hy

end Position

/-- A strictly increasing list is cut by every query of a linear order. -/
theorem cuts_of_pairwise {α : Type u} [LinearOrder α] {l : List α} (h : l.Pairwise (· < ·))
    (q : α) : Cuts q l where
  sep := h.imp fun {x y} hxy => by
    rcases lt_or_ge x q with hx | hx
    · exact Or.inl hx
    · exact Or.inr (lt_of_le_of_lt hx hxy)
  asymm := fun x _ hq => lt_asymm hq

/-- Putting `q` at its place keeps a list strictly increasing. -/
theorem pairwise_insert (h : (l₁ ++ l₂).Pairwise (· < ·)) (h₁ : ∀ x ∈ l₁, x < q)
    (h₂ : ∀ y ∈ l₂, q < y) : (l₁ ++ q :: l₂).Pairwise (· < ·) := by
  rw [List.pairwise_append] at h ⊢
  refine ⟨h.1, List.pairwise_cons.mpr ⟨h₂, h.2.1⟩, ?_⟩
  intro x hx y hy
  rcases List.mem_cons.mp hy with rfl | hy
  · exact h₁ x hx
  · exact h.2.2 x hx y hy

/-- The search for the elements with `P` and `Q` may stop where `P` fails, if none is behind. -/
theorem filter_takeWhile {α : Type u} {P Q : α → Bool} {l : List α}
    (h : l.Pairwise fun a b => P a = false → (P b && Q b) = false) :
    (l.takeWhile P).filter Q = l.filter fun a => P a && Q a := by
  induction l with
  | nil => rfl
  | cons a l ih =>
      obtain ⟨hfirst, hrest⟩ := List.pairwise_cons.mp h
      cases hP : P a with
      | true => simp [hP, List.filter_cons, ih hrest]
      | false => simpa [hP] using fun b hb => hfirst b hb hP

end Cut
