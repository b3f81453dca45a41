import Mathlib

/-!
# AstraKV.Lib.ListEdit

Positional edits of a list whose position is the length of a prefix.  Each
law says what the edit does to `xs ++ ys`, so that a proof about an array
update can work with the parts around the position.
-/

universe u

namespace ListEdit

variable {α : Type u}

theorem insertIdx_eq_take_drop (l : List α) (x : α) {i : Nat} (h : i ≤ l.length) :
    l.insertIdx i x = l.take i ++ x :: l.drop i := by
  induction l generalizing i with
  | nil =>
      obtain rfl : i = 0 := by simpa using h
      rfl
  | cons a l ih =>
      cases i with
      | zero => rfl
      | succ i => simp [@ih i (by simpa using h)]

/-- Reading at the position. -/
theorem getD_append {xs ys : List α} {a d : α} {i : Nat} (h : xs.length = i) :
    (xs ++ a :: ys).getD i d = a := by
  subst h
  simp

/-- Overwriting there. -/
theorem set_append {xs ys : List α} {a b : α} {i : Nat} (h : xs.length = i) :
    (xs ++ a :: ys).set i b = xs ++ b :: ys := by
  subst h
  simp

/-- Two neighbours overwritten one after the other. -/
theorem set_set_append {xs ys : List α} {a b c d : α} {i : Nat} (h : xs.length = i) :
    ((xs ++ a :: b :: ys).set i c).set (i + 1) d = xs ++ c :: d :: ys := by
  subst h
  simp

/-- Erasing there. -/
theorem eraseIdx_append {xs ys : List α} {a : α} {i : Nat} (h : xs.length = i) :
    (xs ++ a :: ys).eraseIdx i = xs ++ ys := by
  subst h
  simp [List.eraseIdx_append_of_length_le]

/-- A list around one of its elements. -/
theorem eq_append_of_lt {l : List α} {i : Nat} (h : i < l.length) :
    ∃ xs a ys, l = xs ++ a :: ys ∧ xs.length = i :=
  ⟨l.take i, l[i], l.drop (i + 1), by rw [← List.drop_eq_getElem_cons h, List.take_append_drop],
    by rw [List.length_take]; omega⟩

/-- The first `a` stands behind what holds none. -/
theorem idxOf?_append_cons [DecidableEq α] {xs ys : List α} {a : α} (h : a ∉ xs) :
    (xs ++ a :: ys).idxOf? a = some xs.length := by
  induction xs with
  | nil => simp [List.idxOf?_cons]
  | cons b xs ih =>
      rw [List.mem_cons, not_or] at h
      simp [List.idxOf?_cons, ih h.2, Ne.symm h.1]

end ListEdit
