import Mathlib

/-!
# AstraKV.Lib.Weave

Weaving a list of blocks with a list of separators: the in-order reading
of a search-tree node whose children are the blocks and whose keys are the
separators.

```
weave [c₀, c₁, c₂] [k₀, k₁] = c₀ ++ k₀ :: c₁ ++ k₁ :: c₂
```

A node without children is the degenerate case `weave [] ks = ks`, so leaf
and inner nodes share every law below.  Two facts carry all the proofs:

* `weave_join` — two weaves put side by side with a separator between them
  are one weave of the appended lists;
* `weave_focus` — a weave read around one of its blocks.
-/

universe u v

namespace Weave

variable {α : Type u} {β : Type v}

/-! ## the weave -/

/-- Each separator followed by its block.  Separators without a block are
kept as they are. -/
def tailWeave : List α → List (List α) → List α
  | [], cs => cs.flatten
  | k :: ks, [] => k :: tailWeave ks []
  | k :: ks, c :: cs => k :: c ++ tailWeave ks cs

/-- Each block followed by its separator. -/
def headWeave : List (List α) → List α → List α
  | c :: cs, k :: ks => c ++ k :: headWeave cs ks
  | _, _ => []

/-- The blocks `cs` separated by the keys `ks`. -/
def weave : List (List α) → List α → List α
  | [], ks => ks
  | c :: cs, ks => c ++ tailWeave ks cs

/-- `leaf` nodes have no children, inner nodes one more than they have keys. -/
def Fits (leaf : Bool) (cs : List β) (ks : List α) : Prop :=
  cs.length = if leaf then 0 else ks.length + 1

@[simp] theorem weave_nil (ks : List α) : weave [] ks = ks := rfl

@[simp] theorem weave_cons (c : List α) (cs : List (List α)) (ks : List α) :
    weave (c :: cs) ks = c ++ tailWeave ks cs := rfl

@[simp] theorem tailWeave_nil (ks : List α) : tailWeave ks [] = ks := by
  induction ks with
  | nil => rfl
  | cons k ks ih => rw [tailWeave, ih]

@[simp] theorem tailWeave_cons (k : α) (ks : List α) (c : List α) (cs : List (List α)) :
    tailWeave (k :: ks) (c :: cs) = k :: c ++ tailWeave ks cs := rfl

@[simp] theorem headWeave_nil : headWeave ([] : List (List α)) [] = [] := rfl

@[simp] theorem headWeave_cons (c : List α) (cs : List (List α)) (k : α) (ks : List α) :
    headWeave (c :: cs) (k :: ks) = c ++ k :: headWeave cs ks := rfl

/-- A separator comes first, whatever it is. -/
theorem tailWeave_head (k : α) (ks : List α) (cs : List (List α)) :
    tailWeave (k :: ks) cs = k :: (cs.headD [] ++ tailWeave ks cs.tail) := by
  cases cs with
  | nil => rfl
  | cons c cs => rfl

/-! ## lengths -/

/-- The length of a weave that begins with a separator. -/
theorem length_tailWeave (ks : List α) (cs : List (List α)) :
    (tailWeave ks cs).length = ks.length + (cs.map List.length).sum := by
  induction ks generalizing cs with
  | nil => simp [tailWeave]
  | cons k ks ih =>
      cases cs with
      | nil => simp
      | cons c cs => simp [ih]; omega

/-- A weave has all separators and all blocks. -/
theorem length_weave (cs : List (List α)) (ks : List α) :
    (weave cs ks).length = ks.length + (cs.map List.length).sum := by
  cases cs with
  | nil => simp
  | cons c cs => simp [length_tailWeave]; omega

/-! ## joining -/

/-- A tail weave of two parts. -/
theorem tailWeave_append (k₁ k₂ : List α) (c₁ c₂ : List (List α)) (h : c₁.length = k₁.length) :
    tailWeave (k₁ ++ k₂) (c₁ ++ c₂) = tailWeave k₁ c₁ ++ tailWeave k₂ c₂ := by
  induction k₁ generalizing c₁ with
  | nil =>
      have hc : c₁ = [] := List.length_eq_zero_iff.mp (by simpa using h)
      subst hc
      simp [tailWeave]
  | cons k k₁ ih =>
      cases c₁ with
      | nil => simp at h
      | cons c c₁ => simp [ih c₁ (by simpa using h)]

/-- Two weaves side by side, with a separator between them, are one weave. -/
theorem weave_join {leaf : Bool} {c₁ c₂ : List (List α)} {k₁ k₂ : List α}
    (h₁ : Fits leaf c₁ k₁) (h₂ : Fits leaf c₂ k₂) (s : α) :
    weave (c₁ ++ c₂) (k₁ ++ s :: k₂) = weave c₁ k₁ ++ s :: weave c₂ k₂ := by
  cases leaf with
  | true =>
      simp only [Fits, if_true, List.length_eq_zero_iff] at h₁ h₂
      subst h₁ h₂
      simp
  | false =>
      simp only [Fits, Bool.false_eq_true, if_false] at h₁ h₂
      cases c₁ with
      | nil => simp at h₁
      | cons a c₁ =>
          cases c₂ with
          | nil => simp at h₂
          | cons b c₂ =>
              have hl : c₁.length = k₁.length := by simpa using h₁
              simp [tailWeave_append _ _ _ _ hl]

/-- A head weave of two parts. -/
theorem headWeave_append (k₁ k₂ : List α) (c₁ c₂ : List (List α)) (h : c₁.length = k₁.length) :
    headWeave (c₁ ++ c₂) (k₁ ++ k₂) = headWeave c₁ k₁ ++ headWeave c₂ k₂ := by
  induction k₁ generalizing c₁ with
  | nil =>
      have hc : c₁ = [] := List.length_eq_zero_iff.mp (by simpa using h)
      subst hc
      rfl
  | cons k k₁ ih =>
      cases c₁ with
      | nil => simp at h
      | cons c c₁ => simp [ih c₁ (by simpa using h)]

/-- The separators stand in order in their weave. -/
theorem sublist_tailWeave (ks : List α) (cs : List (List α)) : ks.Sublist (tailWeave ks cs) := by
  induction ks generalizing cs with
  | nil => exact List.nil_sublist _
  | cons k ks ih =>
      cases cs with
      | nil => simp
      | cons c cs =>
          rw [tailWeave_cons]
          exact ((ih cs).trans (List.sublist_append_right c _)).cons_cons k

/-- The separators occur in a weave in their order. -/
theorem sublist_weave (cs : List (List α)) (ks : List α) : ks.Sublist (weave cs ks) := by
  cases cs with
  | nil => exact List.Sublist.refl ks
  | cons c cs => exact (sublist_tailWeave ks cs).trans (List.sublist_append_right c _)

/-! ## cutting -/

/-- The weave up to and including block `i`. -/
def weaveTo (i : Nat) (cs : List (List α)) (ks : List α) : List α :=
  weave (cs.take (i + 1)) (ks.take i)

/-- The part of the weave after block `i`. -/
def weaveFrom (i : Nat) (cs : List (List α)) (ks : List α) : List α :=
  tailWeave (ks.drop i) (cs.drop (i + 1))

/-- A weave cut at a separator and put together again. -/
theorem weaveTo_append_weaveFrom {leaf : Bool} {cs : List (List α)} {ks : List α}
    (h : Fits leaf cs ks) {i : Nat} (hi : i ≤ ks.length) :
    weaveTo i cs ks ++ weaveFrom i cs ks = weave cs ks := by
  cases leaf with
  | true =>
      simp only [Fits, if_true, List.length_eq_zero_iff] at h
      subst h
      simp [weaveTo, weaveFrom]
  | false =>
      simp only [Fits, Bool.false_eq_true, if_false] at h
      cases cs with
      | nil => simp at h
      | cons c cs =>
          have hl : (cs.take i).length = (ks.take i).length := by
            simp only [List.length_cons] at h
            simp only [List.length_take]
            omega
          simp only [weaveTo, weaveFrom, List.take_succ_cons, List.drop_succ_cons, weave_cons,
            List.append_assoc]
          rw [← tailWeave_append _ _ _ _ hl, List.take_append_drop, List.take_append_drop]

/-- Before the separator of a join only the left weave counts. -/
theorem weaveTo_join_left {leaf : Bool} {c₁ c₂ : List (List α)} {k₁ k₂ : List α}
    (h₁ : Fits leaf c₁ k₁) (h₂ : Fits leaf c₂ k₂) (s : α) {i : Nat} (hi : i ≤ k₁.length) :
    weaveTo i (c₁ ++ c₂) (k₁ ++ s :: k₂) = weaveTo i c₁ k₁ := by
  have hk : (k₁ ++ s :: k₂).take i = k₁.take i := by
    rw [List.take_append_of_le_length hi]
  have hc : (c₁ ++ c₂).take (i + 1) = c₁.take (i + 1) := by
    cases leaf with
    | true =>
        simp only [Fits, if_true, List.length_eq_zero_iff] at h₁ h₂
        rw [h₁, h₂]
        rfl
    | false =>
        simp only [Fits, Bool.false_eq_true, if_false] at h₁
        rw [List.take_append_of_le_length (by omega)]
  rw [weaveTo, hk, hc, weaveTo]

/-- After the separator of a join the whole left weave comes first. -/
theorem weaveTo_join_right {leaf : Bool} {c₁ c₂ : List (List α)} {k₁ k₂ : List α}
    (h₁ : Fits leaf c₁ k₁) (h₂ : Fits leaf c₂ k₂) (s : α) (j : Nat) :
    weaveTo (k₁.length + 1 + j) (c₁ ++ c₂) (k₁ ++ s :: k₂) =
      weave c₁ k₁ ++ s :: weaveTo j c₂ k₂ := by
  have hk : (k₁ ++ s :: k₂).take (k₁.length + 1 + j) = k₁ ++ s :: k₂.take j := by
    rw [List.take_append, List.take_of_length_le (by omega),
      show k₁.length + 1 + j - k₁.length = j + 1 by omega, List.take_succ_cons]
  have hc : (c₁ ++ c₂).take (k₁.length + 1 + j + 1) = c₁ ++ c₂.take (j + 1) := by
    cases leaf with
    | true =>
        simp only [Fits, if_true, List.length_eq_zero_iff] at h₁ h₂
        rw [h₁, h₂]
        simp
    | false =>
        simp only [Fits, Bool.false_eq_true, if_false] at h₁
        rw [List.take_append, List.take_of_length_le (by omega), h₁,
          show k₁.length + 1 + j + 1 - (k₁.length + 1) = j + 1 by omega]
  have h₂' : Fits leaf (c₂.take (j + 1)) (k₂.take j) := by
    cases leaf with
    | true => simp_all [Fits]
    | false =>
        simp only [Fits, Bool.false_eq_true, if_false, List.length_take] at h₂ ⊢
        omega
  rw [weaveTo, hk, hc, weave_join h₁ h₂', weaveTo]

/-- Cutting a node at key `i`: the keys and children on either side of it. -/
theorem Fits.cut {leaf : Bool} {cs : List β} {ks : List α} (h : Fits leaf cs ks) {i : Nat}
    (hi : i < ks.length) :
    ∃ k₁ m k₂ c₁ c₂, ks = k₁ ++ m :: k₂ ∧ cs = c₁ ++ c₂ ∧ k₁.length = i ∧
      Fits leaf c₁ k₁ ∧ Fits leaf c₂ k₂ := by
  refine ⟨ks.take i, ks[i], ks.drop (i + 1), cs.take (i + 1), cs.drop (i + 1), ?_, ?_, ?_, ?_, ?_⟩
  · rw [← List.drop_eq_getElem_cons hi, List.take_append_drop]
  · rw [List.take_append_drop]
  · rw [List.length_take]
    omega
  · cases leaf with
    | true => simp_all [Fits]
    | false =>
        simp only [Fits, Bool.false_eq_true, if_false, List.length_take] at h ⊢
        omega
  · cases leaf with
    | true => simp_all [Fits]
    | false =>
        simp only [Fits, Bool.false_eq_true, if_false, List.length_drop] at h ⊢
        omega

/-- Blocks that fit fit when they are mapped. -/
theorem Fits.map {γ : Type*} {leaf : Bool} {cs : List β} {ks : List α} (h : Fits leaf cs ks)
    (f : β → γ) : Fits leaf (cs.map f) ks := by
  rw [Fits, List.length_map, h]

/-- Two weaves that fit fit with a separator between them. -/
theorem Fits.join {leaf : Bool} {c₁ c₂ : List β} {k₁ k₂ : List α}
    (h₁ : Fits leaf c₁ k₁) (h₂ : Fits leaf c₂ k₂) (s : α) :
    Fits leaf (c₁ ++ c₂) (k₁ ++ s :: k₂) := by
  cases leaf with
  | true => simp_all [Fits]
  | false =>
      simp only [Fits, Bool.false_eq_true, if_false, List.length_append, List.length_cons]
        at h₁ h₂ ⊢
      omega

/-! ## focusing -/

/-- A weave read around the block `c`: what is before it, the block, and
what is after it. -/
theorem weave_focus (c : List α) {cs₁ cs₂ : List (List α)} {k₁ k₂ : List α}
    (h : cs₁.length = k₁.length) :
    weave (cs₁ ++ c :: cs₂) (k₁ ++ k₂) = headWeave cs₁ k₁ ++ c ++ tailWeave k₂ cs₂ := by
  induction k₁ generalizing cs₁ with
  | nil =>
      have hc : cs₁ = [] := List.length_eq_zero_iff.mp (by simpa using h)
      subst hc
      simp
  | cons k k₁ ih =>
      cases cs₁ with
      | nil => simp at h
      | cons a cs₁ =>
          have ih' := @ih cs₁ (by simpa using h)
          cases cs₁ with
          | nil =>
              have hk : k₁ = [] := List.length_eq_zero_iff.mp (by simpa using h.symm)
              subst hk
              simp
          | cons b cs₁ =>
              simp only [List.cons_append, weave_cons, tailWeave_cons, headWeave_cons,
                List.append_assoc] at ih' ⊢
              rw [ih']

end Weave
