import AstraKV.BPTree.Delete
import AstraKV.BPTree.Iterate
import AstraKV.Lib.Machine

/-!
# AstraKV.BPTree.Run

Runs of `Insert` and `Delete` from the empty tree, over keys with a linear
order, against the finite set they stand for.

`Represents t s` is the relation between a tree and a set: the tree holds some
sorted list whose elements are those of `s`. A step of the tree is a step of
the set with the same answer, so whole runs agree by the rule for simulations
of `AstraKV.Lib.Machine`. The tree's counter has 32 bits and the set has none,
which is why sizes are compared modulo 2^32; `fillTo` runs one counter full.
-/

universe u

namespace AstraKV

open Weave Cut BPTreeNode BPTreePath

inductive BPTreeOp (α : Type u) where
  | insert (item : α)
  | delete (item : α)

namespace BPTree

variable {α : Type u} [LinearOrder α] [Inhabited α]

/-- One call on the tree: its answer and the tree after it. -/
def step (t : BPTree α) : BPTreeOp α → Bool × BPTree α
  | .insert k => t.insert k
  | .delete k => t.delete k

omit [Inhabited α] in
/-- The same call on a set: adding says whether the key was new, removing whether it was there. -/
def setStep (s : Finset α) : BPTreeOp α → Bool × Finset α
  | .insert k => (decide (k ∉ s), Insert.insert k s)
  | .delete k => (decide (k ∈ s), s.erase k)

/-- The tree after a run from the empty tree. -/
def reach (ops : List (BPTreeOp α)) : BPTree α := Machine.final step empty ops

omit [Inhabited α] in
/-- The set after the same run. -/
def members (ops : List (BPTreeOp α)) : Finset α := Machine.final setStep ∅ ops

/-! ## the refinement -/

/-- The tree stores the members of `s` in increasing order. -/
structure Represents (t : BPTree α) (s : Finset α) : Prop where
  holds : Holds t t.inOrder
  sorted : t.inOrder.Pairwise (· < ·)
  mem : ∀ k, k ∈ t.inOrder ↔ k ∈ s

omit [Inhabited α] in
/-- A tree with a sorted list represents the set of its elements. -/
theorem Represents.of_holds {t : BPTree α} {L : List α} {s : Finset α} (hT : Holds t L)
    (hsorted : L.Pairwise (· < ·)) (hmem : ∀ k, k ∈ L ↔ k ∈ s) : Represents t s := by
  have hL := hT.inOrder_eq
  exact ⟨by rw [hL]; exact hT, by rw [hL]; exact hsorted, by rw [hL]; exact hmem⟩

omit [Inhabited α] in
/-- The empty tree represents the empty set. -/
theorem represents_empty : Represents (empty : BPTree α) ∅ :=
  .of_holds holds_empty List.Pairwise.nil (by simp)

omit [Inhabited α] in
/-- Every query cuts the list of such a tree in two. -/
theorem Represents.cuts {t : BPTree α} {s : Finset α} (h : Represents t s) (q : α) :
    Cuts q t.inOrder := cuts_of_pairwise h.sorted q

omit [Inhabited α] in
/-- The set has as many members as the list. -/
theorem Represents.card {t : BPTree α} {s : Finset α} (h : Represents t s) :
    s.card = t.inOrder.length := by
  have hnodup : t.inOrder.Nodup := h.sorted.imp fun hlt => ne_of_lt hlt
  have hset : t.inOrder.toFinset = s := by
    ext k
    rw [List.mem_toFinset]
    exact h.mem k
  rw [← hset, List.toFinset_card_of_nodup hnodup]

omit [Inhabited α] in
/-- Keys that compare equal are equal, the order being linear. -/
theorem eq_of_equiv {a b : α} (h : ¬ a < b ∧ ¬ b < a) : a = b :=
  le_antisymm (le_of_not_gt h.2) (le_of_not_gt h.1)

/-- `Insert` answers and changes the tree as inserting into the set does. -/
theorem insert_simulates {t : BPTree α} {s : Finset α} (h : Represents t s) (k : α) :
    (t.insert k).1 = decide (k ∉ s) ∧ Represents (t.insert k).2 (Insert.insert k s) := by
  have hspec := insert_spec h.holds (h.cuts k)
  have hmem := h.mem
  generalize t.insert k = res at hspec
  cases hspec with
  | @skipped L₁ L₂ k' list equiv =>
      obtain rfl := eq_of_equiv equiv
      have hk : k ∈ s := by
        rw [← hmem, list]
        simp
      refine ⟨by simp [hk], ?_⟩
      rw [Finset.insert_eq_of_mem hk]
      exact h
  | @added L₁ L₂ t' list below above holds =>
      have hk : k ∉ s := by
        rw [← hmem, list, List.mem_append]
        intro hin
        cases hin with
        | inl hin => exact lt_irrefl k (below k hin)
        | inr hin => exact lt_irrefl k (above k hin)
      refine ⟨by simp [hk], .of_holds holds ?_ fun x => ?_⟩
      · have hsorted := h.sorted
        rw [list] at hsorted
        exact pairwise_insert hsorted below above
      · have hx := hmem x
        rw [list] at hx
        simp only [List.mem_append, List.mem_cons, Finset.mem_insert] at hx ⊢
        grind

/-- `Delete` answers and changes the tree as erasing from the set does. -/
theorem delete_simulates {t : BPTree α} {s : Finset α} (h : Represents t s) (k : α) :
    (t.delete k).1 = decide (k ∈ s) ∧ Represents (t.delete k).2 (s.erase k) := by
  have hspec := delete_spec h.holds (h.cuts k)
  have hmem := h.mem
  generalize t.delete k = res at hspec
  cases hspec with
  | @missing L₁ L₂ list below above =>
      have hk : k ∉ s := by
        rw [← hmem, list, List.mem_append]
        intro hin
        cases hin with
        | inl hin => exact lt_irrefl k (below k hin)
        | inr hin => exact lt_irrefl k (above k hin)
      refine ⟨by simp [hk], ?_⟩
      rw [Finset.erase_eq_of_notMem hk]
      exact h
  | @removed L₁ L₂ k' t' list equiv holds =>
      obtain rfl := eq_of_equiv equiv
      have hsorted := h.sorted
      rw [list] at hsorted
      have hk : k ∈ s := by
        rw [← hmem, list]
        simp
      refine ⟨by simp [hk], .of_holds holds ?_ fun x => ?_⟩
      · exact hsorted.sublist ((List.sublist_cons_self k L₂).append_left L₁)
      · -- `k` itself is gone because the list had it once
        have hx := hmem x
        rw [list] at hx
        have hleft := (List.pairwise_append.mp hsorted).2.2
        have hright := (List.pairwise_cons.mp (List.pairwise_append.mp hsorted).2.1).1
        simp only [List.mem_append, List.mem_cons, Finset.mem_erase] at hx ⊢
        constructor
        · intro hin
          refine ⟨?_, hx.mp (by tauto)⟩
          rintro rfl
          cases hin with
          | inl hin => exact lt_irrefl x (hleft x hin x List.mem_cons_self)
          | inr hin => exact lt_irrefl x (hright x hin)
        · intro hin
          have hor := hx.mpr hin.2
          tauto

/-- A step of the tree simulates a step of the set. -/
theorem step_simulates :
    Machine.Simulates (fun _ => True) Represents (step : BPTree α → _ → _) setStep where
  output := fun t s op _ h => by
    cases op with
    | insert k => exact (insert_simulates h k).1
    | delete k => exact (delete_simulates h k).1
  next := fun t s op _ h => by
    cases op with
    | insert k => exact (insert_simulates h k).2
    | delete k => exact (delete_simulates h k).2

/-- After any run the tree represents the set that the same run leaves. -/
theorem reach_represents (ops : List (BPTreeOp α)) : Represents (reach ops) (members ops) :=
  (step_simulates.run represents_empty fun _ _ => trivial).2

omit [Inhabited α] in
/-- `Size` is the number of members, modulo 2^32. -/
theorem Represents.size {t : BPTree α} {s : Finset α} (h : Represents t s) :
    t.size.toNat = s.card % 2 ^ 32 := by
  unfold BPTree.size
  rw [h.holds.count, h.card]
  exact UInt32.toNat_ofNat'

omit [Inhabited α] in
/-- While a tree has fewer than `2 ^ 32` keys, `Size()` is their number. -/
theorem Represents.size_eq {t : BPTree α} {s : Finset α} (h : Represents t s)
    (hsmall : s.card < 2 ^ 32) : t.size.toNat = s.card := by
  rw [h.size, Nat.mod_eq_of_lt hsmall]

/-- `Contains` decides membership in a tree that has a root. -/
theorem Represents.contains {t : BPTree α} {s : Finset α} (h : Represents t s)
    (hne : s.Nonempty) (k : α) : t.contains k = some (decide (k ∈ s)) := by
  have hne' : t.inOrder ≠ [] := by
    obtain ⟨x, hx⟩ := hne
    exact List.ne_nil_of_mem ((h.mem x).mpr hx)
  obtain ⟨x, hx, hequiv, hanswer⟩ | ⟨habsent, hanswer⟩ := contains_spec h.holds (h.cuts k) hne'
  · obtain rfl := eq_of_equiv hequiv
    rw [hanswer, decide_eq_true ((h.mem k).mp hx)]
  · have hk : k ∉ s := by
      intro hk
      have hor := habsent k ((h.mem k).mpr hk)
      rw [or_self] at hor
      exact lt_irrefl k hor
    rw [hanswer, decide_eq_false hk]

/-- The tree refines a finite set over every run of insertions and deletions; its size is kept
modulo `2 ^ 32`. -/
theorem reach_refines_set (ops : List (BPTreeOp α)) :
    (Machine.run step (empty : BPTree α) ops).1 = (Machine.run setStep (∅ : Finset α) ops).1 ∧
    ((members ops).Nonempty → ∀ k, (reach ops).contains k = some (decide (k ∈ members ops))) ∧
    (reach ops).size.toNat = (members ops).card % 2 ^ 32 ∧
    (reach ops).inOrder.Pairwise (· < ·) ∧
    ∀ k, k ∈ (reach ops).inOrder ↔ k ∈ members ops := by
  have hrep := reach_represents ops
  exact ⟨(step_simulates.run represents_empty fun _ _ => trivial).1, hrep.contains, hrep.size,
    hrep.sorted, hrep.mem⟩

/-! ## a full counter -/

/-- Insert 0, 1, …, `n - 1`. -/
def fillTo (n : Nat) : List (BPTreeOp Nat) := (List.range n).map .insert

/-- Filling up to `n` gives the numbers below `n`. -/
theorem members_fillTo (n : Nat) : members (fillTo n) = Finset.range n := by
  induction n with
  | zero => rfl
  | succ n ih =>
      unfold members fillTo at ih ⊢
      rw [List.range_succ, List.map_append, Machine.final_append, ih, Finset.range_add_one]
      rfl

/-- The `2 ^ 32`-nd key makes the 32-bit counter wrap around. -/
theorem size_wraps :
    (members (fillTo (2 ^ 32))).card = 2 ^ 32 ∧ (reach (fillTo (2 ^ 32))).size.toNat = 0 := by
  have hcard : (members (fillTo (2 ^ 32))).card = 2 ^ 32 := by
    rw [members_fillTo, Finset.card_range]
  refine ⟨hcard, ?_⟩
  have hsize := (reach_represents (fillTo (2 ^ 32))).size
  rw [hcard] at hsize
  exact hsize.trans (Nat.mod_self _)

end BPTree

end AstraKV
