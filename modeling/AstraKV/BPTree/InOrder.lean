import AstraKV.BPTree.Tree
import AstraKV.Lib.Weave

/-!
# AstraKV.BPTree.InOrder

The in-order reading of a subtree, and the node invariant.

`toList` is what a tree means: every operation below is described by what
it does to that list.  `NodeOK` is what holds of one node: its children fit
its keys, it is within capacity, and its cached count is right up to a
*defect* `e`.  The defect is what makes insertion provable: between the
split of a child and the correction of its parent the parent's count is
off by the keys that were split away, and every step in between keeps
track of exactly that amount.

The lemmas below the definitions are the equations the later modules rewrite
with, so none of them unfolds a node again: `toList` weaves the children's
readings with the keys, `itemsTo` and `itemsFrom` cut that reading at a key,
`totalSize` adds up the readings of some children, and `nodes` counts blocks.
The invariant is graded by height, which fixes at once whether a node is a
leaf and how many keys it may hold.
-/

universe u

namespace AstraKV

open Weave

namespace BPTreeNode

variable {α : Type u}

/-! ## children -/

/-- The child an index gives is the child of that index. -/
theorem child_eq {n c : BPTreeNode α} {i : Nat} (h : n.children[i]? = some c) : n.child i = c := by
  simp [child, h]

/-- Setting a child does not change how many there are. -/
@[simp] theorem length_setChild (n c : BPTreeNode α) (i : Nat) :
    (n.setChild i c).children.length = n.children.length := List.length_set

/-- The child that was set is read back. -/
theorem child_setChild_self {n : BPTreeNode α} {i : Nat} (hi : i < n.children.length)
    (c : BPTreeNode α) : (n.setChild i c).child i = c := by
  refine child_eq ?_
  unfold setChild
  exact List.getElem?_set_self hi

/-- The other children are as they were. -/
theorem child_setChild_ne (n c : BPTreeNode α) {i j : Nat} (h : i ≠ j) :
    (n.setChild i c).child j = n.child j := by
  simp only [child, setChild]
  rw [List.getD_eq_getElem?_getD, List.getElem?_set_ne h, List.getD_eq_getElem?_getD]

/-- Of two settings at one index the later counts. -/
@[simp] theorem setChild_setChild (n c d : BPTreeNode α) (i : Nat) :
    (n.setChild i c).setChild i d = n.setChild i d := by
  simp [setChild]

/-- Settings at two indices commute. -/
theorem setChild_comm (n c d : BPTreeNode α) {i j : Nat} (h : i ≠ j) :
    (n.setChild i c).setChild j d = (n.setChild j d).setChild i c := by
  simp only [setChild]
  rw [List.set_comm _ _ h]

/-- Setting a child to itself changes nothing. -/
theorem setChild_self {n c : BPTreeNode α} {i : Nat} (hc : n.children[i]? = some c) :
    n.setChild i c = n := by
  obtain ⟨leaf, ks, cs, cnt⟩ := n
  obtain ⟨hi, hci⟩ := List.getElem?_eq_some_iff.mp hc
  rw [setChild, ← hci, List.set_getElem_self]

/-- Setting a child to the one read by its index changes nothing. -/
theorem setChild_child {n : BPTreeNode α} {i : Nat} (hi : i < n.children.length) :
    n.setChild i (n.child i) = n := by
  have hc : n.children[i]? = some n.children[i] := List.getElem?_eq_getElem hi
  rw [child_eq hc]
  exact setChild_self hc

/-! ## the in-order reading -/

mutual
/-- Keys of a subtree in order. -/
def toList : BPTreeNode α → List α
  | ⟨_, ks, cs, _⟩ => weave (toLists cs) ks

def toLists : List (BPTreeNode α) → List (List α)
  | [] => []
  | c :: cs => toList c :: toLists cs
end

/-- The readings of some children, one by one. -/
theorem toLists_eq_map (cs : List (BPTreeNode α)) : toLists cs = cs.map toList := by
  induction cs with
  | nil => rfl
  | cons c cs ih => rw [toLists, ih, List.map_cons]

/-- A node reads as its children woven with its keys. -/
theorem toList_eq (n : BPTreeNode α) : n.toList = weave (n.children.map toList) n.keys := by
  obtain ⟨leaf, ks, cs, cnt⟩ := n
  rw [toList, toLists_eq_map]

/-- The keys before position `i`: key `i - 1` and everything left of it, and
in an inner node child `i`. -/
def itemsTo (n : BPTreeNode α) (i : Nat) : List α := weaveTo i (n.children.map toList) n.keys

/-- Key `i` and everything right of it. -/
def itemsFrom (n : BPTreeNode α) (i : Nat) : List α := weaveFrom i (n.children.map toList) n.keys

/-- From key `i` on the reading begins with that key. -/
theorem itemsFrom_eq_cons (n : BPTreeNode α) {i : Nat} (hi : i < n.keys.length) :
    ∃ tail, n.itemsFrom i = n.keys[i] :: tail := by
  unfold itemsFrom weaveFrom
  rw [List.drop_eq_getElem_cons hi, tailWeave_head]
  exact ⟨_, rfl⟩

/-- Overwriting key `i` leaves what lies before it. -/
@[simp] theorem setKey_itemsTo (n : BPTreeNode α) (i : Nat) (k : α) :
    (n.setKey i k).itemsTo i = n.itemsTo i := by
  simp [itemsTo, weaveTo, setKey, List.take_set_of_le]

/-- Overwriting key `i` overwrites the first item from there on. -/
theorem setKey_itemsFrom {n : BPTreeNode α} {i : Nat} (hi : i < n.keys.length) {tail : List α}
    (htail : n.itemsFrom i = n.keys[i] :: tail) (k : α) :
    (n.setKey i k).itemsFrom i = k :: tail := by
  unfold itemsFrom weaveFrom at htail ⊢
  rw [List.drop_eq_getElem_cons hi, tailWeave_head] at htail
  have hset : (n.setKey i k).keys.drop i = k :: n.keys.drop (i + 1) := by
    unfold setKey
    rw [List.drop_eq_getElem_cons (by simpa using hi)]
    simp [List.drop_set_of_lt]
  rw [hset, tailWeave_head]
  exact congrArg (k :: ·) (List.cons.inj htail).2

/-- Keys of a list of subtrees. -/
def totalSize (cs : List (BPTreeNode α)) : Nat := (cs.map fun c => c.toList.length).sum

@[simp] theorem totalSize_nil : totalSize ([] : List (BPTreeNode α)) = 0 := rfl

@[simp] theorem totalSize_cons (c : BPTreeNode α) (cs : List (BPTreeNode α)) :
    totalSize (c :: cs) = c.toList.length + totalSize cs := by
  simp [totalSize]

/-- The sizes of two runs of children add up. -/
@[simp] theorem totalSize_append (cs ds : List (BPTreeNode α)) :
    totalSize (cs ++ ds) = totalSize cs + totalSize ds := by
  simp [totalSize]

/-- A node holds its own keys and those of its children. -/
theorem length_toList (n : BPTreeNode α) :
    n.toList.length = n.keys.length + totalSize n.children := by
  rw [toList_eq, length_weave, List.map_map]
  rfl

/-! ## the nodes of a subtree -/

mutual
/-- All nodes of a subtree, its root first. -/
def subtrees : BPTreeNode α → List (BPTreeNode α)
  | ⟨leaf, ks, cs, cnt⟩ => ⟨leaf, ks, cs, cnt⟩ :: subtreesOf cs

def subtreesOf : List (BPTreeNode α) → List (BPTreeNode α)
  | [] => []
  | c :: cs => subtrees c ++ subtreesOf cs
end

/-- The nodes of a subtree are its root and those below. -/
theorem subtrees_eq (n : BPTreeNode α) : n.subtrees = n :: subtreesOf n.children := by
  obtain ⟨leaf, ks, cs, cnt⟩ := n
  rw [subtrees]

/-- A node below some children lies below one of them. -/
theorem mem_subtreesOf {cs : List (BPTreeNode α)} {n : BPTreeNode α} :
    n ∈ subtreesOf cs ↔ ∃ c ∈ cs, n ∈ c.subtrees := by
  induction cs with
  | nil => simp [subtreesOf]
  | cons c cs ih => simp [subtreesOf, ih]

/-- The number of nodes. -/
def nodes (n : BPTreeNode α) : Nat := n.subtrees.length

def nodesOf (cs : List (BPTreeNode α)) : Nat := (subtreesOf cs).length

/-- A subtree has one node more than its children together. -/
theorem nodes_eq (n : BPTreeNode α) : n.nodes = nodesOf n.children + 1 := by
  rw [nodes, subtrees_eq, List.length_cons, nodesOf]

@[simp] theorem nodesOf_nil : nodesOf ([] : List (BPTreeNode α)) = 0 := rfl

@[simp] theorem nodesOf_cons (c : BPTreeNode α) (cs : List (BPTreeNode α)) :
    nodesOf (c :: cs) = c.nodes + nodesOf cs := by
  rw [nodesOf, subtreesOf, List.length_append, nodes, nodesOf]

/-- The blocks of two runs of children add up. -/
@[simp] theorem nodesOf_append (cs ds : List (BPTreeNode α)) :
    nodesOf (cs ++ ds) = nodesOf cs + nodesOf ds := by
  induction cs with
  | nil => simp
  | cons c cs ih => simp [ih, Nat.add_assoc]

/-! ## the node invariant -/

/-- Least number of keys a node other than the root ever holds.  A leaf is
split 7 | 1 | 7, an inner node 5 | 1 | 4. -/
def minFill (n : BPTreeNode α) : Nat := if n.isLeaf then kMinLeafKeys else kMinInnerKeys - 1

/-- Capacity of the nodes at height `h`. -/
def cap (h : Nat) : Nat := if h == 0 then kMaxLeafKeys else kMaxInnerKeys

/-- Least number of keys of the nodes at height `h`. -/
def fill (h : Nat) : Nat := if h == 0 then kMinLeafKeys else kMinInnerKeys - 1

/-- Every inner node is filled alike. -/
theorem fill_succ (h : Nat) : fill (h + 1) = 4 := rfl

/-- What `MinItems()` says at height `h`: one more than an inner node is sure to hold. -/
def low (h : Nat) : Nat := if h == 0 then kMinLeafKeys else kMinInnerKeys

/-- The bounds of a leaf and those of an inner node. -/
theorem low_bounds (h : Nat) :
    cap h = 15 ∧ fill h = 7 ∧ low h = 7 ∨ cap h = 10 ∧ fill h = 4 ∧ low h = 5 := by
  cases h with
  | zero => exact Or.inl ⟨rfl, rfl, rfl⟩
  | succ h => exact Or.inr ⟨rfl, rfl, rfl⟩

/-- The largest and smallest fill, of a leaf or an inner node. -/
theorem cap_fill (h : Nat) : cap h = 15 ∧ fill h = 7 ∨ cap h = 10 ∧ fill h = 4 := by
  cases h with
  | zero => exact Or.inl ⟨rfl, rfl⟩
  | succ h => exact Or.inr ⟨rfl, rfl⟩

/-- A node whose children all satisfy `P` and whose cached count is `e` too large. -/
structure NodeOK (P : BPTreeNode α → Prop) (leaf : Bool) (e : UInt32) (n : BPTreeNode α) :
    Prop where
  isLeaf : n.isLeaf = leaf
  fits : Fits leaf n.children n.keys
  le_max : n.numItems ≤ n.maxItems
  count : n.treeCount = UInt32.ofNat n.toList.length + e
  child : ∀ c ∈ n.children, P c

/-- The invariant of a subtree whose leaves lie `h` levels below its root. -/
def Sound : Nat → BPTreeNode α → Prop
  | 0 => NodeOK (fun _ => False) true 0
  | h + 1 => NodeOK (fun c => Sound h c ∧ c.minFill ≤ c.numItems) false 0

/-- The invariant of a subtree below another node. -/
def Good (h : Nat) (n : BPTreeNode α) : Prop := Sound h n ∧ n.minFill ≤ n.numItems

/-- What the children of a node at height `h` satisfy. -/
def ChildOf : Nat → BPTreeNode α → Prop
  | 0 => fun _ => False
  | h + 1 => Good h

/-- Soundness is the node invariant without a defect. -/
theorem sound_iff (h : Nat) (n : BPTreeNode α) : Sound h n ↔ NodeOK (ChildOf h) (h == 0) 0 n := by
  cases h <;> exact Iff.rfl

/-- The cached count is exact, modulo `2 ^ 32`. -/
def Counted (n : BPTreeNode α) : Prop := n.treeCount = UInt32.ofNat n.toList.length

/-- A sound node's cached count is right. -/
theorem Sound.counted {h : Nat} {n : BPTreeNode α} (hn : Sound h n) : n.Counted := by
  rw [Counted, ((sound_iff h n).mp hn).count, UInt32.add_zero]

theorem ChildOf.counted {h : Nat} {c : BPTreeNode α} (hc : ChildOf h c) : c.Counted := by
  cases h with
  | zero => exact hc.elim
  | succ h => exact hc.1.counted

/-- Cached counts that are right add up to the number of keys, modulo 2^32. -/
theorem sumTreeCounts_eq {cs : List (BPTreeNode α)} (h : ∀ c ∈ cs, c.Counted) :
    sumTreeCounts cs = UInt32.ofNat (totalSize cs) := by
  induction cs with
  | nil => rfl
  | cons c cs ih =>
      have hc := h c List.mem_cons_self
      have ih' := ih fun d hd => h d (List.mem_cons_of_mem c hd)
      rw [sumTreeCounts] at ih' ⊢
      rw [List.map_cons, List.sum_cons, ih', hc, totalSize_cons, UInt32.ofNat_add]

section NodeOK

variable {P : BPTreeNode α → Prop} {leaf : Bool} {e : UInt32} {n : BPTreeNode α}

/-- The children's readings fit the keys between them. -/
theorem NodeOK.fits_map (hn : NodeOK P leaf e n) : Fits leaf (n.children.map toList) n.keys :=
  hn.fits.map toList

/-- Cutting a reading at a key and joining it again changes nothing. -/
theorem NodeOK.itemsTo_append (hn : NodeOK P leaf e n) {i : Nat} (hi : i ≤ n.numItems) :
    n.itemsTo i ++ n.itemsFrom i = n.toList := by
  rw [toList_eq]
  exact weaveTo_append_weaveFrom hn.fits_map hi

/-- A leaf has no children. -/
theorem NodeOK.children_nil (hn : NodeOK P true e n) : n.children = [] := by
  have h := hn.fits
  simp only [Fits, if_true, List.length_eq_zero_iff] at h
  exact h

/-- An inner node has one child more than keys. -/
theorem NodeOK.length_children (hn : NodeOK P false e n) :
    n.children.length = n.keys.length + 1 := by
  have h := hn.fits
  simp only [Fits, Bool.false_eq_true, if_false] at h
  exact h

/-- A leaf's count is its number of keys. -/
theorem nodeOK_leaf {ks : List α} {cnt : UInt32} (h : ks.length ≤ kMaxLeafKeys) :
    NodeOK P true 0 ⟨true, ks, [], cnt⟩ where
  isLeaf := rfl
  fits := rfl
  le_max := h
  count := by simp [treeCount, numItems, toList_eq]
  child := by simp

/-- Height zero is the leaves. -/
theorem Sound.isLeaf {h : Nat} (hn : Sound h n) : n.isLeaf = (h == 0) :=
  ((sound_iff h n).mp hn).isLeaf

/-- The capacity the code asks for is that of the height. -/
theorem Sound.maxItems {h : Nat} (hn : Sound h n) : n.maxItems = cap h := by
  rw [BPTreeNode.maxItems, hn.isLeaf, cap]

/-- The fill the code asks for is that of the height. -/
theorem Sound.minFill {h : Nat} (hn : Sound h n) : n.minFill = fill h := by
  rw [BPTreeNode.minFill, hn.isLeaf, fill]

/-- The least number of items is that of the height. -/
theorem Sound.minItems {h : Nat} (hn : Sound h n) : n.minItems = low h := by
  rw [BPTreeNode.minItems, hn.isLeaf, low]

/-- A sound node is within its capacity. -/
theorem Sound.le_cap {h : Nat} (hn : Sound h n) : n.numItems ≤ cap h := by
  rw [← hn.maxItems]
  exact ((sound_iff h n).mp hn).le_max

/-- A good node is filled. -/
theorem Good.fill_le {h : Nat} (hn : Good h n) : fill h ≤ n.numItems := by
  rw [← hn.1.minFill]
  exact hn.2

/-- A sound node that is filled is good. -/
theorem Sound.good {h : Nat} (hn : Sound h n) (hfill : fill h ≤ n.numItems) : Good h n :=
  ⟨hn, by rwa [hn.minFill]⟩

/-- A good node has a key. -/
theorem Good.numItems_pos {h : Nat} (hn : Good h n) : 0 < n.numItems := by
  have hfill := hn.fill_le
  have hcap := cap_fill h
  omega

end NodeOK

end BPTreeNode

end AstraKV
