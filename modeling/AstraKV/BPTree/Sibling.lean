import AstraKV.BPTree.InOrder
import AstraKV.Lib.ListEdit

/-!
# AstraKV.BPTree.Sibling

Moving items between two adjacent siblings, splitting a node and merging
two.  All of these cut the keys and children of two neighbours, taken
together with their separator, at another place, so each one leaves the
in-order reading of the pair as it was (`Weave.weave_join`).

A node with its keys and children cut at one key is `CutAt`; a node given by
the keys and children it is made of is `PartOK`. Every operation below takes
such a cut of one sibling and makes parts of both, so the proofs are about
lists, and the counts follow from `sumTreeCounts`. The defect of a count
travels with its node: a move leaves it where it was, a merge adds the two.
-/

universe u

namespace AstraKV

open Weave

namespace BPTreeNode

variable {α : Type u} {P : BPTreeNode α → Prop} {leaf : Bool} {e e' : UInt32}
  {l c n : BPTreeNode α}

/-! ## cutting a node -/

/-- A node seen at key `m`: the keys before and after it, and the children around them. -/
structure CutAt (leaf : Bool) (n : BPTreeNode α) (k₁ : List α) (m : α) (k₂ : List α)
    (c₁ c₂ : List (BPTreeNode α)) : Prop where
  keys : n.keys = k₁ ++ m :: k₂
  children : n.children = c₁ ++ c₂
  fits₁ : Fits leaf c₁ k₁
  fits₂ : Fits leaf c₂ k₂

/-- A node can be cut at any of its keys. -/
theorem NodeOK.cut (hn : NodeOK P leaf e n) {i : Nat} (hi : i < n.numItems) :
    ∃ k₁ m k₂ c₁ c₂, CutAt leaf n k₁ m k₂ c₁ c₂ ∧ k₁.length = i := by
  obtain ⟨k₁, m, k₂, c₁, c₂, hk, hc, hlen, h₁, h₂⟩ := hn.fits.cut hi
  exact ⟨k₁, m, k₂, c₁, c₂, ⟨hk, hc, h₁, h₂⟩, hlen⟩

section CutAt

variable {k₁ k₂ : List α} {m : α} {c₁ c₂ : List (BPTreeNode α)}

/-- The reading of a cut node. -/
theorem CutAt.toList_eq (h : CutAt leaf n k₁ m k₂ c₁ c₂) :
    n.toList = weave (c₁.map toList) k₁ ++ m :: weave (c₂.map toList) k₂ := by
  rw [BPTreeNode.toList_eq, h.keys, h.children, List.map_append]
  exact weave_join (h.fits₁.map _) (h.fits₂.map _) m

/-- A position left of the cut lies in the left part. -/
theorem CutAt.itemsTo_left (h : CutAt leaf n k₁ m k₂ c₁ c₂) {i : Nat} (hi : i ≤ k₁.length) :
    n.itemsTo i = weaveTo i (c₁.map toList) k₁ := by
  rw [itemsTo, h.keys, h.children, List.map_append]
  exact weaveTo_join_left (h.fits₁.map _) (h.fits₂.map _) m hi

/-- A position right of it lies in the right part. -/
theorem CutAt.itemsTo_right (h : CutAt leaf n k₁ m k₂ c₁ c₂) (j : Nat) :
    n.itemsTo (k₁.length + 1 + j) =
      weave (c₁.map toList) k₁ ++ m :: weaveTo j (c₂.map toList) k₂ := by
  rw [itemsTo, h.keys, h.children, List.map_append]
  exact weaveTo_join_right (h.fits₁.map _) (h.fits₂.map _) m j

/-- The children left of the cut. -/
theorem CutAt.take_children (h : CutAt leaf n k₁ m k₂ c₁ c₂) :
    n.children.take (k₁.length + 1) = c₁ := by
  have h₁ := h.fits₁
  have h₂ := h.fits₂
  cases leaf with
  | true =>
      simp only [Fits, if_true, List.length_eq_zero_iff] at h₁ h₂
      rw [h.children, h₁, h₂]
      rfl
  | false =>
      simp only [Fits, Bool.false_eq_true, if_false] at h₁
      rw [h.children, ← h₁, List.take_left']
      rfl

/-- The children right of it. -/
theorem CutAt.drop_children (h : CutAt leaf n k₁ m k₂ c₁ c₂) :
    n.children.drop (k₁.length + 1) = c₂ := by
  have h₁ := h.fits₁
  have h₂ := h.fits₂
  cases leaf with
  | true =>
      simp only [Fits, if_true, List.length_eq_zero_iff] at h₁ h₂
      rw [h.children, h₁, h₂]
      rfl
  | false =>
      simp only [Fits, Bool.false_eq_true, if_false] at h₁
      rw [h.children, ← h₁, List.drop_left']
      rfl

/-- The keys left of the cut. -/
theorem CutAt.take_keys (h : CutAt leaf n k₁ m k₂ c₁ c₂) : n.keys.take k₁.length = k₁ := by
  rw [h.keys, List.take_left']
  rfl

/-- The keys right of it. -/
theorem CutAt.drop_keys (h : CutAt leaf n k₁ m k₂ c₁ c₂) :
    n.keys.drop (k₁.length + 1) = k₂ := by
  rw [h.keys, List.drop_append, List.drop_of_length_le (by omega)]
  simp

/-- The key at the cut. -/
theorem CutAt.key_eq [Inhabited α] (h : CutAt leaf n k₁ m k₂ c₁ c₂) : n.key k₁.length = m := by
  simp [key, h.keys]

/-- The parts and the key between them make up the node. -/
theorem CutAt.numItems (h : CutAt leaf n k₁ m k₂ c₁ c₂) :
    n.numItems = k₁.length + 1 + k₂.length := by
  rw [BPTreeNode.numItems, h.keys, List.length_append, List.length_cons]
  omega

end CutAt

/-! ## the parts of a node -/

/-- The keys and children of a part of a node, and its count when it is an inner node. -/
structure PartOK (leaf : Bool) (e : UInt32) (ks : List α) (cs : List (BPTreeNode α))
    (n : BPTreeNode α) : Prop where
  isLeaf : n.isLeaf = leaf
  keys : n.keys = ks
  children : n.children = cs
  count : leaf = false → n.innerTreeCount = UInt32.ofNat (ks.length + totalSize cs) + e

/-- A part reads as its keys and children woven. -/
theorem PartOK.toList_eq {ks : List α} {cs : List (BPTreeNode α)} (h : PartOK leaf e ks cs n) :
    n.toList = weave (cs.map toList) ks := by
  rw [BPTreeNode.toList_eq, h.keys, h.children]

/-- Up to a position it reads as they do up to there. -/
theorem PartOK.itemsTo_eq {ks : List α} {cs : List (BPTreeNode α)} (h : PartOK leaf e ks cs n)
    (i : Nat) : n.itemsTo i = weaveTo i (cs.map toList) ks := by
  rw [itemsTo, h.keys, h.children]

/-- A part that fits and is within capacity is a node of the invariant. -/
theorem PartOK.nodeOK {ks : List α} {cs : List (BPTreeNode α)} (h : PartOK leaf e ks cs n)
    (hfits : Fits leaf cs ks) (hmax : ks.length ≤ n.maxItems) (hP : ∀ c ∈ cs, P c)
    (he : leaf = true → e = 0) : NodeOK P leaf e n where
  isLeaf := h.isLeaf
  fits := by rw [h.keys, h.children]; exact hfits
  le_max := by rw [numItems, h.keys]; exact hmax
  count := by
    rw [length_toList, h.keys, h.children, treeCount, h.isLeaf]
    cases leaf with
    | true =>
        have hcs : cs = [] := by
          simp only [Fits, if_true, List.length_eq_zero_iff] at hfits
          exact hfits
        rw [he rfl, hcs, numItems, h.keys]
        simp
    | false => exact h.count rfl
  child := by rw [h.children]; exact hP

/-- Only an inner node can have a wrong count. -/
theorem NodeOK.defect_leaf (hn : NodeOK P leaf e n) : leaf = true → e = 0 := by
  intro hleaf
  subst hleaf
  have hcount := hn.count
  rw [length_toList, hn.children_nil, treeCount, hn.isLeaf] at hcount
  simp only [if_true, numItems, totalSize_nil, Nat.add_zero] at hcount
  grind

/-- The cached count of an inner node, up to its defect. -/
theorem NodeOK.innerCount (hn : NodeOK P leaf e n) (h : leaf = false) :
    n.innerTreeCount = UInt32.ofNat (n.keys.length + totalSize n.children) + e := by
  have hcount := hn.count
  rw [length_toList, treeCount, hn.isLeaf, h] at hcount
  exact hcount

/-- Every node is the part made of all it has. -/
theorem NodeOK.part (hn : NodeOK P leaf e n) : PartOK leaf e n.keys n.children n where
  isLeaf := hn.isLeaf
  keys := rfl
  children := rfl
  count := hn.innerCount

/-- Siblings have the same capacity. -/
theorem maxItems_congr (h : l.isLeaf = c.isLeaf) : l.maxItems = c.maxItems := by
  rw [maxItems, maxItems, h]

/-! ## moving items over -/

section Move

variable {k₁ k₂ : List α} {m s : α} {c₁ c₂ : List (BPTreeNode α)}

/-- The counts of children that are right add up. -/
theorem sumTreeCounts_of_child (hP : ∀ c, P c → c.Counted) {cs : List (BPTreeNode α)}
    (h : ∀ c ∈ cs, P c) : sumTreeCounts cs = UInt32.ofNat (totalSize cs) :=
  sumTreeCounts_eq fun c hc => hP c (h c hc)

/-- What holds of every child holds left of the cut. -/
theorem CutAt.child₁ (cut : CutAt leaf c k₁ m k₂ c₁ c₂) (hc : NodeOK P leaf e c) :
    ∀ d ∈ c₁, P d := fun d hd =>
  hc.child d (by rw [cut.children]; exact List.mem_append_left _ hd)

/-- What holds of every child holds right of the cut. -/
theorem CutAt.child₂ (cut : CutAt leaf c k₁ m k₂ c₁ c₂) (hc : NodeOK P leaf e c) :
    ∀ d ∈ c₂, P d := fun d hd =>
  hc.child d (by rw [cut.children]; exact List.mem_append_right _ hd)

/-- A cut loses no key. -/
theorem CutAt.total (cut : CutAt leaf c k₁ m k₂ c₁ c₂) :
    c.keys.length + totalSize c.children =
      k₁.length + 1 + k₂.length + totalSize c₁ + totalSize c₂ := by
  rw [cut.keys, cut.children, totalSize_append, List.length_append, List.length_cons]
  omega

/-- What the left sibling is after taking from the right one. -/
theorem takeFromRight_part (hP : ∀ c, P c → c.Counted) (hl : NodeOK P leaf e l)
    (hc : NodeOK P leaf e' c) (cut : CutAt leaf c k₁ m k₂ c₁ c₂) :
    PartOK leaf e (l.keys ++ s :: k₁) (l.children ++ c₁)
      (l.takeFromRight s c (k₁.length + 1)) := by
  have hcount := hl.count
  have hsum := sumTreeCounts_of_child hP (cut.child₁ hc)
  cases leaf with
  | true =>
      have hc₁ : c₁ = [] := by simpa [Fits] using cut.fits₁
      exact
        { isLeaf := by simp [takeFromRight, hc.isLeaf, hl.isLeaf]
          keys := by simp [takeFromRight, hc.isLeaf, cut.take_keys]
          children := by simp [takeFromRight, hc.isLeaf, hc₁]
          count := by simp }
  | false =>
      refine ⟨?_, ?_, ?_, fun _ => ?_⟩
      · simp [takeFromRight, hc.isLeaf, hl.isLeaf]
      · simp [takeFromRight, hc.isLeaf, cut.take_keys]
      · simp [takeFromRight, hc.isLeaf, cut.take_children]
      · simp only [takeFromRight, hc.isLeaf, Bool.false_eq_true, if_false, cut.take_children,
          hsum, hcount, length_toList, List.length_append, List.length_cons, totalSize_append,
          UInt32.ofNat_add]
        grind

/-- What the right sibling is then. -/
theorem dropFront_part (hP : ∀ c, P c → c.Counted) (hc : NodeOK P leaf e c)
    (cut : CutAt leaf c k₁ m k₂ c₁ c₂) :
    PartOK leaf e k₂ c₂ (c.dropFront (k₁.length + 1)) := by
  have hcount := hc.count
  have hsum := sumTreeCounts_of_child hP (cut.child₁ hc)
  cases leaf with
  | true =>
      have hc₁ : c₁ = [] := by simpa [Fits] using cut.fits₁
      have hc₂ : c₂ = [] := by simpa [Fits] using cut.fits₂
      exact
        { isLeaf := by simp [dropFront, hc.isLeaf]
          keys := by simp [dropFront, hc.isLeaf, cut.drop_keys]
          children := by simp [dropFront, hc.isLeaf, cut.children, hc₁, hc₂]
          count := by simp }
  | false =>
      refine ⟨?_, ?_, ?_, fun _ => ?_⟩
      · simp [dropFront, hc.isLeaf]
      · simp [dropFront, hc.isLeaf, cut.drop_keys]
      · simp [dropFront, hc.isLeaf, cut.drop_children]
      · simp only [dropFront, hc.isLeaf, Bool.false_eq_true, if_false, cut.take_children,
          hsum, hcount, length_toList, cut.total, UInt32.ofNat_add]
        grind

/-- Cut from the back: `count = k₂.length + 1` items leave `k₁`. -/
theorem CutAt.numItems_sub (cut : CutAt leaf c k₁ m k₂ c₁ c₂) :
    c.numItems - (k₂.length + 1) = k₁.length := by
  rw [cut.numItems]
  omega

/-- What the right sibling is after taking from the left one. -/
theorem takeFromLeft_part (hP : ∀ c, P c → c.Counted) (hl : NodeOK P leaf e l)
    (hc : NodeOK P leaf e' c) (cut : CutAt leaf c k₁ m k₂ c₁ c₂) :
    PartOK leaf e (k₂ ++ s :: l.keys) (c₂ ++ l.children)
      (l.takeFromLeft s c (k₂.length + 1)) := by
  have hcount := hl.count
  have hsum := sumTreeCounts_of_child hP (cut.child₂ hc)
  cases leaf with
  | true =>
      have hc₂ : c₂ = [] := by simpa [Fits] using cut.fits₂
      exact
        { isLeaf := by simp [takeFromLeft, hc.isLeaf, hl.isLeaf]
          keys := by simp [takeFromLeft, hc.isLeaf, cut.numItems_sub, cut.drop_keys]
          children := by simp [takeFromLeft, hc.isLeaf, hc₂]
          count := by simp }
  | false =>
      refine ⟨?_, ?_, ?_, fun _ => ?_⟩
      · simp [takeFromLeft, hc.isLeaf, hl.isLeaf]
      · simp [takeFromLeft, hc.isLeaf, cut.numItems_sub, cut.drop_keys]
      · simp [takeFromLeft, hc.isLeaf, cut.numItems_sub, cut.drop_children]
      · simp only [takeFromLeft, hc.isLeaf, Bool.false_eq_true, if_false, cut.numItems_sub,
          cut.drop_children, hsum, hcount, length_toList, List.length_append, List.length_cons,
          totalSize_append, UInt32.ofNat_add]
        grind

/-- What the left sibling is then. -/
theorem dropBack_part (hP : ∀ c, P c → c.Counted) (hc : NodeOK P leaf e c)
    (cut : CutAt leaf c k₁ m k₂ c₁ c₂) :
    PartOK leaf e k₁ c₁ (c.dropBack (k₂.length + 1)) := by
  have hcount := hc.count
  have hsum := sumTreeCounts_of_child hP (cut.child₂ hc)
  cases leaf with
  | true =>
      have hc₁ : c₁ = [] := by simpa [Fits] using cut.fits₁
      have hc₂ : c₂ = [] := by simpa [Fits] using cut.fits₂
      exact
        { isLeaf := by simp [dropBack, hc.isLeaf]
          keys := by simp [dropBack, hc.isLeaf, cut.numItems_sub, cut.take_keys]
          children := by simp [dropBack, hc.isLeaf, cut.children, hc₁, hc₂]
          count := by simp }
  | false =>
      refine ⟨?_, ?_, ?_, fun _ => ?_⟩
      · simp [dropBack, hc.isLeaf]
      · simp [dropBack, hc.isLeaf, cut.numItems_sub, cut.take_keys]
      · simp [dropBack, hc.isLeaf, cut.numItems_sub, cut.take_children]
      · simp only [dropBack, hc.isLeaf, Bool.false_eq_true, if_false, cut.numItems_sub,
          cut.drop_children, hsum, hcount, length_toList, cut.total, UInt32.ofNat_add]
        grind

/-- What the left sibling is after taking all of the right one. -/
theorem mergeFromRight_part (hl : NodeOK P leaf e l) (hc : NodeOK P leaf e' c) :
    PartOK leaf (e + e') (l.keys ++ s :: c.keys) (l.children ++ c.children)
      (l.mergeFromRight s c) := by
  cases leaf with
  | true =>
      exact
        { isLeaf := by simp [mergeFromRight, hl.isLeaf]
          keys := by simp [mergeFromRight, hl.isLeaf]
          children := by simp [mergeFromRight, hl.isLeaf, hc.children_nil]
          count := by simp }
  | false =>
      have hcount := hl.innerCount rfl
      have hcount' := hc.count
      refine ⟨?_, ?_, ?_, fun _ => ?_⟩
      · simp [mergeFromRight, hl.isLeaf]
      · simp [mergeFromRight, hl.isLeaf]
      · simp [mergeFromRight, hl.isLeaf]
      · simp only [mergeFromRight, hl.isLeaf, Bool.false_eq_true, if_false, hcount, hcount',
          length_toList, List.length_append, List.length_cons, totalSize_append,
          UInt32.ofNat_add]
        grind

variable [Inhabited α]

/-- The two halves of a split node, and the median between them. -/
theorem split_parts (hP : ∀ c, P c → c.Counted) (hc : NodeOK P leaf e c)
    (cut : CutAt leaf c k₁ m k₂ c₁ c₂) (hmid : c.numItems / 2 = k₁.length) :
    PartOK leaf e k₁ c₁ c.split.1 ∧ c.split.2.1 = m ∧ PartOK leaf 0 k₂ c₂ c.split.2.2 := by
  have hsum := sumTreeCounts_of_child hP (cut.child₂ hc)
  cases leaf with
  | true =>
      have hc₁ : c₁ = [] := by simpa [Fits] using cut.fits₁
      have hc₂ : c₂ = [] := by simpa [Fits] using cut.fits₂
      have hcs : c.children = [] := hc.children_nil
      have hsplit : c.split =
          ({ c with keys := k₁ }, m, ⟨true, k₂, [], 0⟩) := by
        simp only [split, hc.isLeaf, if_true, hmid, cut.take_keys, cut.key_eq, cut.drop_keys]
      rw [hsplit]
      exact ⟨⟨hc.isLeaf, rfl, by rw [hc₁]; exact hcs, by simp⟩, rfl,
        ⟨rfl, rfl, by rw [hc₂], by simp⟩⟩
  | false =>
      have hcount := hc.innerCount rfl
      rw [cut.total] at hcount
      have hsplit : c.split =
          ({ c with
              keys := k₁
              children := c₁
              innerTreeCount :=
                c.innerTreeCount +
                  -(UInt32.ofNat k₂.length + UInt32.ofNat (totalSize c₂) + 1) },
            m,
            ⟨false, k₂, c₂, UInt32.ofNat k₂.length + UInt32.ofNat (totalSize c₂)⟩) := by
        simp only [split, hc.isLeaf, Bool.false_eq_true, if_false, hmid, cut.take_keys,
          cut.key_eq, cut.drop_keys, cut.take_children, cut.drop_children, hsum]
      rw [hsplit]
      refine ⟨⟨hc.isLeaf, rfl, rfl, fun _ => ?_⟩, rfl, ⟨rfl, rfl, rfl, fun _ => ?_⟩⟩
      · simp only [hcount, UInt32.ofNat_add]
        grind
      · simp only [UInt32.ofNat_add]
        grind

/-! ## what a move does to a pair -/

/-- `l'`, `s'`, `c'` hold the items of the siblings `l` and `c` and their separator
`s` in the same order, and each side keeps its defect. -/
structure Moved (P : BPTreeNode α → Prop) (leaf : Bool) (e e' : UInt32)
    (l : BPTreeNode α) (s : α) (c l' : BPTreeNode α) (s' : α) (c' : BPTreeNode α) : Prop where
  left : NodeOK P leaf e l'
  right : NodeOK P leaf e' c'
  toList : l'.toList ++ s' :: c'.toList = l.toList ++ s :: c.toList
  children : l'.children ++ c'.children = l.children ++ c.children

omit [Inhabited α] in
/-- A move neither makes nor frees a node. -/
theorem Moved.nodes {s s' : α} {l' c' : BPTreeNode α} (h : Moved P leaf e e' l s c l' s' c') :
    l'.nodes + c'.nodes = l.nodes + c.nodes := by
  have hnodes := congrArg nodesOf h.children
  rw [nodesOf_append, nodesOf_append] at hnodes
  simp only [nodes_eq]
  omega

/-- Moving keys to the left keeps the reading and the defects. -/
theorem moveLeft_spec (hP : ∀ c, P c → c.Counted) (hl : NodeOK P leaf e l)
    (hc : NodeOK P leaf e' c) (s : α) {count : Nat} (hpos : 0 < count)
    (hcount : count ≤ c.numItems) (hroom : l.numItems + count ≤ l.maxItems) :
    Moved P leaf e e' l s c
      (l.takeFromRight s c count) (c.key (count - 1)) (c.dropFront count) ∧
    (l.takeFromRight s c count).numItems = l.numItems + count ∧
    (c.dropFront count).numItems = c.numItems - count ∧
    (∀ i < count, (l.takeFromRight s c count).itemsTo (l.numItems + i + 1) =
      l.toList ++ s :: c.itemsTo i) ∧
    (∀ i, count ≤ i →
      (l.takeFromRight s c count).toList ++
        c.key (count - 1) :: (c.dropFront count).itemsTo (i - count) =
      l.toList ++ s :: c.itemsTo i) := by
  obtain ⟨k₁, m, k₂, c₁, c₂, cut, hk⟩ := hc.cut (i := count - 1) (by omega)
  obtain rfl : count = k₁.length + 1 := by omega
  have hgain := takeFromRight_part (s := s) hP hl hc cut
  have hloss := dropFront_part hP hc cut
  have hkey : c.key (k₁.length + 1 - 1) = m := by rw [Nat.add_sub_cancel, cut.key_eq]
  have hleft : (l.takeFromRight s c (k₁.length + 1)).toList =
      l.toList ++ s :: weave (c₁.map toList) k₁ := by
    rw [hgain.toList_eq, List.map_append, weave_join hl.fits_map (cut.fits₁.map _),
      ← BPTreeNode.toList_eq]
  have hright : (c.dropFront (k₁.length + 1)).toList = weave (c₂.map toList) k₂ :=
    hloss.toList_eq
  rw [hkey]
  refine ⟨⟨?_, ?_, ?_, ?_⟩, ?_, ?_, ?_, ?_⟩
  · refine hgain.nodeOK (hl.fits.join cut.fits₁ s) ?_ ?_ hl.defect_leaf
    · rw [maxItems_congr (hgain.isLeaf.trans hl.isLeaf.symm)]
      simp only [List.length_append, List.length_cons]
      simp only [numItems] at hroom
      omega
    · intro d hd
      rcases List.mem_append.mp hd with hd | hd
      · exact hl.child d hd
      · exact cut.child₁ hc d hd
  · refine hloss.nodeOK cut.fits₂ ?_ (cut.child₂ hc) hc.defect_leaf
    rw [maxItems_congr (hloss.isLeaf.trans hc.isLeaf.symm)]
    have hmax := hc.le_max
    rw [cut.numItems] at hmax
    omega
  · rw [hleft, hright, cut.toList_eq, List.append_assoc, List.cons_append]
  · rw [hgain.children, hloss.children, cut.children, List.append_assoc]
  · rw [numItems, hgain.keys, List.length_append, List.length_cons, numItems]
  · rw [numItems, hloss.keys, cut.numItems]
    omega
  · intro i hi
    rw [hgain.itemsTo_eq, List.map_append, numItems, Nat.add_right_comm,
      weaveTo_join_right hl.fits_map (cut.fits₁.map _), ← BPTreeNode.toList_eq,
      cut.itemsTo_left (by omega)]
  · intro i hi
    obtain ⟨j, rfl⟩ := Nat.exists_eq_add_of_le hi
    rw [hleft, hloss.itemsTo_eq, cut.itemsTo_right, Nat.add_sub_cancel_left,
      List.append_assoc, List.cons_append]

/-- Moving keys to the right does, too. -/
theorem moveRight_spec (hP : ∀ c, P c → c.Counted) (hl : NodeOK P leaf e l)
    (hc : NodeOK P leaf e' c) (s : α) {count : Nat} (hpos : 0 < count)
    (hcount : count ≤ l.numItems) (hroom : c.numItems + count ≤ c.maxItems) :
    Moved P leaf e e' l s c
      (l.dropBack count) (l.key (l.numItems - count)) (c.takeFromLeft s l count) ∧
    (l.dropBack count).numItems = l.numItems - count ∧
    (c.takeFromLeft s l count).numItems = c.numItems + count ∧
    (∀ i ≤ l.numItems - count, (l.dropBack count).itemsTo i = l.itemsTo i) ∧
    (∀ i, l.numItems - count + 1 ≤ i → i ≤ l.numItems →
      (l.dropBack count).toList ++
        l.key (l.numItems - count) ::
          (c.takeFromLeft s l count).itemsTo (i - (l.numItems - count + 1)) =
      l.itemsTo i) := by
  obtain ⟨k₁, m, k₂, c₁, c₂, cut, hk⟩ := hl.cut (i := l.numItems - count) (by omega)
  have hnum := cut.numItems
  obtain rfl : count = k₂.length + 1 := by omega
  have hgain := takeFromLeft_part (s := s) hP hc hl cut
  have hloss := dropBack_part hP hl cut
  have hkey : l.key (l.numItems - (k₂.length + 1)) = m := by rw [cut.numItems_sub, cut.key_eq]
  have hright : (c.takeFromLeft s l (k₂.length + 1)).toList =
      weave (c₂.map toList) k₂ ++ s :: c.toList := by
    rw [hgain.toList_eq, List.map_append, weave_join (cut.fits₂.map _) hc.fits_map,
      ← BPTreeNode.toList_eq]
  have hleft : (l.dropBack (k₂.length + 1)).toList = weave (c₁.map toList) k₁ :=
    hloss.toList_eq
  rw [hkey, cut.numItems_sub]
  refine ⟨⟨?_, ?_, ?_, ?_⟩, ?_, ?_, ?_, ?_⟩
  · refine hloss.nodeOK cut.fits₁ ?_ (cut.child₁ hl) hl.defect_leaf
    rw [maxItems_congr (hloss.isLeaf.trans hl.isLeaf.symm)]
    have hmax := hl.le_max
    omega
  · refine hgain.nodeOK (cut.fits₂.join hc.fits s) ?_ ?_ hc.defect_leaf
    · rw [maxItems_congr (hgain.isLeaf.trans hc.isLeaf.symm)]
      simp only [List.length_append, List.length_cons]
      simp only [numItems] at hroom
      omega
    · intro d hd
      rcases List.mem_append.mp hd with hd | hd
      · exact cut.child₂ hl d hd
      · exact hc.child d hd
  · rw [hleft, hright, cut.toList_eq, List.append_assoc, List.cons_append]
  · rw [hgain.children, hloss.children, cut.children, List.append_assoc]
  · rw [numItems, hloss.keys]
  · rw [numItems, hgain.keys, List.length_append, List.length_cons, numItems]
    omega
  · intro i hi
    rw [hloss.itemsTo_eq, cut.itemsTo_left hi]
  · intro i hi hi'
    obtain ⟨j, rfl⟩ := Nat.exists_eq_add_of_le hi
    rw [hleft, hgain.itemsTo_eq, cut.itemsTo_right, Nat.add_sub_cancel_left, List.map_append,
      weaveTo_join_left (cut.fits₂.map _) hc.fits_map s (by omega)]

/-! ## splitting and merging -/

/-- Splitting a node keeps its reading, and the left half its defect. -/
theorem split_spec (hP : ∀ c, P c → c.Counted) (hn : NodeOK P leaf e n) (hpos : 0 < n.numItems) :
    Moved P leaf e 0 n.split.1 n.split.2.1 n.split.2.2 n.split.1 n.split.2.1 n.split.2.2 ∧
    n.split.1.toList ++ n.split.2.1 :: n.split.2.2.toList = n.toList ∧
    n.split.1.children ++ n.split.2.2.children = n.children ∧
    n.split.1.numItems = n.numItems / 2 ∧
    n.split.2.2.numItems = n.numItems - n.numItems / 2 - 1 ∧
    (∀ i ≤ n.split.1.numItems, n.split.1.itemsTo i = n.itemsTo i) ∧
    (∀ i, n.split.1.numItems < i → i ≤ n.numItems →
      n.split.1.toList ++ n.split.2.1 :: n.split.2.2.itemsTo (i - n.split.1.numItems - 1) =
      n.itemsTo i) := by
  obtain ⟨k₁, m, k₂, c₁, c₂, cut, hk⟩ := hn.cut (i := n.numItems / 2) (by omega)
  obtain ⟨hleft, hmed, hright⟩ := split_parts hP hn cut hk.symm
  have hnum := cut.numItems
  have hmax := hn.le_max
  have hl : n.split.1.numItems = k₁.length := by rw [numItems, hleft.keys]
  refine ⟨⟨?_, ?_, rfl, rfl⟩, ?_, ?_, ?_, ?_, ?_, ?_⟩
  · refine hleft.nodeOK cut.fits₁ ?_ (cut.child₁ hn) hn.defect_leaf
    rw [maxItems_congr (hleft.isLeaf.trans hn.isLeaf.symm)]
    omega
  · refine hright.nodeOK cut.fits₂ ?_ (cut.child₂ hn) fun _ => rfl
    rw [maxItems_congr (hright.isLeaf.trans hn.isLeaf.symm)]
    omega
  · rw [hleft.toList_eq, hright.toList_eq, hmed, cut.toList_eq]
  · rw [hleft.children, hright.children, cut.children]
  · rw [hl, hk]
  · rw [numItems, hright.keys]
    omega
  · intro i hi
    rw [hleft.itemsTo_eq, cut.itemsTo_left (by omega)]
  · intro i hi hi'
    obtain ⟨j, rfl⟩ := Nat.exists_eq_add_of_lt hi
    rw [hleft.toList_eq, hright.itemsTo_eq, hmed, hl,
      show k₁.length + j + 1 - k₁.length - 1 = j by omega,
      show k₁.length + j + 1 = k₁.length + 1 + j by omega, cut.itemsTo_right]

/-- What comes from a position on, when the node is split before or behind it. -/
theorem split_itemsFrom (hP : ∀ c, P c → c.Counted) (hn : NodeOK P leaf e n) (hpos : 0 < n.numItems)
    {i : Nat} (hi : i ≤ n.numItems) :
    (i ≤ n.split.1.numItems →
      n.split.1.itemsFrom i ++ n.split.2.1 :: n.split.2.2.toList = n.itemsFrom i) ∧
    (n.split.1.numItems < i →
      n.split.2.2.itemsFrom (i - n.split.1.numItems - 1) = n.itemsFrom i) := by
  obtain ⟨hmoved, hlist, -, hnumL, hnumR, hto, hfrom⟩ := split_spec hP hn hpos
  have hitems := hn.itemsTo_append hi
  constructor
  · intro hle
    rw [← hlist, ← hmoved.left.itemsTo_append hle, hto i hle, List.append_assoc] at hitems
    exact (List.append_cancel_left hitems).symm
  · intro hlt
    have hq : i - n.split.1.numItems - 1 ≤ n.split.2.2.numItems := by omega
    rw [← hlist, ← hfrom i hlt hi, ← hmoved.right.itemsTo_append hq] at hitems
    simp only [List.append_assoc, List.cons_append] at hitems
    have htail := (List.cons.inj (List.append_cancel_left hitems)).2
    exact (List.append_cancel_left htail).symm

omit [Inhabited α] in
/-- Merging reads as the pair did, and adds the defects. -/
theorem merge_spec (hl : NodeOK P leaf e l) (hc : NodeOK P leaf e' c) (s : α)
    (hroom : l.numItems + 1 + c.numItems ≤ l.maxItems) :
    NodeOK P leaf (e + e') (l.mergeFromRight s c) ∧
    (l.mergeFromRight s c).toList = l.toList ++ s :: c.toList ∧
    (l.mergeFromRight s c).children = l.children ++ c.children ∧
    (l.mergeFromRight s c).numItems = l.numItems + 1 + c.numItems := by
  have hmerge := mergeFromRight_part (s := s) hl hc
  refine ⟨hmerge.nodeOK (hl.fits.join hc.fits s) ?_ ?_ ?_, ?_, hmerge.children, ?_⟩
  · rw [maxItems_congr (hmerge.isLeaf.trans hl.isLeaf.symm)]
    simp only [List.length_append, List.length_cons]
    simp only [numItems] at hroom
    omega
  · intro d hd
    rcases List.mem_append.mp hd with hd | hd
    · exact hl.child d hd
    · exact hc.child d hd
  · intro h
    rw [hl.defect_leaf h, hc.defect_leaf h, UInt32.add_zero]
  · rw [hmerge.toList_eq, List.map_append, weave_join hl.fits_map hc.fits_map,
      ← BPTreeNode.toList_eq, ← BPTreeNode.toList_eq]
  · rw [numItems, hmerge.keys, List.length_append, List.length_cons, numItems, numItems]
    omega

end Move

/-! ## inserting into one node -/

section Insert

/-- A leaf has nothing but its keys. -/
theorem NodeOK.leaf_toList (hn : NodeOK P true e n) : n.toList = n.keys := by
  rw [toList_eq, hn.children_nil]
  rfl

/-- What lies before a position in a leaf. -/
theorem NodeOK.leaf_itemsTo (hn : NodeOK P true e n) (i : Nat) : n.itemsTo i = n.keys.take i := by
  rw [itemsTo, hn.children_nil]
  rfl

/-- What lies from a position on in a leaf. -/
theorem NodeOK.leaf_itemsFrom (hn : NodeOK P true e n) (i : Nat) :
    n.itemsFrom i = n.keys.drop i := by
  rw [itemsFrom, hn.children_nil]
  simp [weaveFrom]

/-- Inserting into a leaf with room puts the key at its position. -/
theorem leafInsert_spec (hn : NodeOK P true 0 n) {i : Nat} (hi : i ≤ n.numItems)
    (hroom : n.numItems < n.maxItems) (x : α) :
    NodeOK P true 0 (n.leafInsert i x) ∧
    (n.leafInsert i x).toList = n.itemsTo i ++ x :: n.itemsFrom i ∧
    (n.leafInsert i x).numItems = n.numItems + 1 ∧
    (n.leafInsert i x).children = n.children := by
  have hkeys : (n.leafInsert i x).keys = n.keys.take i ++ x :: n.keys.drop i :=
    ListEdit.insertIdx_eq_take_drop _ _ hi
  have hpart : PartOK true 0 (n.keys.take i ++ x :: n.keys.drop i) [] (n.leafInsert i x) :=
    ⟨hn.isLeaf, hkeys, hn.children_nil, by simp⟩
  have hlen : (n.keys.take i ++ x :: n.keys.drop i).length = n.numItems + 1 := by
    simp only [numItems] at hi ⊢
    simp only [List.length_append, List.length_cons, List.length_take, List.length_drop]
    omega
  refine ⟨hpart.nodeOK rfl ?_ (by simp) fun _ => rfl, ?_, ?_, rfl⟩
  · rw [hlen]
    exact hroom
  · rw [hpart.toList_eq, hn.leaf_itemsTo, hn.leaf_itemsFrom]
    rfl
  · rw [numItems, hkeys, hlen]

/-- The insertion of (`k`, `r`) at `i` puts `k` and the keys of `r` after child `i`.
The cached count is left alone, so the defect falls by what was added. -/
theorem innerInsert_spec (hn : NodeOK P false e n) {i : Nat} (hi : i ≤ n.numItems)
    (hroom : n.numItems < n.maxItems) (k : α) {r : BPTreeNode α} (hr : P r) :
    NodeOK P false (e - 1 - UInt32.ofNat r.toList.length) (n.innerInsert i k r) ∧
    (n.innerInsert i k r).toList = n.itemsTo i ++ k :: r.toList ++ n.itemsFrom i ∧
    (n.innerInsert i k r).numItems = n.numItems + 1 ∧
    nodesOf (n.innerInsert i k r).children = nodesOf n.children + r.nodes := by
  have hlen := hn.length_children
  simp only [numItems] at hi
  have hkeys : (n.innerInsert i k r).keys = n.keys.take i ++ k :: n.keys.drop i :=
    ListEdit.insertIdx_eq_take_drop _ _ hi
  have hchildren : (n.innerInsert i k r).children =
      n.children.take (i + 1) ++ r :: n.children.drop (i + 1) :=
    ListEdit.insertIdx_eq_take_drop _ _ (by omega)
  have hsplit : n.children = n.children.take (i + 1) ++ n.children.drop (i + 1) :=
    (List.take_append_drop _ _).symm
  have htotal : totalSize n.children =
      totalSize (n.children.take (i + 1)) + totalSize (n.children.drop (i + 1)) := by
    rw [← totalSize_append, ← hsplit]
  have hnum : (n.keys.take i ++ k :: n.keys.drop i).length = n.keys.length + 1 := by
    simp only [List.length_append, List.length_cons, List.length_take, List.length_drop]
    omega
  have hfits₁ : Fits false (n.children.take (i + 1)) (n.keys.take i) := by
    simp only [Fits, Bool.false_eq_true, if_false, List.length_take]
    omega
  have hfits₂ : Fits false (r :: n.children.drop (i + 1)) (n.keys.drop i) := by
    simp only [Fits, Bool.false_eq_true, if_false, List.length_cons, List.length_drop]
    omega
  have hpart : PartOK false (e - 1 - UInt32.ofNat r.toList.length)
      (n.keys.take i ++ k :: n.keys.drop i)
      (n.children.take (i + 1) ++ r :: n.children.drop (i + 1)) (n.innerInsert i k r) := by
    refine ⟨hn.isLeaf, hkeys, hchildren, fun _ => ?_⟩
    have hcount := hn.innerCount rfl
    rw [hnum, totalSize_append, totalSize_cons]
    show n.innerTreeCount = _
    rw [hcount, htotal]
    simp only [UInt32.ofNat_add]
    grind
  refine ⟨hpart.nodeOK (hfits₁.join hfits₂ k) ?_ ?_ (by simp), ?_, ?_, ?_⟩
  · rw [hnum]
    exact hroom
  · intro d hd
    rcases List.mem_append.mp hd with hd | hd
    · exact hn.child d (List.mem_of_mem_take hd)
    · rcases List.mem_cons.mp hd with hd | hd
      · exact hd ▸ hr
      · exact hn.child d (List.mem_of_mem_drop hd)
  · rw [hpart.toList_eq, List.map_append, weave_join (hfits₁.map _) (hfits₂.map _),
      List.map_cons, weave_cons, itemsTo, itemsFrom, weaveTo, weaveFrom, List.map_take,
      List.map_drop, List.append_assoc, List.cons_append]
  · rw [numItems, hkeys, hnum, numItems]
  · rw [hchildren, nodesOf_append, nodesOf_cons, hsplit, nodesOf_append]
    simp only [← hsplit]
    omega

end Insert

/-! ## correcting the count -/

section Count

/-- Correcting a count changes nothing but the count. -/
@[simp] theorem increaseTreeCount_isLeaf (n : BPTreeNode α) (d : UInt32) :
    (n.increaseTreeCount d).isLeaf = n.isLeaf := rfl

/-- The keys stay. -/
@[simp] theorem increaseTreeCount_keys (n : BPTreeNode α) (d : UInt32) :
    (n.increaseTreeCount d).keys = n.keys := rfl

/-- The children stay. -/
@[simp] theorem increaseTreeCount_children (n : BPTreeNode α) (d : UInt32) :
    (n.increaseTreeCount d).children = n.children := rfl

@[simp] theorem increaseTreeCount_numItems (n : BPTreeNode α) (d : UInt32) :
    (n.increaseTreeCount d).numItems = n.numItems := rfl

@[simp] theorem increaseTreeCount_minFill (n : BPTreeNode α) (d : UInt32) :
    (n.increaseTreeCount d).minFill = n.minFill := rfl

/-- The reading stays. -/
@[simp] theorem increaseTreeCount_toList (n : BPTreeNode α) (d : UInt32) :
    (n.increaseTreeCount d).toList = n.toList := by
  rw [toList_eq, toList_eq]
  rfl

@[simp] theorem increaseTreeCount_itemsTo (n : BPTreeNode α) (d : UInt32) (i : Nat) :
    (n.increaseTreeCount d).itemsTo i = n.itemsTo i := rfl

/-- The number of blocks stays. -/
@[simp] theorem increaseTreeCount_nodes (n : BPTreeNode α) (d : UInt32) :
    (n.increaseTreeCount d).nodes = n.nodes := by
  rw [nodes_eq, nodes_eq]
  rfl

/-- Two corrections add up. -/
theorem increaseTreeCount_increaseTreeCount (n : BPTreeNode α) (a b : UInt32) :
    (n.increaseTreeCount a).increaseTreeCount b = n.increaseTreeCount (a + b) := by
  simp only [increaseTreeCount, setTreeCount, UInt32.add_assoc]

/-- Correcting by nothing changes nothing. -/
@[simp] theorem increaseTreeCount_zero (n : BPTreeNode α) : n.increaseTreeCount 0 = n := by
  obtain ⟨leaf, ks, cs, cnt⟩ := n
  simp [increaseTreeCount, setTreeCount]

@[simp] theorem increaseTreeCount_itemsFrom (n : BPTreeNode α) (d : UInt32) (i : Nat) :
    (n.increaseTreeCount d).itemsFrom i = n.itemsFrom i := rfl

/-- A correction adds to the defect. -/
theorem NodeOK.increaseTreeCount (hn : NodeOK P false e n) (d : UInt32) :
    NodeOK P false (e + d) (n.increaseTreeCount d) where
  isLeaf := hn.isLeaf
  fits := hn.fits
  le_max := hn.le_max
  count := by
    have hcount := hn.count
    rw [treeCount, hn.isLeaf] at hcount
    rw [treeCount, increaseTreeCount_isLeaf, hn.isLeaf, increaseTreeCount_toList,
      ← UInt32.add_assoc]
    exact congrArg (· + d) hcount
  child := hn.child

end Count

end BPTreeNode

end AstraKV
