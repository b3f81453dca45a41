import AstraKV.BPTree.Spine

/-!
# AstraKV.BPTree.Pair

Two adjacent children of a node.  `RebalanceChild` and
`MergeOrRebalanceChild` work on such a pair and the separator between
them, and leave the rest of the parent alone.

`PairAt n A s B X l c Y` spells the parent out around the pair: the keys are
`A ++ s :: B` and the children `X ++ l :: c :: Y`. Every operation on two
siblings is then a statement about `s`, `l` and `c` alone, and `A`, `B`, `X`,
`Y` come back unchanged. `MadeRoom` is what an insertion needs of
`RebalanceChild`: the same reading, a child with room, and the place of the
new key in it.
-/

universe u

namespace AstraKV

open Weave ListEdit

variable {α : Type u}

namespace BPTreeNode

/-- The adjacent children `l` and `c` of `n` with their separator `s`, the keys `A` and
children `X` before them, and the keys `B` and children `Y` after them. -/
structure PairAt (n : BPTreeNode α) (A : List α) (s : α) (B : List α)
    (X : List (BPTreeNode α)) (l c : BPTreeNode α) (Y : List (BPTreeNode α)) : Prop where
  keys : n.keys = A ++ s :: B
  children : n.children = X ++ l :: c :: Y
  length_left : X.length = A.length
  length_right : Y.length = B.length

section Pair

variable {n n' l l' c c' : BPTreeNode α} {A B : List α} {s s' : α} {X Y : List (BPTreeNode α)}
  {P Q : BPTreeNode α → Prop} {e : UInt32}

/-- Around every separator of an inner node there is a pair. -/
theorem NodeOK.pair (hn : NodeOK P false e n) {i : Nat} (hi : i < n.numItems) :
    ∃ A s B X l c Y, PairAt n A s B X l c Y ∧ A.length = i := by
  have hlen := hn.length_children
  unfold numItems at hi
  obtain ⟨A, s, B, hkeys, hA⟩ := eq_append_of_lt hi
  have hi' : i < n.children.length := by omega
  obtain ⟨X, l, Z, hchildren, hX⟩ := eq_append_of_lt hi'
  cases Z with
  | nil =>
      rw [hkeys, hchildren] at hlen
      simp only [List.length_append, List.length_cons, List.length_nil] at hlen
      omega
  | cons c Y =>
      refine ⟨A, s, B, X, l, c, Y, ⟨hkeys, hchildren, by omega, ?_⟩, hA⟩
      rw [hkeys, hchildren] at hlen
      simp only [List.length_append, List.length_cons] at hlen
      omega

/-- How many keys the parent has. -/
theorem PairAt.numItems (hp : PairAt n A s B X l c Y) : n.numItems = A.length + 1 + B.length := by
  unfold BPTreeNode.numItems
  rw [hp.keys, List.length_append, List.length_cons]
  omega

/-- The reading of the parent, with the pair's in the middle. -/
theorem PairAt.toList_eq (hp : PairAt n A s B X l c Y) :
    n.toList = headWeave (X.map toList) A ++ (l.toList ++ s :: c.toList) ++
      tailWeave B (Y.map toList) := by
  rw [BPTreeNode.toList_eq, hp.keys, hp.children, List.map_append, List.map_cons,
    weave_focus _ (by rw [List.length_map, hp.length_left])]
  simp

/-- The blocks of the parent's subtree, with the pair's apart. -/
theorem PairAt.nodes_eq (hp : PairAt n A s B X l c Y) :
    n.nodes = nodesOf X + (l.nodes + c.nodes) + nodesOf Y + 1 := by
  rw [BPTreeNode.nodes_eq, hp.children, nodesOf_append, nodesOf_cons, nodesOf_cons]
  omega

/-- The left child stands at the separator's index. -/
theorem PairAt.getElem?_left (hp : PairAt n A s B X l c Y) : n.children[A.length]? = some l := by
  rw [hp.children, ← hp.length_left]
  simp

/-- The right child stands one further. -/
theorem PairAt.getElem?_right (hp : PairAt n A s B X l c Y) :
    n.children[A.length + 1]? = some c := by
  rw [hp.children, ← hp.length_left]
  simp

/-- Another left child makes another pair. -/
theorem PairAt.setChild_left (hp : PairAt n A s B X l c Y) (d : BPTreeNode α) :
    PairAt (n.setChild A.length d) A s B X d c Y where
  keys := hp.keys
  children := by
    unfold setChild
    rw [hp.children]
    exact set_append hp.length_left
  length_left := hp.length_left
  length_right := hp.length_right

/-- Another right child does too. -/
theorem PairAt.setChild_right (hp : PairAt n A s B X l c Y) (d : BPTreeNode α) :
    PairAt (n.setChild (A.length + 1) d) A s B X l d Y where
  keys := hp.keys
  children := by
    unfold setChild
    rw [hp.children, ← hp.length_left]
    simp
  length_left := hp.length_left
  length_right := hp.length_right

/-- A node is determined by its pair, its kind and its count. -/
theorem PairAt.ext (hp : PairAt n A s B X l c Y) (hp' : PairAt n' A s B X l c Y)
    (hleaf : n'.isLeaf = n.isLeaf) (hcount : n'.innerTreeCount = n.innerTreeCount) : n' = n := by
  have hkeys := hp'.keys.trans hp.keys.symm
  have hchildren := hp'.children.trans hp.children.symm
  obtain ⟨leaf, ks, cs, cnt⟩ := n
  obtain ⟨leaf', ks', cs', cnt'⟩ := n'
  simp_all

/-- Reading the left child by its index. -/
theorem PairAt.child_left (hp : PairAt n A s B X l c Y) : n.child A.length = l :=
  child_eq hp.getElem?_left

/-- Reading the right child by its index. -/
theorem PairAt.child_right (hp : PairAt n A s B X l c Y) : n.child (A.length + 1) = c :=
  child_eq hp.getElem?_right

theorem PairAt.mem_left (hp : PairAt n A s B X l c Y) : l ∈ n.children :=
  List.mem_of_getElem? hp.getElem?_left

theorem PairAt.mem_right (hp : PairAt n A s B X l c Y) : c ∈ n.children :=
  List.mem_of_getElem? hp.getElem?_right

/-- The children beside the pair belong to the parent. -/
theorem PairAt.mem_others (hp : PairAt n A s B X l c Y) {d : BPTreeNode α} (hd : d ∈ X ++ Y) :
    d ∈ n.children := by
  rw [hp.children]
  grind

/-- The separator read by its index. -/
theorem PairAt.key_eq [Inhabited α] (hp : PairAt n A s B X l c Y) : n.key A.length = s := by
  unfold key
  rw [hp.keys]
  exact getD_append rfl

/-- The keys before the left child of the pair. -/
theorem PairAt.before_left (hp : PairAt n A s B X l c Y) :
    PathRecord.before ⟨n, A.length⟩ = headWeave (X.map toList) A := by
  unfold PathRecord.before
  rw [hp.keys, hp.children, List.take_left, ← hp.length_left, List.take_left]

/-- The keys before the right child of the pair. -/
theorem PairAt.before_right (hp : PairAt n A s B X l c Y) :
    PathRecord.before ⟨n, A.length + 1⟩ = headWeave (X.map toList) A ++ (l.toList ++ [s]) := by
  have hkeys : n.keys.take (A.length + 1) = A ++ [s] := by
    rw [hp.keys, List.take_append, List.take_of_length_le (by omega)]
    simp
  have hchildren : n.children.take (A.length + 1) = X ++ [l] := by
    rw [hp.children, ← hp.length_left, List.take_append, List.take_of_length_le (by omega)]
    simp
  unfold PathRecord.before
  simp only [hkeys, hchildren, List.map_append]
  rw [headWeave_append _ _ _ _ (by rw [List.length_map, hp.length_left])]
  simp

/-- Another pair with the same reading may take the place of a pair. -/
theorem PairAt.replace (hp : PairAt n A s B X l c Y) (hn : NodeOK P false e n)
    (hp' : PairAt n' A s' B X l' c' Y) (hleaf : n'.isLeaf = n.isLeaf)
    (hcount : n'.innerTreeCount = n.innerTreeCount)
    (hlist : l'.toList ++ s' :: c'.toList = l.toList ++ s :: c.toList)
    (hQ : ∀ d ∈ X ++ Y, Q d) (hl : Q l') (hc : Q c') :
    NodeOK Q false e n' ∧ n'.toList = n.toList := by
  have htoList : n'.toList = n.toList := by rw [hp'.toList_eq, hp.toList_eq, hlist]
  refine ⟨⟨hleaf.trans hn.isLeaf, ?_, ?_, ?_, ?_⟩, htoList⟩
  · simp only [Fits, Bool.false_eq_true, if_false, hp'.keys, hp'.children, List.length_append,
      List.length_cons, hp'.length_left, hp'.length_right]
    omega
  · have hmax := hn.le_max
    rw [hp.numItems] at hmax
    rw [hp'.numItems, maxItems_congr hleaf]
    exact hmax
  · have h := hn.count
    unfold treeCount at h ⊢
    rw [hn.isLeaf] at h
    rw [hleaf, hn.isLeaf, hcount, htoList]
    exact h
  · intro d hd
    rw [hp'.children] at hd
    grind

/-! ## moving items within a pair -/

section Move

variable [Inhabited α] {h count : Nat}

/-- Moving keys to the left replaces the separator and both children. -/
theorem PairAt.rebalanceChildToLeft (hp : PairAt n A s B X l c Y) (count : Nat) :
    PairAt (n.rebalanceChildToLeft (A.length + 1) count) A (c.key (count - 1)) B X
      (l.takeFromRight s c count) (c.dropFront count) Y := by
  unfold BPTreeNode.rebalanceChildToLeft
  rw [Nat.add_sub_cancel, hp.child_left, hp.child_right, hp.key_eq]
  unfold setKey setChild
  simp only [hp.keys, hp.children]
  exact ⟨set_append rfl, set_set_append hp.length_left, hp.length_left, hp.length_right⟩

/-- Moving keys to the right does the same the other way round. -/
theorem PairAt.rebalanceChildToRight (hp : PairAt n A s B X l c Y) (count : Nat) :
    PairAt (n.rebalanceChildToRight A.length count) A (l.key (l.numItems - count)) B X
      (l.dropBack count) (c.takeFromLeft s l count) Y := by
  unfold BPTreeNode.rebalanceChildToRight
  rw [hp.child_left, hp.child_right, hp.key_eq]
  unfold setKey setChild
  simp only [hp.keys, hp.children]
  exact ⟨set_append rfl, set_set_append hp.length_left, hp.length_left, hp.length_right⟩

/-- Moving `count` items left leaves both children good if both end up with enough items. -/
theorem PairAt.moveLeft (hp : PairAt n A s B X l c Y) (count : Nat) (hn : NodeOK P false e n)
    (hl : Sound h l) (hc : Sound h c) (hothers : ∀ d ∈ X ++ Y, Good h d) (hpos : 0 < count)
    (hroom : l.numItems + count ≤ cap h) (hleft : fill h ≤ l.numItems + count)
    (hright : fill h + count ≤ c.numItems) :
    NodeOK (Good h) false e (n.rebalanceChildToLeft (A.length + 1) count) ∧
    (n.rebalanceChildToLeft (A.length + 1) count).toList = n.toList ∧
    (n.rebalanceChildToLeft (A.length + 1) count).nodes = n.nodes ∧
    (l.takeFromRight s c count).numItems = l.numItems + count ∧
    (c.dropFront count).numItems = c.numItems - count ∧
    (∀ i < count, (l.takeFromRight s c count).itemsTo (l.numItems + i + 1) =
      l.toList ++ s :: c.itemsTo i) ∧
    (∀ i, count ≤ i →
      (l.takeFromRight s c count).toList ++
        c.key (count - 1) :: (c.dropFront count).itemsTo (i - count) =
      l.toList ++ s :: c.itemsTo i) := by
  have hp' := hp.rebalanceChildToLeft count
  obtain ⟨hmoved, hnumL, hnumC, hto, hfrom⟩ :=
    moveLeft_spec (fun d hd => hd.counted) ((sound_iff h l).mp hl) ((sound_iff h c).mp hc) s hpos
      (by omega) (by rw [hl.maxItems]; exact hroom)
  have hgoodL : Good h (l.takeFromRight s c count) :=
    Sound.good ((sound_iff h _).mpr hmoved.left) (by omega)
  have hgoodC : Good h (c.dropFront count) :=
    Sound.good ((sound_iff h _).mpr hmoved.right) (by omega)
  obtain ⟨hnode, hlist⟩ := hp.replace hn hp' rfl rfl hmoved.toList hothers hgoodL hgoodC
  refine ⟨hnode, hlist, ?_, hnumL, hnumC, hto, hfrom⟩
  rw [hp'.nodes_eq, hp.nodes_eq, hmoved.nodes]

/-- Moving `count` items right leaves both children good if both end up with enough items. -/
theorem PairAt.moveRight (hp : PairAt n A s B X l c Y) (count : Nat) (hn : NodeOK P false e n)
    (hl : Sound h l) (hc : Sound h c) (hothers : ∀ d ∈ X ++ Y, Good h d) (hpos : 0 < count)
    (hroom : c.numItems + count ≤ cap h) (hleft : fill h + count ≤ l.numItems)
    (hright : fill h ≤ c.numItems + count) :
    NodeOK (Good h) false e (n.rebalanceChildToRight A.length count) ∧
    (n.rebalanceChildToRight A.length count).toList = n.toList ∧
    (n.rebalanceChildToRight A.length count).nodes = n.nodes ∧
    (l.dropBack count).numItems = l.numItems - count ∧
    (c.takeFromLeft s l count).numItems = c.numItems + count ∧
    (∀ i ≤ l.numItems - count, (l.dropBack count).itemsTo i = l.itemsTo i) ∧
    (∀ i, l.numItems - count + 1 ≤ i → i ≤ l.numItems →
      (l.dropBack count).toList ++
        l.key (l.numItems - count) ::
          (c.takeFromLeft s l count).itemsTo (i - (l.numItems - count + 1)) =
      l.itemsTo i) := by
  have hp' := hp.rebalanceChildToRight count
  obtain ⟨hmoved, hnumL, hnumC, hto, hfrom⟩ :=
    moveRight_spec (fun d hd => hd.counted) ((sound_iff h l).mp hl) ((sound_iff h c).mp hc) s hpos
      (by omega) (by rw [hc.maxItems]; exact hroom)
  have hgoodL : Good h (l.dropBack count) :=
    Sound.good ((sound_iff h _).mpr hmoved.left) (by omega)
  have hgoodC : Good h (c.takeFromLeft s l count) :=
    Sound.good ((sound_iff h _).mpr hmoved.right) (by omega)
  obtain ⟨hnode, hlist⟩ := hp.replace hn hp' rfl rfl hmoved.toList hothers hgoodL hgoodC
  refine ⟨hnode, hlist, ?_, hnumL, hnumC, hto, hfrom⟩
  rw [hp'.nodes_eq, hp.nodes_eq, hmoved.nodes]

end Move

end Pair

/-! ## RebalanceChild -/

section Rebalance

variable [Inhabited α] {h pos ip i j : Nat} {e : UInt32} {p p' : BPTreeNode α}

/-- No more keys are moved than the sibling has room for. -/
theorem moveCount_le (free : Nat) (edge : Bool) : moveCount free edge ≤ free := by
  unfold moveCount
  grind

/-- Away from the edge at most half of the free slots are used. -/
theorem moveCount_half (free : Nat) {edge : Bool} (hedge : edge = false) :
    2 * moveCount free edge ≤ free := by
  unfold moveCount
  subst hedge
  grind

/-- `(i, j)` is the same place in `p'` as `(pos, ip)` is in `p`, and there is room for one more
item there. -/
structure MadeRoom (h : Nat) (e : UInt32) (p : BPTreeNode α) (pos ip : Nat)
    (p' : BPTreeNode α) (i j : Nat) : Prop where
  node : NodeOK (Good h) false e p'
  toList : p'.toList = p.toList
  nodes : p'.nodes = p.nodes
  numItems : p'.numItems = p.numItems
  child : p'.children[i]? = some (p'.child i)
  room : (p'.child i).numItems < cap h
  le : j ≤ (p'.child i).numItems
  place : PathRecord.before ⟨p', i⟩ ++ (p'.child i).itemsTo j =
    PathRecord.before ⟨p, pos⟩ ++ (p.child pos).itemsTo ip

/-- `RebalanceChild` with the left sibling. -/
theorem rebalanceToLeft_spec (hn : NodeOK (Good h) false e p) (hpos : 0 < pos)
    (hle : pos ≤ p.numItems) (hfull : (p.child pos).numItems = cap h)
    (hip : ip ≤ (p.child pos).numItems) {count : Nat} (hcount : 0 < count)
    (hmove : count = moveCount (p.child (pos - 1)).availableSlotCount
      (ip == (p.child pos).numItems)) :
    if ip < count then
      MadeRoom h e p pos ip (p.rebalanceChildToLeft pos count) (pos - 1)
        ((p.child (pos - 1)).numItems + ip + 1)
    else MadeRoom h e p pos ip (p.rebalanceChildToLeft pos count) pos (ip - count) := by
  obtain ⟨A, s, B, X, l, c, Y, hp, hA⟩ := hn.pair (i := pos - 1) (by omega)
  obtain rfl : pos = A.length + 1 := by omega
  rw [Nat.add_sub_cancel] at hmove ⊢
  rw [hp.child_right] at hfull hip hmove
  rw [hp.child_left] at hmove ⊢
  have hgoodL := hn.child l hp.mem_left
  have hgoodC := hn.child c hp.mem_right
  have hfillL := hgoodL.fill_le
  have hcapfill := cap_fill h
  have hfree : l.availableSlotCount = cap h - l.numItems := by
    unfold availableSlotCount
    rw [hgoodL.1.maxItems]
  have hmax := moveCount_le l.availableSlotCount (ip == c.numItems)
  obtain ⟨hnode, hlist, hnodes, hnumL, hnumC, hto, hfrom⟩ :=
    hp.moveLeft count hn hgoodL.1 hgoodC.1 (fun d hd => hn.child d (hp.mem_others hd)) hcount
      (by omega) (by omega) (by omega)
  have hp' := hp.rebalanceChildToLeft count
  have hnum : (p.rebalanceChildToLeft (A.length + 1) count).numItems = p.numItems := by
    rw [hp'.numItems, hp.numItems]
  by_cases hlt : ip < count
  · rw [if_pos hlt]
    have hhalf := moveCount_half l.availableSlotCount (show (ip == c.numItems) = false by
      simp only [beq_eq_false_iff_ne]
      omega)
    exact
      { node := hnode
        toList := hlist
        nodes := hnodes
        numItems := hnum
        child := by rw [hp'.child_left]; exact hp'.getElem?_left
        room := by rw [hp'.child_left, hnumL]; omega
        le := by rw [hp'.child_left, hnumL]; omega
        place := by
          rw [hp'.child_left, hp.child_right, hp'.before_left, hp.before_right, hto ip hlt]
          simp }
  · rw [if_neg hlt]
    exact
      { node := hnode
        toList := hlist
        nodes := hnodes
        numItems := hnum
        child := by rw [hp'.child_right]; exact hp'.getElem?_right
        room := by rw [hp'.child_right, hnumC]; omega
        le := by rw [hp'.child_right, hnumC]; omega
        place := by
          have hcat := hfrom ip (by omega)
          rw [hp'.child_right, hp.child_right, hp'.before_right, hp.before_right]
          simp only [List.append_assoc, List.singleton_append, hcat] }

/-- `RebalanceChild` with the right sibling. -/
theorem rebalanceToRight_spec (hn : NodeOK (Good h) false e p) (hlt : pos < p.numItems)
    (hfull : (p.child pos).numItems = cap h) (hip : ip ≤ (p.child pos).numItems) {count : Nat}
    (hcount : 0 < count)
    (hmove : count = moveCount (p.child (pos + 1)).availableSlotCount (ip == 0)) :
    if ip > (p.child pos).numItems - count then
      MadeRoom h e p pos ip (p.rebalanceChildToRight pos count) (pos + 1)
        (ip - ((p.child pos).numItems - count + 1))
    else MadeRoom h e p pos ip (p.rebalanceChildToRight pos count) pos ip := by
  obtain ⟨A, s, B, X, l, c, Y, hp, hA⟩ := hn.pair hlt
  subst hA
  rw [hp.child_left] at hfull hip ⊢
  rw [hp.child_right] at hmove
  have hgoodL := hn.child l hp.mem_left
  have hgoodC := hn.child c hp.mem_right
  have hfillC := hgoodC.fill_le
  have hcapfill := cap_fill h
  have hfree : c.availableSlotCount = cap h - c.numItems := by
    unfold availableSlotCount
    rw [hgoodC.1.maxItems]
  have hmax := moveCount_le c.availableSlotCount (ip == 0)
  obtain ⟨hnode, hlist, hnodes, hnumL, hnumC, hto, hfrom⟩ :=
    hp.moveRight count hn hgoodL.1 hgoodC.1 (fun d hd => hn.child d (hp.mem_others hd)) hcount
      (by omega) (by omega) (by omega)
  have hp' := hp.rebalanceChildToRight count
  have hnum : (p.rebalanceChildToRight A.length count).numItems = p.numItems := by
    rw [hp'.numItems, hp.numItems]
  by_cases hgt : ip > l.numItems - count
  · rw [if_pos hgt]
    have hhalf := moveCount_half c.availableSlotCount (show (ip == 0) = false by
      simp only [beq_eq_false_iff_ne]
      omega)
    exact
      { node := hnode
        toList := hlist
        nodes := hnodes
        numItems := hnum
        child := by rw [hp'.child_right]; exact hp'.getElem?_right
        room := by rw [hp'.child_right, hnumC]; omega
        le := by rw [hp'.child_right, hnumC]; omega
        place := by
          have hcat := hfrom ip (by omega) hip
          rw [hp'.child_right, hp.child_left, hp'.before_right, hp.before_left]
          simp only [List.append_assoc, List.singleton_append, hcat] }
  · rw [if_neg hgt]
    exact
      { node := hnode
        toList := hlist
        nodes := hnodes
        numItems := hnum
        child := by rw [hp'.child_left]; exact hp'.getElem?_left
        room := by rw [hp'.child_left, hnumL]; omega
        le := by rw [hp'.child_left, hnumL]; omega
        place := by
          rw [hp'.child_left, hp.child_left, hp'.before_left, hp.before_left,
            hto ip (by omega)] }

/-- When `RebalanceChild` finds a sibling with room, the full child gets some. -/
theorem rebalanceChild_spec (hn : NodeOK (Good h) false e p) (hle : pos ≤ p.numItems)
    (hfull : (p.child pos).numItems = cap h) (hip : ip ≤ (p.child pos).numItems)
    (heq : p.rebalanceChild pos ip = some (p', i, j)) : MadeRoom h e p pos ip p' i j := by
  unfold rebalanceChild at heq
  dsimp only at heq
  generalize htoLeft : (if pos > 0 then moveCount (p.child (pos - 1)).availableSlotCount
    (ip == (p.child pos).numItems) else 0) = toLeft at heq
  generalize htoRight : (if pos < p.numItems then
    moveCount (p.child (pos + 1)).availableSlotCount (ip == 0) else 0) = toRight at heq
  by_cases hleft : toLeft > 0
  · have hpos : 0 < pos := by grind
    rw [if_pos hpos] at htoLeft
    have hspec := rebalanceToLeft_spec hn hpos hle hfull hip hleft htoLeft.symm
    by_cases hlt : ip < toLeft
    · simp only [hleft, hlt, if_true, Option.some.injEq, Prod.mk.injEq] at heq hspec
      obtain ⟨rfl, rfl, rfl⟩ := heq
      exact hspec
    · simp only [hleft, hlt, if_true, if_false, Option.some.injEq, Prod.mk.injEq] at heq hspec
      obtain ⟨rfl, rfl, rfl⟩ := heq
      exact hspec
  · by_cases hright : toRight > 0
    · have hlt : pos < p.numItems := by grind
      rw [if_pos hlt] at htoRight
      have hspec := rebalanceToRight_spec hn hlt hfull hip hright htoRight.symm
      by_cases hgt : ip > (p.child pos).numItems - toRight
      · simp only [hleft, hright, hgt, if_true, if_false, Option.some.injEq, Prod.mk.injEq]
          at heq hspec
        obtain ⟨rfl, rfl, rfl⟩ := heq
        exact hspec
      · simp only [hleft, hright, hgt, if_true, if_false, Option.some.injEq, Prod.mk.injEq]
          at heq hspec
        obtain ⟨rfl, rfl, rfl⟩ := heq
        exact hspec
    · simp [hleft, hright] at heq

/-! ## a wrong count stays with its child

While the insertion of a split child is under way the count of the full
node is too large.  Rebalancing it then is rebalancing it with the right
count, and making the count too large afterwards. -/

omit [Inhabited α] in
/-- Dropping keys from the front commutes with a count that is off. -/
theorem dropFront_increase {c : BPTreeNode α} (hleaf : c.isLeaf = false) (count : Nat)
    (δ : UInt32) :
    (c.increaseTreeCount δ).dropFront count = (c.dropFront count).increaseTreeCount δ := by
  simp only [dropFront, increaseTreeCount, setTreeCount, treeCount, hleaf, Bool.false_eq_true,
    if_false]
  congr 1
  grind

omit [Inhabited α] in
/-- Dropping keys from the back does too. -/
theorem dropBack_increase {c : BPTreeNode α} (hleaf : c.isLeaf = false) (count : Nat)
    (δ : UInt32) :
    (c.increaseTreeCount δ).dropBack count = (c.dropBack count).increaseTreeCount δ := by
  simp only [dropBack, increaseTreeCount, setTreeCount, treeCount, hleaf, Bool.false_eq_true,
    if_false, numItems]
  congr 1
  grind

/-- A move to the left takes a wrong count along unchanged. -/
theorem rebalanceChildToLeft_increase {P : BPTreeNode α → Prop} (hn : NodeOK P false e p)
    (hpos : 0 < pos) (hle : pos ≤ p.numItems) (hleaf : (p.child pos).isLeaf = false)
    (count : Nat) (δ : UInt32) :
    (p.setChild pos ((p.child pos).increaseTreeCount δ)).rebalanceChildToLeft pos count =
      (p.rebalanceChildToLeft pos count).setChild pos
        (((p.rebalanceChildToLeft pos count).child pos).increaseTreeCount δ) := by
  obtain ⟨A, s, B, X, l, c, Y, hp, hA⟩ := hn.pair (i := pos - 1) (by omega)
  obtain rfl : pos = A.length + 1 := by omega
  rw [hp.child_right] at hleaf ⊢
  have hleft := (hp.setChild_right (c.increaseTreeCount δ)).rebalanceChildToLeft count
  have hright := (hp.rebalanceChildToLeft count).setChild_right
    ((c.dropFront count).increaseTreeCount δ)
  rw [dropFront_increase hleaf] at hleft
  rw [(hp.rebalanceChildToLeft count).child_right]
  exact hright.ext hleft rfl rfl

theorem rebalanceChildToRight_increase {P : BPTreeNode α → Prop} (hn : NodeOK P false e p)
    (hlt : pos < p.numItems) (hleaf : (p.child pos).isLeaf = false) (count : Nat) (δ : UInt32) :
    (p.setChild pos ((p.child pos).increaseTreeCount δ)).rebalanceChildToRight pos count =
      (p.rebalanceChildToRight pos count).setChild pos
        (((p.rebalanceChildToRight pos count).child pos).increaseTreeCount δ) := by
  obtain ⟨A, s, B, X, l, c, Y, hp, hA⟩ := hn.pair hlt
  subst hA
  rw [hp.child_left] at hleaf ⊢
  have hleft := (hp.setChild_left (l.increaseTreeCount δ)).rebalanceChildToRight count
  have hright := (hp.rebalanceChildToRight count).setChild_left
    ((l.dropBack count).increaseTreeCount δ)
  rw [dropBack_increase hleaf] at hleft
  rw [(hp.rebalanceChildToRight count).child_left]
  exact hright.ext hleft rfl rfl

theorem rebalanceChild_increase {P : BPTreeNode α → Prop} (hn : NodeOK P false e p)
    (hle : pos ≤ p.numItems) (hleaf : (p.child pos).isLeaf = false) (ip : Nat) (δ : UInt32) :
    (p.setChild pos ((p.child pos).increaseTreeCount δ)).rebalanceChild pos ip =
      (p.rebalanceChild pos ip).map fun res =>
        (res.1.setChild pos ((res.1.child pos).increaseTreeCount δ), res.2) := by
  have hlen := hn.length_children
  have hself : (p.setChild pos ((p.child pos).increaseTreeCount δ)).child pos =
      (p.child pos).increaseTreeCount δ := by
    refine child_setChild_self ?_ _
    unfold numItems at hle
    omega
  have hother (k : Nat) (hk : pos ≠ k) :
      (p.setChild pos ((p.child pos).increaseTreeCount δ)).child k = p.child k :=
    child_setChild_ne p _ hk
  have hnum : (p.setChild pos ((p.child pos).increaseTreeCount δ)).numItems = p.numItems := rfl
  have htoLeft : (if pos > 0 then moveCount
        ((p.setChild pos ((p.child pos).increaseTreeCount δ)).child (pos - 1)).availableSlotCount
        (ip == ((p.child pos).increaseTreeCount δ).numItems) else 0) =
      if pos > 0 then moveCount (p.child (pos - 1)).availableSlotCount
        (ip == (p.child pos).numItems) else 0 := by
    by_cases hpos : pos > 0
    · rw [if_pos hpos, if_pos hpos, hother (pos - 1) (by omega), increaseTreeCount_numItems]
    · rw [if_neg hpos, if_neg hpos]
  unfold rebalanceChild
  dsimp only
  rw [hself, hother (pos + 1) (by omega), htoLeft, hnum, increaseTreeCount_numItems]
  generalize hl : (if pos > 0 then moveCount (p.child (pos - 1)).availableSlotCount
    (ip == (p.child pos).numItems) else 0) = toLeft
  generalize hr : (if pos < p.numItems then
    moveCount (p.child (pos + 1)).availableSlotCount (ip == 0) else 0) = toRight
  by_cases hleft : toLeft > 0
  · have hpos : 0 < pos := by grind
    rw [if_pos hleft, if_pos hleft, rebalanceChildToLeft_increase hn hpos hle hleaf,
      hother (pos - 1) (by omega)]
    split <;> rfl
  · rw [if_neg hleft, if_neg hleft]
    by_cases hright : toRight > 0
    · have hlt : pos < p.numItems := by grind
      rw [if_pos hright, if_pos hright, rebalanceChildToRight_increase hn hlt hleaf]
      split <;> rfl
    · rw [if_neg hright, if_neg hright]
      rfl

end Rebalance

end BPTreeNode

end AstraKV
