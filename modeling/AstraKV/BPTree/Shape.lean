import AstraKV.BPTree.Run

/-!
# AstraKV.BPTree.Shape

The shape of the trees that `Insert` and `Delete` build: the depth of
their leaves, the counters, and how full their nodes are.

None of the operations promises balance by itself; it is part of the invariant
that each of them keeps, and this module reads it off. All leaves lie at one
depth, the cached counts of every node are those of its subtree, the three
counters of the tree agree with what is there, and each node but the root
keeps within the bounds of `fill` and `cap`.
-/

universe u

namespace AstraKV

open Weave Cut BPTreeNode

namespace BPTreeNode

variable {α : Type u} {h : Nat} {n m : BPTreeNode α}

/-! ## depths -/

mutual
/-- The number of nodes on the way to each leaf, the leaf included. -/
def leafDepths : BPTreeNode α → List Nat
  | ⟨leaf, _, cs, _⟩ => if leaf then [1] else (leafDepthsOf cs).map (· + 1)

def leafDepthsOf : List (BPTreeNode α) → List Nat
  | [] => []
  | c :: cs => leafDepths c ++ leafDepthsOf cs
end

/-- The leaves below a node lie one deeper than below its children. -/
theorem leafDepths_eq (n : BPTreeNode α) :
    n.leafDepths = if n.isLeaf then [1] else (leafDepthsOf n.children).map (· + 1) := by
  obtain ⟨leaf, ks, cs, cnt⟩ := n
  rw [leafDepths]

/-- A leaf below some children lies below one of them. -/
theorem mem_leafDepthsOf {cs : List (BPTreeNode α)} {d : Nat} :
    d ∈ leafDepthsOf cs ↔ ∃ c ∈ cs, d ∈ c.leafDepths := by
  induction cs with
  | nil => simp [leafDepthsOf]
  | cons c cs ih => simp [leafDepthsOf, ih]

/-- All leaves of a sound tree are at the same depth. -/
theorem Sound.leafDepths (hn : Sound h n) :
    n.leafDepths ≠ [] ∧ ∀ d ∈ n.leafDepths, d = h + 1 := by
  induction h generalizing n with
  | zero =>
      rw [leafDepths_eq, hn.isLeaf]
      exact ⟨by simp, by simp⟩
  | succ h ih =>
      have hnode : NodeOK (Good h) false 0 n := hn
      rw [leafDepths_eq, hnode.isLeaf]
      constructor
      · obtain ⟨c, hc⟩ : ∃ c, c ∈ n.children := by
          have hlen := hnode.length_children
          exact List.exists_mem_of_length_pos (by omega)
        obtain ⟨d, hd⟩ := List.exists_mem_of_ne_nil _ (ih (hnode.child c hc).1).1
        have hmem : d ∈ leafDepthsOf n.children := mem_leafDepthsOf.mpr ⟨c, hc, hd⟩
        intro hnil
        have hempty : leafDepthsOf n.children = [] := List.map_eq_nil_iff.mp hnil
        rw [hempty] at hmem
        simp at hmem
      · intro d hd
        obtain ⟨d', hd', rfl⟩ := List.mem_map.mp hd
        obtain ⟨c, hc, hdc⟩ := mem_leafDepthsOf.mp hd'
        rw [(ih (hnode.child c hc).1).2 d' hdc]

/-! ## counting -/

/-- Counting recounts the keys of the node and of its children. -/
theorem debugTreeCount_eq (n : BPTreeNode α) :
    n.debugTreeCount =
      UInt32.ofNat n.numItems + if n.isLeaf then 0 else debugTreeCounts n.children := by
  obtain ⟨leaf, ks, cs, cnt⟩ := n
  rw [debugTreeCount]
  rfl

/-- Recounting the children gives their size, modulo 2^32. -/
theorem debugTreeCounts_eq {cs : List (BPTreeNode α)}
    (hcs : ∀ c ∈ cs, c.debugTreeCount = UInt32.ofNat c.toList.length) :
    debugTreeCounts cs = UInt32.ofNat (totalSize cs) := by
  induction cs with
  | nil => rfl
  | cons c cs ih =>
      rw [debugTreeCounts, hcs c List.mem_cons_self,
        ih fun d hd => hcs d (List.mem_cons_of_mem c hd), totalSize_cons, UInt32.ofNat_add]

/-- Counting the keys of a sound tree gives what its root has cached. -/
theorem Sound.debugTreeCount (hn : Sound h n) :
    n.debugTreeCount = UInt32.ofNat n.toList.length := by
  induction h generalizing n with
  | zero =>
      have hnode : NodeOK (ChildOf 0) true 0 n := (sound_iff 0 n).mp hn
      rw [debugTreeCount_eq, hnode.isLeaf, hnode.leaf_toList]
      simp [numItems]
  | succ h ih =>
      have hnode : NodeOK (Good h) false 0 n := hn
      rw [debugTreeCount_eq, hnode.isLeaf, length_toList,
        debugTreeCounts_eq fun c hc => ih (hnode.child c hc).1, UInt32.ofNat_add]
      rfl

/-- Every node below a good one is good at its own height. -/
theorem Good.of_mem_subtrees (hn : Good h n) (hm : m ∈ n.subtrees) : ∃ h', Good h' m := by
  induction h generalizing n with
  | zero =>
      have hnode : NodeOK (ChildOf 0) true 0 n := (sound_iff 0 n).mp hn.1
      rw [subtrees_eq, hnode.children_nil, subtreesOf, List.mem_singleton] at hm
      exact ⟨0, hm ▸ hn⟩
  | succ h ih =>
      have hnode : NodeOK (Good h) false 0 n := hn.1
      rw [subtrees_eq, List.mem_cons] at hm
      cases hm with
      | inl hm => exact ⟨h + 1, hm ▸ hn⟩
      | inr hm =>
          obtain ⟨c, hc, hmc⟩ := mem_subtreesOf.mp hm
          exact ih (hnode.child c hc) hmc

/-- Every node below the root of a sound tree is good. -/
theorem Sound.good_below (hn : Sound h n) (hm : m ∈ subtreesOf n.children) :
    ∃ h', Good h' m := by
  obtain ⟨c, hc, hmc⟩ := mem_subtreesOf.mp hm
  cases h with
  | zero => exact (hn.child c hc).elim
  | succ h =>
      have hnode : NodeOK (Good h) false 0 n := hn
      exact (hnode.child c hc).of_mem_subtrees hmc

/-- Every node below a sound one is sound at its own height. -/
theorem Sound.of_mem_subtrees (hn : Sound h n) (hm : m ∈ n.subtrees) : ∃ h', Sound h' m := by
  rw [subtrees_eq, List.mem_cons] at hm
  cases hm with
  | inl hm => exact ⟨h, hm ▸ hn⟩
  | inr hm =>
      obtain ⟨h', hgood⟩ := hn.good_below hm
      exact ⟨h', hgood.1⟩

/-- Children with at least one key a block have no more blocks than keys. -/
theorem nodesOf_le {cs : List (BPTreeNode α)} (hcs : ∀ c ∈ cs, c.nodes ≤ c.toList.length) :
    nodesOf cs ≤ totalSize cs := by
  induction cs with
  | nil => simp
  | cons c cs ih =>
      have hc := hcs c List.mem_cons_self
      have hrest := ih fun d hd => hcs d (List.mem_cons_of_mem c hd)
      rw [nodesOf_cons, totalSize_cons]
      omega

/-- Every node holds a key, so there are no more nodes than keys, and no more levels than nodes. -/
theorem Sound.nodes_le (hn : Sound h n) (hpos : 0 < n.numItems) :
    h + 1 ≤ n.nodes ∧ n.nodes ≤ n.toList.length := by
  unfold numItems at hpos
  induction h generalizing n with
  | zero =>
      have hnode : NodeOK (ChildOf 0) true 0 n := (sound_iff 0 n).mp hn
      rw [nodes_eq, hnode.children_nil, nodesOf_nil, hnode.leaf_toList]
      omega
  | succ h ih =>
      have hnode : NodeOK (Good h) false 0 n := hn
      have hlen := hnode.length_children
      have hchild (c : BPTreeNode α) (hc : c ∈ n.children) := by
        have hgood := hnode.child c hc
        have hcpos := hgood.numItems_pos
        unfold numItems at hcpos
        exact ih hgood.1 hcpos
      have hsum := nodesOf_le fun c hc => (hchild c hc).2
      have hdeep : h + 1 ≤ nodesOf n.children := by
        obtain ⟨c, cs, hcs⟩ := List.exists_cons_of_length_pos (l := n.children) (by omega)
        have hc := hchild c (by rw [hcs]; exact List.mem_cons_self)
        rw [hcs, nodesOf_cons]
        omega
      rw [nodes_eq, length_toList]
      omega

end BPTreeNode

namespace BPTree

variable {α : Type u} [LinearOrder α] [Inhabited α]

/-! ## the counters of a reachable tree -/

/-- In every reachable tree the leaves are at one depth, inner nodes have one child more than
keys, cached counts are the counted ones, and the three counters of the tree are right modulo
`2 ^ 32`.  The last two bounds make them exact while the tree has fewer than `2 ^ 32` keys. -/
theorem reach_counters (ops : List (BPTreeOp α)) :
    match (reach ops).root with
    | none => (reach ops).count = 0 ∧ (reach ops).height = 0 ∧ (reach ops).numNodes = 0
    | some root => ∃ depth, root.leafDepths ≠ [] ∧ (∀ d ∈ root.leafDepths, d = depth) ∧
        (∀ m ∈ root.subtrees, m.isLeaf = false →
          m.children.length = m.keys.length + 1 ∧ m.treeCount = m.debugTreeCount ∧
          m.treeCount.toNat = m.toList.length % 2 ^ 32) ∧
        (reach ops).height.toNat = depth % 2 ^ 32 ∧
        (reach ops).count.toNat = root.toList.length % 2 ^ 32 ∧
        (reach ops).numNodes.toNat = root.subtrees.length % 2 ^ 32 ∧
        depth ≤ root.subtrees.length ∧ root.subtrees.length ≤ root.toList.length := by
  have hholds := (reach_represents ops).holds
  have hcount := hholds.count
  obtain ⟨hroot, hnil, hheight, hnodes⟩ | ⟨root, H, N, hroot, htree, hheight, hnodes⟩ :=
    hholds.shape
  · rw [hroot]
    rw [hnil] at hcount
    exact ⟨hcount, hheight, hnodes⟩
  · rw [hroot]
    obtain ⟨hne, hdepth⟩ := htree.sound.leafDepths
    obtain ⟨hlevels, hkeys⟩ := htree.sound.nodes_le htree.pos
    refine ⟨H + 1, hne, hdepth, fun m hm hinner => ?_, ?_, ?_, ?_, hlevels, hkeys⟩
    · obtain ⟨h', hm'⟩ := htree.sound.of_mem_subtrees hm
      have hcounted : m.treeCount = UInt32.ofNat m.toList.length := hm'.counted
      have hnode := (sound_iff h' m).mp hm'
      have hfits := hnode.fits
      rw [← hnode.isLeaf, hinner] at hfits
      refine ⟨hfits, hcounted.trans hm'.debugTreeCount.symm, ?_⟩
      rw [hcounted]
      exact UInt32.toNat_ofNat'
    · rw [hheight]
      exact UInt32.toNat_ofNat'
    · rw [hcount, ← htree.toList]
      exact UInt32.toNat_ofNat'
    · rw [hnodes, ← htree.nodes]
      exact UInt32.toNat_ofNat'

/-- With `2 ^ 32` keys in the tree its key counter is back at zero. -/
theorem count_wraps :
    (reach (fillTo (2 ^ 32))).inOrder.length = 2 ^ 32 ∧
    (reach (fillTo (2 ^ 32))).count.toNat = 0 := by
  have hrep := reach_represents (fillTo (2 ^ 32))
  have hlen : (reach (fillTo (2 ^ 32))).inOrder.length = 2 ^ 32 := by
    rw [← hrep.card, members_fillTo, Finset.card_range]
  refine ⟨hlen, ?_⟩
  rw [hrep.holds.count, hlen]
  rfl

/-! ## how full the nodes are -/

/-- The nodes of a tree other than its root. -/
def belowRoot (t : BPTree α) : List (BPTreeNode α) :=
  match t.root with
  | none => []
  | some root => subtreesOf root.children

/-- In every reachable tree a leaf below the root holds at least `MinItems()` keys, an inner node
at least one less, and no node more than `MaxItems()`. -/
theorem reach_occupancy (ops : List (BPTreeOp α)) :
    ∀ m ∈ (reach ops).belowRoot,
      m.minItems ≤ m.numItems + (if m.isLeaf then 0 else 1) ∧ m.numItems ≤ m.maxItems := by
  intro m hm
  obtain ⟨hroot, -⟩ | ⟨root, H, N, hroot, htree, -⟩ := (reach_represents ops).holds.shape
  · rw [belowRoot, hroot] at hm
    simp at hm
  · rw [belowRoot, hroot] at hm
    obtain ⟨h, hgood⟩ := htree.sound.good_below hm
    have hfill := hgood.fill_le
    have hbounds := low_bounds h
    rw [hgood.1.minItems, hgood.1.maxItems, hgood.1.isLeaf]
    refine ⟨?_, hgood.1.le_cap⟩
    cases h with
    | zero => exact hfill
    | succ h =>
        rw [fill_succ] at hfill
        show 5 ≤ m.numItems + 1
        omega

/-- 176 keys in descending order: there are inner nodes below the root. -/
theorem reach_occupancy_inner :
    ∃ m ∈ (reach ((List.range 176).reverse.map (BPTreeOp.insert (α := Nat)))).belowRoot,
      m.isLeaf = false ∧ m.minItems ≤ m.numItems + 1 ∧ m.numItems ≤ m.maxItems := by
  have hinner : ∃ m ∈ (reach ((List.range 176).reverse.map (BPTreeOp.insert (α := Nat)))).belowRoot,
      m.isLeaf = false := by
    decide +kernel
  obtain ⟨m, hm, hleaf⟩ := hinner
  have hbounds := reach_occupancy _ m hm
  rw [hleaf, if_neg Bool.false_ne_true] at hbounds
  exact ⟨m, hm, hleaf, hbounds⟩

/-- Inserting 175, 174, …, 0 splits a full inner node while its first child overflows: the
right half is left with four keys. -/
theorem descending_inserts_underfull :
    ∃ m ∈ (reach ((List.range 176).reverse.map (BPTreeOp.insert (α := Nat)))).belowRoot,
      m.isLeaf = false ∧ m.numItems = 4 ∧ m.numItems < m.minItems := by
  decide +kernel

end BPTree

end AstraKV
