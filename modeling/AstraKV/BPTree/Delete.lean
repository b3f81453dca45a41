import AstraKV.BPTree.Insert
import AstraKV.BPTree.Walk

/-!
# AstraKV.BPTree.Delete

`Delete`: from a leaf, or by pulling up the predecessor of a separator,
and then merging or rebalancing up the path.

Below the remaining path lies a sound subtree which has lost one key and
may be one key short; the ancestors still count that key.

`Short` names that one weak child, `Repaired` what `MergeOrRebalanceChild`
makes of its parent, and `Stored` the tree at the end of the climb. A merge
takes a key from the parent, which may now be short itself, so the climb goes
on; a rebalance leaves the parent as full as it was, so the climb ends there.
The root is the exception of both: it may hold a single key, and it goes when
its last key is merged away.
-/

universe u

namespace AstraKV

open Weave Cut ListEdit BPTreeNode BPTreePath

variable {α : Type u}

namespace BPTreeNode

variable {n m l c d p : BPTreeNode α} {A B : List α} {s : α} {X Y : List (BPTreeNode α)}
  {P Q : BPTreeNode α → Prop} {e : UInt32} {h pos : Nat}

/-! ## merging two children -/

/-- The parent after its children `l` and `c` were merged into `m`. -/
theorem PairAt.shiftLeft (hp : PairAt n A s B X l c Y) (hleaf : n.isLeaf = false)
    (m : BPTreeNode α) :
    ((n.setChild A.length m).shiftLeft A.length true).keys = A ++ B ∧
    ((n.setChild A.length m).shiftLeft A.length true).children = X ++ m :: Y := by
  have hset := hp.setChild_left m
  have hnum := hset.numItems
  constructor
  · unfold BPTreeNode.shiftLeft
    simp only [hset.keys]
    exact eraseIdx_append rfl
  · unfold BPTreeNode.shiftLeft
    have hleaf' : (n.setChild A.length m).isLeaf = false := hleaf
    simp only [hleaf', Bool.false_eq_true, if_false, hnum, hset.children]
    by_cases hlast : 0 < B.length
    · rw [if_pos (by omega), List.append_cons, List.append_cons X m Y]
      simp only [if_true]
      exact eraseIdx_append (by simp [hset.length_left])
    · -- the last child falls off without being moved over
      have hB : B = [] := List.length_eq_zero_iff.mp (by omega)
      have hY : Y = [] := List.length_eq_zero_iff.mp (by rw [hset.length_right, hB]; rfl)
      rw [if_neg (by omega), hY]
      simp

/-- Two children and their separator became the one child `m`. -/
theorem PairAt.merge (hp : PairAt n A s B X l c Y) (hn : NodeOK P false e n)
    (hlist : m.toList = l.toList ++ s :: c.toList) (hnodes : m.nodes + 1 = l.nodes + c.nodes)
    (hQ : ∀ d ∈ X ++ Y, Q d) (hm : Q m) :
    NodeOK Q false e ((n.setChild A.length m).shiftLeft A.length true) ∧
    ((n.setChild A.length m).shiftLeft A.length true).toList = n.toList ∧
    ((n.setChild A.length m).shiftLeft A.length true).numItems + 1 = n.numItems ∧
    ((n.setChild A.length m).shiftLeft A.length true).nodes + 1 = n.nodes := by
  obtain ⟨hkeys, hchildren⟩ := hp.shiftLeft hn.isLeaf m
  have htoList : ((n.setChild A.length m).shiftLeft A.length true).toList = n.toList := by
    rw [BPTreeNode.toList_eq, hkeys, hchildren, List.map_append, List.map_cons,
      weave_focus _ (by rw [List.length_map, hp.length_left]), hp.toList_eq, hlist]
  have hnum : ((n.setChild A.length m).shiftLeft A.length true).numItems + 1 = n.numItems := by
    rw [BPTreeNode.numItems, hkeys, hp.numItems, List.length_append]
    omega
  refine ⟨⟨hn.isLeaf, ?_, ?_, ?_, ?_⟩, htoList, hnum, ?_⟩
  · simp only [Fits, Bool.false_eq_true, if_false, hkeys, hchildren, List.length_append,
      List.length_cons, hp.length_left, hp.length_right]
    omega
  · have hmax := hn.le_max
    have hsame : ((n.setChild A.length m).shiftLeft A.length true).maxItems = n.maxItems := rfl
    omega
  · have hcount := hn.count
    have hleaf : ((n.setChild A.length m).shiftLeft A.length true).isLeaf = false := hn.isLeaf
    rw [treeCount, hn.isLeaf] at hcount
    rw [treeCount, hleaf, htoList]
    exact hcount
  · intro d hd
    rw [hchildren] at hd
    grind
  · rw [BPTreeNode.nodes_eq, hchildren, nodesOf_append, nodesOf_cons, hp.nodes_eq]
    omega

/-! ## MergeOrRebalanceChild -/

section Repair

variable [Inhabited α]

/-- What `MergeOrRebalanceChild` leaves of the parent `p`, the number of keys and nodes it
lost told by the flag. -/
structure Repaired (h : Nat) (e : UInt32) (p : BPTreeNode α) (res : BPTreeNode α × Bool) :
    Prop where
  node : NodeOK (Good h) false e res.1
  toList : res.1.toList = p.toList
  numItems : res.1.numItems + (if res.2 then 1 else 0) = p.numItems
  nodes : res.1.nodes + (if res.2 then 1 else 0) = p.nodes

/-- The child at `pos` is one key short at most, all others are good. -/
structure Short (h : Nat) (p : BPTreeNode α) (pos : Nat) : Prop where
  sound : Sound h (p.child pos)
  few : (p.child pos).numItems < low h
  fill_le : fill h ≤ (p.child pos).numItems + 1
  others : ∀ i, i ≠ pos → ∀ d, p.children[i]? = some d → Good h d

omit [Inhabited α] in
/-- Replacing two neighbouring children leaves what holds of the others. -/
theorem PairAt.others (hp : PairAt p A s B X l c Y)
    (hothers : ∀ i, i ≠ A.length → i ≠ A.length + 1 → ∀ d, p.children[i]? = some d → Q d) :
    ∀ d ∈ X ++ Y, Q d := by
  intro d hd
  have hX := hp.length_left
  cases List.mem_append.mp hd with
  | inl hd =>
      obtain ⟨i, hi, rfl⟩ := List.getElem_of_mem hd
      refine hothers i (by omega) (by omega) _ ?_
      rw [hp.children, List.getElem?_append_left hi, List.getElem?_eq_getElem hi]
  | inr hd =>
      obtain ⟨i, hi, rfl⟩ := List.getElem_of_mem hd
      refine hothers (A.length + 2 + i) (by omega) (by omega) _ ?_
      rw [hp.children, List.getElem?_append_right (by omega),
        show A.length + 2 + i - X.length = i + 1 + 1 by omega, List.getElem?_cons_succ,
        List.getElem?_cons_succ, List.getElem?_eq_getElem hi]

omit [Inhabited α] in
/-- Merging the pair `l`, `c` where one of the two is short. -/
theorem repair_merge (hp : PairAt p A s B X l c Y) (hn : NodeOK P false e p)
    (hl : Sound h l) (hc : Sound h c) (hothers : ∀ d ∈ X ++ Y, Good h d)
    (hroom : l.numItems + 1 + c.numItems ≤ cap h) (hfill : fill h ≤ l.numItems + 1 + c.numItems) :
    Repaired h e p
      ((p.setChild A.length (l.mergeFromRight s c)).shiftLeft A.length true, true) := by
  obtain ⟨hmerge, hlist, hchildren, hnum⟩ :=
    merge_spec ((sound_iff h l).mp hl) ((sound_iff h c).mp hc) s (by rw [hl.maxItems]; exact hroom)
  rw [UInt32.add_zero] at hmerge
  have hgood : Good h (l.mergeFromRight s c) :=
    Sound.good ((sound_iff h _).mpr hmerge) (by rw [hnum]; exact hfill)
  have hnodes : (l.mergeFromRight s c).nodes + 1 = l.nodes + c.nodes := by
    rw [BPTreeNode.nodes_eq, hchildren, nodesOf_append, BPTreeNode.nodes_eq l,
      BPTreeNode.nodes_eq c]
    omega
  obtain ⟨hnode, htoList, hnumItems, hnodes'⟩ := hp.merge hn hlist hnodes hothers hgood
  exact ⟨hnode, htoList, hnumItems, hnodes'⟩

omit [Inhabited α] in
/-- The pair of the short child and its left sibling. -/
theorem Short.pairLeft (hshort : Short h p pos) (hn : NodeOK P false e p) (hpos : 0 < pos)
    (hle : pos ≤ p.numItems) :
    ∃ A s B X l Y, PairAt p A s B X l (p.child pos) Y ∧ A.length + 1 = pos ∧
      p.child (pos - 1) = l ∧ Good h l ∧ ∀ d ∈ X ++ Y, Good h d := by
  obtain ⟨A, s, B, X, l, c, Y, hp, hA⟩ := hn.pair (i := pos - 1) (by omega)
  obtain rfl : pos = A.length + 1 := by omega
  rw [hp.child_right, Nat.add_sub_cancel]
  exact ⟨A, s, B, X, l, Y, hp, rfl, hp.child_left,
    hshort.others A.length (by omega) l hp.getElem?_left,
    hp.others fun i _ hi => hshort.others i hi⟩

omit [Inhabited α] in
/-- The pair of the short child and its right sibling. -/
theorem Short.pairRight (hshort : Short h p pos) (hn : NodeOK P false e p)
    (hlt : pos < p.numItems) :
    ∃ A s B X c Y, PairAt p A s B X (p.child pos) c Y ∧ A.length = pos ∧
      p.child (pos + 1) = c ∧ Good h c ∧ ∀ d ∈ X ++ Y, Good h d := by
  obtain ⟨A, s, B, X, l, c, Y, hp, hA⟩ := hn.pair hlt
  subst hA
  rw [hp.child_left]
  exact ⟨A, s, B, X, c, Y, hp, rfl, hp.child_right,
    hshort.others (A.length + 1) (by omega) c hp.getElem?_right,
    hp.others fun i hi _ => hshort.others i hi⟩

/-- One call repairs the short child, by a merge or by a rebalance. -/
theorem mergeOrRebalanceChild_spec (hn : NodeOK P false e p) (hle : pos ≤ p.numItems)
    (hpos : 0 < p.numItems) (hshort : Short h p pos) :
    Repaired h e p (p.mergeOrRebalanceChild pos) := by
  have hsound := hshort.sound
  have hfew := hshort.few
  have hfill := hshort.fill_le
  have hbounds := low_bounds h
  unfold mergeOrRebalanceChild
  dsimp only
  by_cases hmergeLeft : pos > 0 ∧
      (p.child (pos - 1)).numItems + 1 + (p.child pos).numItems ≤ (p.child (pos - 1)).maxItems
  · -- merge into the left sibling
    rw [if_pos hmergeLeft]
    obtain ⟨A, s, B, X, l, Y, hp, hA, hchild, hl, hothers⟩ :=
      hshort.pairLeft hn hmergeLeft.1 hle
    have hroom := hmergeLeft.2
    have hfillL := hl.fill_le
    rw [hchild, hl.1.maxItems] at hroom
    rw [hchild, ← hA, Nat.add_sub_cancel, hp.key_eq, hA]
    exact repair_merge hp hn hl.1 hsound hothers hroom (by omega)
  · rw [if_neg hmergeLeft]
    by_cases hlt : pos < p.numItems
    · obtain ⟨A, s, B, X, c, Y, hp, hA, hchild, hc, hothers⟩ := hshort.pairRight hn hlt
      have hfillC := hc.fill_le
      have hcapC := hc.1.le_cap
      rw [if_pos hlt, hchild, hc.1.maxItems]
      by_cases hroom : (p.child pos).numItems + 1 + c.numItems ≤ cap h
      · -- merge with the right sibling
        have hspec := repair_merge hp hn hsound hc.1 hothers hroom (by omega)
        have hkey := hp.key_eq
        rw [hA] at hspec hkey
        rw [if_pos hroom, hkey]
        exact hspec
      · -- take items over from the right sibling
        obtain ⟨hnode, hlist, hnodes, -⟩ := hp.moveLeft
          ((c.numItems - (p.child pos).numItems) / 2) hn hsound hc.1 hothers
          (by omega) (by omega) (by omega) (by omega)
        have hnum := (hp.rebalanceChildToLeft
          ((c.numItems - (p.child pos).numItems) / 2)).numItems
        rw [← hp.numItems] at hnum
        rw [hA] at hnode hlist hnodes hnum
        rw [if_neg hroom]
        exact ⟨hnode, hlist, hnum, hnodes⟩
    · -- only a left sibling, too full to merge with: take items over from it
      have hpos' : 0 < pos := by omega
      obtain ⟨A, s, B, X, l, Y, hp, hA, hchild, hl, hothers⟩ := hshort.pairLeft hn hpos' hle
      have hroom : ¬ l.numItems + 1 + (p.child pos).numItems ≤ cap h := by
        intro hroom
        refine hmergeLeft ⟨hpos', ?_⟩
        rw [hchild, hl.1.maxItems]
        exact hroom
      have hfillL := hl.fill_le
      have hcapL := hl.1.le_cap
      obtain ⟨hnode, hlist, hnodes, -⟩ := hp.moveRight
        ((l.numItems - (p.child pos).numItems) / 2) hn hl.1 hsound hothers
        (by omega) (by omega) (by omega) (by omega)
      have hnum := (hp.rebalanceChildToRight
        ((l.numItems - (p.child pos).numItems) / 2)).numItems
      rw [← hp.numItems] at hnum
      have hA' : pos - 1 = A.length := by omega
      rw [if_neg hlt, if_pos hpos', hchild, hA']
      exact ⟨hnode, hlist, hnum, hnodes⟩

end Repair

end BPTreeNode

/-- A new separator changes nothing but what comes right after the hole. -/
theorem FrameOK.setKey {P : BPTreeNode α → Prop} {i t : Nat} {m : BPTreeNode α}
    (hr : FrameOK P t ⟨m, i⟩) (k : α)
    (hafter : (PathRecord.after ⟨m.setKey i k, i⟩).length = (PathRecord.after ⟨m, i⟩).length) :
    FrameOK P t ⟨m.setKey i k, i⟩ where
  isLeaf := hr.isLeaf
  length_children := by
    have hlen := hr.length_children
    simp only [BPTreeNode.setKey, List.length_set]
    exact hlen
  pos_le := by
    have hle := hr.pos_le
    simp only [BPTreeNode.setKey, List.length_set]
    exact hle
  le_max := by
    have hmax := hr.le_max
    simp only [BPTreeNode.setKey, List.length_set]
    exact hmax
  pos_keys := by
    have hpos := hr.pos_keys
    simp only [BPTreeNode.setKey, List.length_set]
    exact hpos
  others := hr.others
  count := by
    have hcount := hr.count
    have hbefore : PathRecord.before ⟨m.setKey i k, i⟩ = PathRecord.before ⟨m, i⟩ := by
      simp [PathRecord.before, BPTreeNode.setKey, List.take_set_of_le]
    rw [hbefore, hafter]
    exact hcount

namespace BPTree

variable [Inhabited α] {h s : Nat} {path : BPTreePath α}

/-! ## up the path -/

omit [Inhabited α] in
/-- A subtree with one key less, written back below its ancestors. -/
theorem writeBack_less {node : BPTreeNode α} (hframes : FramesOK h s path)
    (hnode : Fitting h path node) (hs : s = node.toList.length + 1)
    (hpos : path = [] → 0 < node.numItems) :
    TreeOf (h + path.length) (node.nodes + nodesAround path)
      (before path ++ node.toList ++ after path)
      (writeBack node (increaseSubtreeCounts path (-1))) := by
  refine writeBack_spec hframes hnode ?_ hpos
  rw [hs, UInt32.ofNat_add]
  grind

/-- The root is left without a key: the tree shrinks. -/
theorem shrink_spec {t : BPTree α} {node : BPTreeNode α} (hnode : Sound h node)
    (hzero : node.numItems = 0) (hheight : t.height = UInt32.ofNat (h + 1))
    (hnodes : t.numNodes = UInt32.ofNat node.nodes) :
    Stored (rebalanceUp t node []) node.toList := by
  have hmin : node.numItems < node.minItems := by
    have hbounds := low_bounds h
    rw [hnode.minItems]
    omega
  unfold rebalanceUp
  rw [if_pos ⟨hmin, hzero⟩]
  have hkeys : node.keys = [] := List.length_eq_zero_iff.mp hzero
  cases h with
  | zero =>
      have hleaf : NodeOK (ChildOf 0) true 0 node := (sound_iff 0 node).mp hnode
      have hone : node.nodes = 1 := by rw [nodes_eq, hleaf.children_nil, nodesOf_nil]
      rw [if_pos hleaf.isLeaf]
      refine Or.inl ⟨rfl, by rw [hleaf.leaf_toList, hkeys], ?_, ?_⟩
      · show t.height - 1 = 0
        rw [hheight]
        rfl
      · show t.numNodes - 1 = 0
        rw [hnodes, hone]
        rfl
  | succ h =>
      have hinner : NodeOK (Good h) false 0 node := hnode
      obtain ⟨c, hc⟩ : ∃ c, node.children = [c] := by
        have hlen := hinner.length_children
        rw [hkeys] at hlen
        exact List.length_eq_one_iff.mp hlen
      have hgood : Good h c := hinner.child c (by rw [hc]; exact List.mem_cons_self)
      have hchild : node.child 0 = c := by rw [child, hc]; rfl
      have hlist : node.toList = c.toList := by rw [toList_eq, hc, hkeys]; simp [tailWeave]
      have hsize : node.nodes = c.nodes + 1 := by rw [nodes_eq, hc]; simp
      rw [if_neg (by rw [hinner.isLeaf]; simp), hlist]
      refine Or.inr (Shaped.of_tree rfl (H := h) (N := c.nodes) ?_ ?_ ?_)
      · rw [hchild]
        exact ⟨hgood.1, hgood.numItems_pos, rfl, rfl⟩
      · show t.height - 1 = _
        rw [hheight]
        simp only [UInt32.ofNat_add]
        grind
      · show t.numNodes - 1 = _
        rw [hnodes, hsize]
        simp only [UInt32.ofNat_add]
        grind

/-- The climb leaves the number of keys alone. -/
theorem rebalanceUp_count (t : BPTree α) (node : BPTreeNode α) (path : BPTreePath α) :
    (rebalanceUp t node path).count = t.count := by
  induction path generalizing t node with
  | nil =>
      unfold rebalanceUp destroyNode
      by_cases hend : node.numItems < node.minItems ∧ node.numItems = 0
      · rw [if_pos hend]
        by_cases hleaf : node.isLeaf = true
        · rw [if_pos hleaf]
        · rw [if_neg hleaf]
      · rw [if_neg hend]
  | cons r rest ih =>
      unfold rebalanceUp
      by_cases hfew : node.numItems < node.minItems
      · rw [if_pos hfew]
        dsimp only
        by_cases hretired : ((r.node.setChild r.pos node).mergeOrRebalanceChild r.pos).2 = true
        · rw [if_pos hretired, ih]
          rfl
        · rw [if_neg hretired]
      · rw [if_neg hfew]

/-- The climb gives a sound tree that reads the path around the node it started from. -/
theorem rebalanceUp_spec {t : BPTree α} {node : BPTreeNode α} (hframes : FramesOK h s path)
    (hnode : Sound h node) (hs : s = node.toList.length + 1)
    (hfill : path ≠ [] → fill h ≤ node.numItems + 1)
    (hheight : t.height = UInt32.ofNat (h + path.length + 1))
    (hnodes : t.numNodes = UInt32.ofNat (node.nodes + nodesAround path)) :
    Stored (rebalanceUp t node path) (before path ++ node.toList ++ after path) := by
  induction path generalizing t h s node with
  | nil =>
      rw [before, after, List.append_nil, List.nil_append]
      by_cases hzero : node.numItems = 0
      · exact shrink_spec hnode hzero hheight hnodes
      · unfold rebalanceUp
        rw [if_neg (by omega)]
        exact Or.inr (Shaped.of_tree rfl ⟨hnode, Nat.pos_of_ne_zero hzero, rfl, rfl⟩
          hheight hnodes)
  | cons r rest ih =>
      have hbounds := low_bounds h
      have hfill' := hfill (by simp)
      unfold rebalanceUp
      rw [hnode.minItems]
      by_cases hfew : node.numItems < low h
      · rw [if_pos hfew]
        dsimp only
        obtain ⟨hr, hrfill, hrest⟩ := hframes
        have hchild := hr.child_setChild node
        have hpar := hr.setChild_nodeOK (Q := Sound h) (fun d hd => hd.1) hnode
        have hshort : Short h (r.node.setChild r.pos node) r.pos := by
          refine ⟨by rw [hchild]; exact hnode, by rw [hchild]; exact hfew,
            by rw [hchild]; exact hfill', fun i hi d hd => hr.others d ?_⟩
          unfold setChild at hd
          simp only at hd
          rw [List.getElem?_set_ne (Ne.symm hi)] at hd
          exact PathRecord.mem_others hi hd
        have hspec := mergeOrRebalanceChild_spec hpar hr.pos_le hr.pos_keys hshort
        generalize (r.node.setChild r.pos node).mergeOrRebalanceChild r.pos = res at hspec
        obtain ⟨parent, retired⟩ := res
        obtain ⟨hparent, htoList, hnum, hsize⟩ := hspec
        have hsound : Sound (h + 1) (parent.increaseTreeCount (-1)) := by
          have hfixed := hparent.increaseTreeCount (-1)
          have hzero : UInt32.ofNat s - UInt32.ofNat node.toList.length + -1 = 0 := by
            rw [hs, UInt32.ofNat_add]
            grind
          rw [hzero] at hfixed
          exact hfixed
        have hlist : (parent.increaseTreeCount (-1)).toList =
            r.before ++ node.toList ++ r.after := by
          rw [increaseTreeCount_toList, ← hr.setChild_toList]
          exact htoList
        have hs' : r.before.length + s + r.after.length =
            (parent.increaseTreeCount (-1)).toList.length + 1 := by
          rw [hlist, hs]
          simp only [List.length_append]
          omega
        have hrnum : (r.node.setChild r.pos node).numItems = r.node.numItems := rfl
        have hrsize := hr.setChild_nodes node
        have hmin (hne : rest ≠ []) : fill (h + 1) ≤ r.node.numItems := by
          have hrfill' := hrfill hne
          rw [minFill, hr.isLeaf] at hrfill'
          exact hrfill'
        have hwhole : before (r :: rest) ++ node.toList ++ after (r :: rest) =
            before rest ++ (parent.increaseTreeCount (-1)).toList ++ after rest := by
          rw [hlist, before, after]
          simp only [List.append_assoc]
        rw [hwhole]
        cases retired with
        | true =>
            simp only [if_true] at hnum hsize ⊢
            refine ih hrest hsound hs' (fun hne => ?_) ?_ ?_
            · have hmin' := hmin hne
              rw [increaseTreeCount_numItems]
              omega
            · show t.height = _
              rw [hheight, List.length_cons]
              exact congrArg _ (by omega)
            · show t.numNodes - 1 = _
              rw [hnodes, nodesAround, increaseTreeCount_nodes,
                show node.nodes + (nodesOf r.others + 1 + nodesAround rest) =
                  parent.nodes + nodesAround rest + 1 by omega]
              simp only [UInt32.ofNat_add]
              grind
        | false =>
            simp only [Bool.false_eq_true, if_false, Nat.add_zero] at hnum hsize ⊢
            have hfit : Fitting (h + 1) rest (parent.increaseTreeCount (-1)) := by
              refine ⟨hsound, fun hne => ?_⟩
              have hmin' := hmin hne
              rw [hsound.minFill, increaseTreeCount_numItems]
              omega
            have hrpos := hr.pos_keys
            have htree := writeBack_less hrest hfit hs' (fun _ => by
              rw [increaseTreeCount_numItems, hnum]
              exact hrpos)
            refine Or.inr (Shaped.of_tree rfl htree ?_ ?_)
            · rw [hheight, List.length_cons]
              exact congrArg _ (by omega)
            · rw [hnodes, nodesAround, increaseTreeCount_nodes]
              exact congrArg _ (by omega)
      · rw [if_neg hfew]
        have hfit : Fitting h (r :: rest) node := ⟨hnode, fun _ => by rw [hnode.minFill]; omega⟩
        have htree := writeBack_less hframes hfit hs (by simp)
        exact Or.inr (Shaped.of_tree rfl htree hheight hnodes)

/-! ## Delete -/

omit [Inhabited α] in
/-- The leaf after one of its keys was removed. -/
theorem leaf_eraseKey {P : BPTreeNode α → Prop} {leaf leaf' : BPTreeNode α} {A B : List α} {k : α}
    (hleaf : NodeOK P true 0 leaf) (hkeys : leaf.keys = A ++ k :: B)
    (hkeys' : leaf'.keys = A ++ B) (hchildren : leaf'.children = leaf.children)
    (hisLeaf : leaf'.isLeaf = leaf.isLeaf) :
    Sound 0 leaf' ∧ leaf'.toList = A ++ B ∧ leaf'.numItems + 1 = leaf.numItems ∧
      leaf'.nodes = leaf.nodes := by
  have hnum : leaf'.numItems + 1 = leaf.numItems := by
    unfold numItems
    rw [hkeys, hkeys']
    simp only [List.length_append, List.length_cons]
    omega
  have hpart : PartOK true 0 (A ++ B) [] leaf' :=
    ⟨hisLeaf.trans hleaf.isLeaf, hkeys', hchildren.trans hleaf.children_nil, by simp⟩
  refine ⟨hpart.nodeOK rfl ?_ (by simp) fun _ => rfl, ?_, hnum, ?_⟩
  · have hmax := hleaf.le_max
    rw [maxItems_congr hisLeaf, ← hkeys']
    unfold numItems at hnum hmax
    omega
  · rw [hpart.toList_eq]
    rfl
  · rw [nodes_eq, hchildren, ← nodes_eq]

/-- Removing a key from a leaf. -/
theorem deleteLeaf_spec {t : BPTree α} {H N : Nat} {L A B : List α} {k : α}
    {leaf : BPTreeNode α} (leaf' : BPTreeNode α) (hp : Place H N L 0 leaf path)
    (hkeys : leaf.keys = A ++ k :: B)
    (hkeys' : leaf'.keys = A ++ B) (hchildren : leaf'.children = leaf.children)
    (hisLeaf : leaf'.isLeaf = leaf.isLeaf) {path' : BPTreePath α}
    (hframes : FramesOK 0 leaf.toList.length path') (hlength : path'.length = path.length)
    (haround : nodesAround path' = nodesAround path)
    (hheight : t.height = UInt32.ofNat (H + 1)) (hnodes : t.numNodes = UInt32.ofNat N) :
    Stored (rebalanceUp t leaf' path') (before path' ++ (A ++ B) ++ after path') := by
  obtain ⟨hsound, hlist, hnum, hsize⟩ :=
    leaf_eraseKey hp.nodeOK hkeys hkeys' hchildren hisLeaf
  have hH := hp.height
  have hN := hp.nodes
  have hspec := rebalanceUp_spec (t := t) hframes hsound
    (by
      rw [hlist, hp.nodeOK.leaf_toList, hkeys]
      simp only [List.length_append, List.length_cons]
      omega)
    (fun hne => by
      have hne' : path ≠ [] := by
        rw [← List.length_pos_iff] at hne ⊢
        omega
      have hmin := hp.fitting.2 hne'
      rw [hp.fitting.1.minFill] at hmin
      omega)
    (by rw [hheight, hlength, ← hH])
    (by rw [hnodes, hsize, haround, ← hN])
  rwa [hlist] at hspec

/-- Deleting at a path removes exactly the key the path rests on. -/
theorem deletePath_spec {t : BPTree α} {H N : Nat} {L tail : List α} {m : BPTreeNode α} {i : Nat}
    {rest : BPTreePath α} (hp : Place H N L h m rest) (hi : i < m.keys.length)
    (htail : m.itemsFrom i = m.keys[i] :: tail) (hheight : t.height = UInt32.ofNat (H + 1))
    (hnodes : t.numNodes = UInt32.ofNat N) :
    Stored (deletePath t (⟨m, i⟩ :: rest))
      (before rest ++ m.itemsTo i ++ (tail ++ after rest)) := by
  unfold deletePath
  dsimp only
  cases h with
  | zero =>
      rw [if_pos hp.isLeaf_zero]
      have hto := hp.nodeOK.leaf_itemsTo i
      have hfrom := hp.nodeOK.leaf_itemsFrom i
      have hkeys : m.keys = m.keys.take i ++ m.keys[i] :: tail := by
        rw [← htail, hfrom, List.take_append_drop]
      have hkeys' : (m.shiftLeft i false).keys = m.keys.take i ++ tail := by
        unfold shiftLeft
        conv_lhs => rw [hkeys]
        exact eraseIdx_append (by rw [List.length_take]; omega)
      have hchildren : (m.shiftLeft i false).children = m.children := by
        unfold shiftLeft
        simp only [hp.isLeaf_zero, if_true]
      have hspec := deleteLeaf_spec (t := { t with count := t.count - 1 }) _ hp hkeys hkeys'
        hchildren rfl hp.frames rfl rfl hheight hnodes
      rw [hto]
      simpa only [List.append_assoc] using hspec
  | succ h =>
      rw [if_neg (by rw [hp.isLeaf_succ]; simp)]
      obtain ⟨c, hc⟩ := hp.exists_child (Nat.le_of_lt hi)
      have hpush := hp.push hc
      obtain ⟨leaf, below, hdig, hdigPlace⟩ := digRightFrom_spec hpush.fitting.1 hpush.pos
      obtain ⟨hleaf, hafter⟩ := hdigPlace hpush
      have hbelow : after below = [] := by
        rw [after_append] at hafter
        exact List.append_left_eq_self.mp hafter
      rw [child_eq hc, hdig, List.append_nil]
      dsimp only
      -- the predecessor of the separator is the last key of that leaf
      obtain ⟨A, k, hA⟩ : ∃ A k, leaf.keys = A ++ [k] := by
        have hpos := hleaf.pos
        unfold numItems at hpos
        exact ⟨_, _, (List.dropLast_append_getLast (List.ne_nil_of_length_pos hpos)).symm⟩
      have hkey : leaf.key (leaf.numItems - 1) = k := by simp [key, numItems, hA]
      have herase : leaf.leafEraseRight.keys = A := by simp [leafEraseRight, hA]
      rw [hkey]
      have hafterKey : PathRecord.after ⟨m.setKey i k, i⟩ = k :: tail := by
        have hset := setKey_itemsFrom hi htail k
        unfold itemsFrom weaveFrom at hset
        rw [← List.map_drop] at hset
        exact hset
      have hafterOld : PathRecord.after ⟨m, i⟩ = m.keys[i] :: tail := by
        rw [← htail, itemsFrom, weaveFrom, ← List.map_drop]
        rfl
      have hbeforeKey : PathRecord.before ⟨m.setKey i k, i⟩ = PathRecord.before ⟨m, i⟩ := by
        simp [PathRecord.before, setKey, List.take_set_of_le]
      have hlenAfter : (PathRecord.after ⟨m.setKey i k, i⟩).length =
          (PathRecord.after ⟨m, i⟩).length := by
        rw [hafterKey, hafterOld]
        rfl
      have hframes : FramesOK 0 leaf.toList.length (below ++ ⟨m.setKey i k, i⟩ :: rest) :=
        hleaf.frames.exchange (fun P t hr => hr.setKey k hlenAfter)
          (by simp [numItems, setKey]) rfl (congrArg _ hbeforeKey) hlenAfter
      have hspec := deleteLeaf_spec (t := { t with count := t.count - 1 })
        leaf.leafEraseRight hleaf hA (by rw [herase, List.append_nil]) rfl rfl hframes
        (by simp) (by rw [nodesAround_append, nodesAround_append]; rfl) hheight hnodes
      have hsame : before (below ++ ⟨m, i⟩ :: rest) ++ (A ++ [k]) = before rest ++ m.itemsTo i := by
        have hL := hleaf.toList.trans hpush.toList.symm
        rw [hafter] at hL
        have hcancel := List.append_cancel_right hL
        rw [hleaf.nodeOK.leaf_toList, hA] at hcancel
        rw [hcancel, hpush.itemsTo_pop, before, List.append_assoc]
      have hwhole : before (below ++ ⟨m.setKey i k, i⟩ :: rest) ++ (A ++ []) ++
          after (below ++ ⟨m.setKey i k, i⟩ :: rest) =
          before rest ++ m.itemsTo i ++ (tail ++ after rest) := by
        rw [← hsame, after_append, hbelow, after, hafterKey, before_append, before_append, before,
          before, hbeforeKey]
        simp only [List.append_assoc, List.nil_append, List.cons_append]
      rwa [hwhole] at hspec

section Order

variable [LT α] [DecidableLT α] {t : BPTree α} {L : List α} {item : α}

omit [LT α] [DecidableLT α] in
/-- Deleting at a path takes one off the count. -/
theorem deletePath_count (t : BPTree α) (r : PathRecord α) (rest : BPTreePath α)
    (h : r.node.isLeaf = true ∨ digRightFrom (r.node.child r.pos) [] ≠ []) :
    (deletePath t (r :: rest)).count = t.count - 1 := by
  unfold deletePath
  dsimp only
  by_cases hleaf : r.node.isLeaf = true
  · rw [if_pos hleaf, rebalanceUp_count]
  · rw [if_neg hleaf]
    cases hdig : digRightFrom (r.node.child r.pos) [] with
    | nil => exact (h.resolve_left hleaf hdig).elim
    | cons f below =>
        dsimp only
        rw [rebalanceUp_count]

/-- The outcomes of deleting `item` from a tree that reads `L`. -/
inductive Deleted (item : α) (L : List α) (t : BPTree α) : Bool × BPTree α → Prop
  | missing {L₁ L₂ : List α} (list : L = L₁ ++ L₂) (below : ∀ x ∈ L₁, x < item)
      (above : ∀ y ∈ L₂, item < y) : Deleted item L t (false, t)
  | removed {L₁ L₂ : List α} {k : α} {t' : BPTree α} (list : L = L₁ ++ k :: L₂)
      (equiv : ¬ item < k ∧ ¬ k < item) (holds : Holds t' (L₁ ++ L₂)) :
      Deleted item L t (true, t')

/-- `Delete` removes the key that compares equal and nothing else. -/
theorem delete_spec (hT : Holds t L) (hcuts : Cuts item L) :
    Deleted item L t (t.delete item) := by
  unfold delete
  obtain ⟨hroot, rfl, -⟩ | ⟨root, H, N, hroot, htree, hheight, hnodes⟩ := hT.shape
  · rw [hroot]
    have hnil : ([] : List α) = [] ++ [] := rfl
    exact .missing hnil (by simp) (by simp)
  · have hloc := locate_root hcuts htree
    rw [hroot]
    dsimp only
    generalize locate item root [] = res at hloc
    cases hloc with
    | @missed leaf pos rest place falls sides =>
        obtain ⟨hL, hbelow, habove⟩ := place.gap falls sides
        exact .missing hL hbelow habove
    | @found h m i rest place lt equiv =>
        obtain ⟨tail, hL, htail⟩ := place.around lt
        refine .removed hL equiv ⟨deletePath_spec place lt htail hheight hnodes, ?_⟩
        rw [deletePath_count, hT.count, hL]
        · simp only [List.length_append, List.length_cons, UInt32.ofNat_add]
          grind
        · cases h with
          | zero => exact Or.inl place.isLeaf_zero
          | succ h =>
              right
              obtain ⟨c, hc⟩ := place.exists_child (Nat.le_of_lt lt)
              obtain ⟨leaf, below, hdig, -⟩ :=
                digRightFrom_spec (place.push hc).fitting.1 (place.push hc).pos
              rw [child_eq hc, hdig]
              simp

end Order

end BPTree

end AstraKV
