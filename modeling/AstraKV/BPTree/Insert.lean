import AstraKV.BPTree.Pair
import AstraKV.BPTree.Search

/-!
# AstraKV.BPTree.Insert

`Insert`: into a leaf with room, by rebalancing a full leaf with a
sibling, or by splitting it and propagating the split up the path.

The propagation keeps one equation.  Below the remaining path lie two good
subtrees and a separator that together read what the subtree below it
used to read with the new key in it; they hold `s + 1` keys where the
ancestors have cached `s`.

An insertion stops at the first node with room, so most of the lemmas say what
happens at one full node: its parent either makes room by a rotation with a
sibling, or the node is split around a median which then goes into the parent.
`Shaped` is what the climb establishes for the tree, heights and node count
included; `Inserted` adds the count of keys and the answer the caller sees.
Splitting the root is the one place where the tree grows.
-/

universe u

namespace AstraKV

open Weave Cut ListEdit BPTreeNode BPTreePath

variable {α : Type u}

/-! ## filling the hole of a frame -/

namespace FrameOK

variable {P : BPTreeNode α → Prop} {s : Nat} {r : PathRecord α}

/-- The child put into a frame is the one the path follows. -/
theorem child_setChild (hr : FrameOK P s r) (c : BPTreeNode α) :
    (r.node.setChild r.pos c).child r.pos = c := by
  have hlen := hr.length_children
  have hpos := hr.pos_le
  exact child_setChild_self (by omega) c

end FrameOK

/-- What lies before a frame does not depend on the child in it. -/
theorem PathRecord.before_setChild (r : PathRecord α) (c : BPTreeNode α) :
    PathRecord.before ⟨r.node.setChild r.pos c, r.pos⟩ = r.before := by
  simp [PathRecord.before, setChild, List.take_set_of_le]

/-! ## after RebalanceChild -/

section Rebalanced

variable {h s ip i j k : Nat} {r : PathRecord α} {rest : BPTreePath α}
  {c p' d : BPTreeNode α} {M : List α}

/-- The items `M` were put in at the place `RebalanceChild` found for them: the parent reads
them at the place they were meant for, and its count, increased by one, is right. -/
theorem rebalanced_parent (hr : FrameOK (Good h) s r) (hc : Good h c) (hip : ip ≤ c.numItems)
    (hm : MadeRoom h (UInt32.ofNat s - UInt32.ofNat c.toList.length) (r.node.setChild r.pos c)
      r.pos ip p' i j)
    (hd : Good h d)
    (hlist : d.toList = (p'.child i).itemsTo j ++ M ++ (p'.child i).itemsFrom j)
    (hM : s + 1 = c.toList.length + M.length) (hnodes : d.nodes = (p'.child i).nodes + k) :
    Sound (h + 1) ((p'.setChild i d).increaseTreeCount 1) ∧
    ((p'.setChild i d).increaseTreeCount 1).toList =
      r.before ++ (c.itemsTo ip ++ M ++ c.itemsFrom ip) ++ r.after ∧
    ((p'.setChild i d).increaseTreeCount 1).numItems = r.node.numItems ∧
    ((p'.setChild i d).increaseTreeCount 1).nodes = c.nodes + k + (nodesOf r.others + 1) := by
  have hnum : p'.numItems = r.node.numItems := hm.numItems
  have hpos : 0 < p'.numItems := by
    rw [hnum]
    exact hr.pos_keys
  have hitems := ((sound_iff h _).mp (hm.node.child _ (List.mem_of_getElem? hm.child)).1
    ).itemsTo_append hm.le
  have hcitems := ((sound_iff h _).mp hc.1).itemsTo_append hip
  have hlen : d.toList.length = (p'.child i).toList.length + M.length := by
    rw [hlist, ← hitems]
    simp only [List.length_append]
    omega
  -- `p'` is a frame around its child `i` for as many keys as its count says
  obtain ⟨hframe, hsplit, hpnodes⟩ := hm.node.frame hpos hm.child (UInt32.ofNat_toNat)
  have hset := (hframe.setChild_nodeOK (fun _ hx => hx) hd).increaseTreeCount 1
  have hdefect : UInt32.ofNat (UInt32.ofNat (p'.child i).toList.length +
      (UInt32.ofNat s - UInt32.ofNat c.toList.length)).toNat - UInt32.ofNat d.toList.length + 1 =
      0 := by
    have hs := congrArg UInt32.ofNat hM
    simp only [UInt32.ofNat_add] at hs
    rw [UInt32.ofNat_toNat, hlen]
    simp only [UInt32.ofNat_add]
    grind
  rw [hdefect] at hset
  have hcat : PathRecord.before ⟨p', i⟩ ++ (p'.child i).itemsTo j = r.before ++ c.itemsTo ip := by
    have hplace := hm.place
    rwa [r.before_setChild, hr.child_setChild] at hplace
  have hrest : (p'.child i).itemsFrom j ++ PathRecord.after ⟨p', i⟩ =
      c.itemsFrom ip ++ r.after := by
    have hwhole := hm.toList
    rw [hr.setChild_toList, hsplit, ← hitems, ← hcitems] at hwhole
    simp only [← List.append_assoc] at hwhole
    rw [hcat, List.append_assoc, List.append_assoc _ (c.itemsFrom ip)] at hwhole
    exact List.append_cancel_left hwhole
  refine ⟨hset, ?_, hnum, ?_⟩
  · have hto := hframe.setChild_toList d
    rw [increaseTreeCount_toList]
    refine hto.trans ?_
    rw [hlist]
    calc PathRecord.before ⟨p', i⟩ ++
          ((p'.child i).itemsTo j ++ M ++ (p'.child i).itemsFrom j) ++ PathRecord.after ⟨p', i⟩
        = (PathRecord.before ⟨p', i⟩ ++ (p'.child i).itemsTo j) ++ M ++
          ((p'.child i).itemsFrom j ++ PathRecord.after ⟨p', i⟩) := by
          simp only [List.append_assoc]
      _ = r.before ++ c.itemsTo ip ++ M ++ (c.itemsFrom ip ++ r.after) := by rw [hcat, hrest]
      _ = r.before ++ (c.itemsTo ip ++ M ++ c.itemsFrom ip) ++ r.after := by
          simp only [List.append_assoc]
  · have hdnodes := hframe.setChild_nodes d
    have hcnodes := hr.setChild_nodes c
    have hsame := hm.nodes
    simp only at hdnodes
    rw [increaseTreeCount_nodes, hdnodes, hnodes]
    omega

/-- The insertion is finished after `RebalanceChild` made room for it. -/
theorem rebalanced_writeBack (hframes : FramesOK h s (r :: rest)) (hc : Good h c)
    (hip : ip ≤ c.numItems)
    (hm : MadeRoom h (UInt32.ofNat s - UInt32.ofNat c.toList.length) (r.node.setChild r.pos c)
      r.pos ip p' i j)
    (hd : Good h d)
    (hlist : d.toList = (p'.child i).itemsTo j ++ M ++ (p'.child i).itemsFrom j)
    (hM : s + 1 = c.toList.length + M.length) (hnodes : d.nodes = (p'.child i).nodes + k) :
    TreeOf (h + (r :: rest).length) (c.nodes + k + nodesAround (r :: rest))
      (before (r :: rest) ++ (c.itemsTo ip ++ M ++ c.itemsFrom ip) ++ after (r :: rest))
      (writeBack ((p'.setChild i d).increaseTreeCount 1) (increaseSubtreeCounts rest 1)) := by
  obtain ⟨hr, hfill, hrest⟩ := hframes
  obtain ⟨hsound, htoList, hnum, hnodes'⟩ := rebalanced_parent hr hc hip hm hd hlist hM hnodes
  have hcitems := ((sound_iff h _).mp hc.1).itemsTo_append hip
  have hfit : Fitting (h + 1) rest ((p'.setChild i d).increaseTreeCount 1) := by
    refine ⟨hsound, fun hne => ?_⟩
    have hmin := hfill hne
    rw [minFill, hr.isLeaf] at hmin
    rw [hnum, hsound.minFill]
    exact hmin
  have htree := writeBack_spec hrest hfit (δ := 1) (by
      rw [htoList, ← UInt32.ofNat_one, ← UInt32.ofNat_add]
      refine congrArg _ ?_
      rw [← hcitems] at hM
      simp only [List.length_append] at hM ⊢
      omega) (fun _ => by rw [hnum]; exact hr.pos_keys)
  have hheight : h + (r :: rest).length = h + 1 + rest.length := by
    rw [List.length_cons]
    omega
  rw [hheight]
  refine ⟨htree.sound, htree.pos, htree.toList.trans ?_, htree.nodes.trans ?_⟩
  · rw [htoList]
    simp only [before, after, List.append_assoc]
  · rw [hnodes', nodesAround]
    omega

end Rebalanced

namespace BPTree

variable [Inhabited α] {s ip : Nat} {path : BPTreePath α}

/-- Making room for a key in a full leaf. -/
theorem rebalanceLeafAndInsert_spec {leaf root : BPTreeNode α} {item : α}
    (hframes : FramesOK 0 leaf.toList.length path) (hleaf : Fitting 0 path leaf)
    (hfull : leaf.numItems = kMaxLeafKeys) (hip : ip ≤ leaf.numItems)
    (heq : rebalanceLeafAndInsert leaf item ip path = some root) :
    TreeOf path.length (leaf.nodes + nodesAround path)
      (before path ++ (leaf.itemsTo ip ++ [item] ++ leaf.itemsFrom ip) ++ after path) root := by
  cases path with
  | nil => simp [rebalanceLeafAndInsert] at heq
  | cons r rest =>
      have hgood := hleaf.good
      have hparent := hframes.1.setChild_nodeOK (fun _ hx => hx) hgood
      have hchild := hframes.1.child_setChild leaf
      unfold rebalanceLeafAndInsert at heq
      cases hres : (r.node.setChild r.pos leaf).rebalanceChild r.pos ip with
      | none => simp [hres] at heq
      | some res =>
          obtain ⟨p', i, j⟩ := res
          have hm := rebalanceChild_spec hparent hframes.1.pos_le (by rw [hchild]; exact hfull)
            (by rw [hchild]; exact hip) hres
          have hroomy := hm.node.child _ (List.mem_of_getElem? hm.child)
          obtain ⟨hnode, hlist, hnum, hchildren⟩ := leafInsert_spec hroomy.1 hm.le
            (by rw [hroomy.1.maxItems]; exact hm.room) item
          have hd : Good 0 ((p'.child i).leafInsert j item) :=
            Sound.good hnode (by have hfill := hroomy.fill_le; omega)
          simp only [hres, Option.some.injEq] at heq
          have htree := rebalanced_writeBack (M := [item]) (k := 0) hframes hgood hip hm hd
            (by rw [hlist]; simp) (by simp) (by rw [nodes_eq, hchildren, nodes_eq, Nat.add_zero])
          rw [← heq]
          simpa using htree

/-! ## rebalancing a full inner node -/

/-- `rebalanceInsert`, told with a child whose count is right: the two ways it corrects the
counts come to one. -/
theorem rebalanceInsert_eq {P : BPTreeNode α → Prop} {e : UInt32} {p : BPTreeNode α} {pos : Nat}
    {right : BPTreeNode α} (hn : NodeOK P false e p) (hpos : pos ≤ p.numItems)
    (hleaf : (p.child pos).isLeaf = false) (median : α) {p' : BPTreeNode α} {i j : Nat}
    (hres : p.rebalanceChild pos ip = some (p', i, j))
    (hlen : p'.children.length = p.children.length)
    (hi : i < p.children.length) :
    rebalanceInsert (p.setChild pos ((p.child pos).increaseTreeCount right.treeCount)) pos ip
        median right =
      some (p'.setChild i
        (((p'.child i).innerInsert j median right).increaseTreeCount (right.treeCount + 1))) := by
  have hplen := hn.length_children
  have hpos' : pos < p'.children.length := by
    unfold numItems at hpos
    omega
  have hi' : i < p'.children.length := by omega
  unfold rebalanceInsert
  rw [rebalanceChild_increase hn hpos hleaf, hres]
  simp only [Option.map_some]
  by_cases hsame : i = pos
  · subst hsame
    rw [if_neg (by simp)]
    rw [child_setChild_self hpos']
    simp only [setChild_setChild]
    rw [child_setChild_self hpos']
    have hswap : ((p'.child i).increaseTreeCount right.treeCount).innerInsert j median right =
        ((p'.child i).innerInsert j median right).increaseTreeCount right.treeCount := rfl
    rw [hswap, increaseTreeCount_increaseTreeCount]
  · rw [if_pos hsame, child_setChild_ne _ _ (Ne.symm hsame)]
    have hback : ((p'.child pos).increaseTreeCount right.treeCount).increaseTreeCount
        (-right.treeCount) = p'.child pos := by
      rw [increaseTreeCount_increaseTreeCount]
      have hzero : right.treeCount + -right.treeCount = 0 := by grind
      rw [hzero, increaseTreeCount_zero]
    rw [child_setChild_ne _ _ hsame, child_setChild_self hpos', hback,
      setChild_comm _ _ _ hsame]
    simp only [setChild_setChild]
    rw [setChild_child hpos', child_setChild_self hi']

/-- Without a sibling to rotate with there is nothing to rebalance. -/
theorem rebalanceInsert_none {P : BPTreeNode α → Prop} {e : UInt32} {p : BPTreeNode α}
    {pos : Nat} {right : BPTreeNode α} (hn : NodeOK P false e p) (hpos : pos ≤ p.numItems)
    (hleaf : (p.child pos).isLeaf = false) (median : α) (hres : p.rebalanceChild pos ip = none) :
    rebalanceInsert (p.setChild pos ((p.child pos).increaseTreeCount right.treeCount)) pos ip
      median right = none := by
  unfold rebalanceInsert
  rw [rebalanceChild_increase hn hpos hleaf, hres]
  rfl

/-- The full node `node` below `path` has to take in `median` and `right`, whose keys its count
includes already; its grandparent makes room for them. -/
theorem rebalanceInsert_spec {h : Nat} {r : PathRecord α} {rest : BPTreePath α}
    {node right p'' : BPTreeNode α} {median : α}
    (hframes : FramesOK (h + 1) s (r :: rest))
    (hnode : NodeOK (Good h) false (UInt32.ofNat right.toList.length) node)
    (hfull : node.numItems = kMaxInnerKeys) (hright : Good h right) (hip : ip ≤ node.numItems)
    (hs : s = node.toList.length + right.toList.length)
    (heq : rebalanceInsert (r.node.setChild r.pos node) r.pos ip median right = some p'') :
    TreeOf (h + 1 + (r :: rest).length) (node.nodes + right.nodes + nodesAround (r :: rest))
      (before (r :: rest) ++ (node.itemsTo ip ++ median :: right.toList ++ node.itemsFrom ip) ++
        after (r :: rest))
      (writeBack (p''.increaseTreeCount 1) (increaseSubtreeCounts rest 1)) := by
  have hr := hframes.1
  have hcounted : right.treeCount = UInt32.ofNat right.toList.length := hright.1.counted
  -- `c` is `node` with the count it should have
  obtain ⟨c, hc, hcnode, hclist, hcnum, hcnodes, hcto, hcfrom⟩ :
      ∃ c, NodeOK (Good h) false 0 c ∧ node = c.increaseTreeCount right.treeCount ∧
        c.toList = node.toList ∧ c.numItems = node.numItems ∧ c.nodes = node.nodes ∧
        c.itemsTo ip = node.itemsTo ip ∧ c.itemsFrom ip = node.itemsFrom ip := by
    have hfix := hnode.increaseTreeCount (-right.treeCount)
    have hzero : UInt32.ofNat right.toList.length + -right.treeCount = 0 := by
      rw [hcounted]
      grind
    rw [hzero] at hfix
    refine ⟨_, hfix, ?_, by simp, rfl, by simp, rfl, rfl⟩
    have hback : -right.treeCount + right.treeCount = 0 := by grind
    rw [increaseTreeCount_increaseTreeCount, hback, increaseTreeCount_zero]
  have hgood : Good (h + 1) c := Sound.good hc (by rw [hcnum, hfull, fill_succ]; decide)
  have hparent := hr.setChild_nodeOK (fun _ hx => hx) hgood
  have hchild := hr.child_setChild c
  have hset : r.node.setChild r.pos node = (r.node.setChild r.pos c).setChild r.pos
      (((r.node.setChild r.pos c).child r.pos).increaseTreeCount right.treeCount) := by
    rw [hchild, setChild_setChild, ← hcnode]
  rw [hset] at heq
  cases hres : (r.node.setChild r.pos c).rebalanceChild r.pos ip with
  | none =>
      rw [rebalanceInsert_none hparent hr.pos_le (by rw [hchild]; exact hc.isLeaf) median hres]
        at heq
      simp at heq
  | some res =>
      obtain ⟨p', i, j⟩ := res
      have hm := rebalanceChild_spec hparent hr.pos_le (by rw [hchild, hcnum]; exact hfull)
        (by rw [hchild, hcnum]; exact hip) hres
      have hlen : p'.children.length = (r.node.setChild r.pos c).children.length := by
        have hnum := hm.numItems
        rw [hm.node.length_children, hparent.length_children]
        unfold numItems at hnum
        omega
      have hi : i < (r.node.setChild r.pos c).children.length := by
        obtain ⟨hi, -⟩ := List.getElem?_eq_some_iff.mp hm.child
        omega
      rw [rebalanceInsert_eq hparent hr.pos_le (by rw [hchild]; exact hc.isLeaf) median hres hlen
        hi, Option.some.injEq] at heq
      have hroomy := hm.node.child _ (List.mem_of_getElem? hm.child)
      obtain ⟨hins, hlist, hnum, hnodes⟩ := innerInsert_spec hroomy.1 hm.le
        (by rw [hroomy.1.maxItems]; exact hm.room) median hright
      have hfixed := hins.increaseTreeCount (right.treeCount + 1)
      have hzero : (0 : UInt32) - 1 - UInt32.ofNat right.toList.length + (right.treeCount + 1) =
          0 := by
        rw [hcounted]
        grind
      rw [hzero] at hfixed
      have hd : Good (h + 1) (((p'.child i).innerInsert j median right).increaseTreeCount
          (right.treeCount + 1)) := by
        refine Sound.good hfixed ?_
        have hfill := hroomy.fill_le
        rw [increaseTreeCount_numItems, hnum]
        omega
      have htree := rebalanced_writeBack (M := median :: right.toList) (k := right.nodes) hframes
        hgood (by rw [hcnum]; exact hip) hm hd (by rw [increaseTreeCount_toList, hlist])
        (by rw [hs, hclist, List.length_cons]; omega)
        (by rw [increaseTreeCount_nodes, nodes_eq, hnodes, nodes_eq (p'.child i)]; omega)
      rw [hcto, hcfrom, hcnodes] at htree
      rw [← heq]
      exact htree

/-! ## splitting a full inner node -/

/-- The split puts the new child in the left half or in the right one, and corrects the
counts. -/
theorem splitInsert_eq (node : BPTreeNode α) (pos : Nat) (median : α) (right : BPTreeNode α) :
    splitInsert node pos median right =
      if pos ≤ node.split.1.numItems then
        ((node.split.1.innerInsert pos median right).increaseTreeCount 1, node.split.2.1,
          node.split.2.2)
      else
        (node.split.1.increaseTreeCount (-right.treeCount), node.split.2.1,
          (node.split.2.2.innerInsert (pos - node.split.1.numItems - 1) median
            right).increaseTreeCount (right.treeCount + 1)) := rfl

/-- Both halves of a split inner node are good, and read as the node did with the new
child in it. -/
theorem splitInsert_spec {h : Nat} {node right : BPTreeNode α} {pos : Nat} (median : α)
    (hnode : NodeOK (Good h) false (UInt32.ofNat right.toList.length) node)
    (hfull : node.numItems = kMaxInnerKeys) (hright : Good h right) (hpos : pos ≤ node.numItems) :
    Good (h + 1) (splitInsert node pos median right).1 ∧
    Good (h + 1) (splitInsert node pos median right).2.2 ∧
    (splitInsert node pos median right).1.toList ++ (splitInsert node pos median right).2.1 ::
        (splitInsert node pos median right).2.2.toList =
      node.itemsTo pos ++ median :: right.toList ++ node.itemsFrom pos ∧
    (splitInsert node pos median right).1.nodes + (splitInsert node pos median right).2.2.nodes =
      node.nodes + right.nodes + 1 := by
  have hcounted : right.treeCount = UInt32.ofNat right.toList.length := hright.1.counted
  rw [kMaxInnerKeys_eq] at hfull
  obtain ⟨hmoved, hlist, hchildren, hnumL, hnumR, hto, hfrom⟩ :=
    split_spec (fun c hc => hc.1.counted) hnode (by omega)
  obtain ⟨hbefore, hbehind⟩ := split_itemsFrom (fun c hc => hc.1.counted) hnode (by omega) hpos
  have hnodes : nodesOf node.split.1.children + nodesOf node.split.2.2.children =
      nodesOf node.children := by
    rw [← nodesOf_append, hchildren]
  have hmaxL : node.split.1.maxItems = 10 := by rw [maxItems, hmoved.left.isLeaf]; rfl
  have hmaxR : node.split.2.2.maxItems = 10 := by rw [maxItems, hmoved.right.isLeaf]; rfl
  rw [splitInsert_eq]
  by_cases hle : pos ≤ node.split.1.numItems
  · rw [if_pos hle]
    dsimp only
    obtain ⟨hins, hinsList, hinsNum, hinsNodes⟩ :=
      innerInsert_spec hmoved.left hle (by omega) median hright
    have hfixed := hins.increaseTreeCount 1
    have hzero : UInt32.ofNat right.toList.length - 1 - UInt32.ofNat right.toList.length + 1 =
        0 := by grind
    rw [hzero] at hfixed
    refine ⟨Sound.good hfixed ?_, Sound.good hmoved.right ?_, ?_, ?_⟩
    · rw [fill_succ, increaseTreeCount_numItems, hinsNum]
      omega
    · rw [fill_succ]
      omega
    · rw [increaseTreeCount_toList, hinsList, List.append_assoc, hbefore hle, hto pos hle]
    · rw [increaseTreeCount_nodes, nodes_eq, hinsNodes, nodes_eq node.split.2.2, nodes_eq node]
      omega
  · rw [if_neg hle]
    dsimp only
    have hfrom' := hfrom pos (by omega) hpos
    have hq : pos - node.split.1.numItems - 1 ≤ node.split.2.2.numItems := by omega
    obtain ⟨hins, hinsList, hinsNum, hinsNodes⟩ :=
      innerInsert_spec hmoved.right hq (by omega) median hright
    have hfixed := hins.increaseTreeCount (right.treeCount + 1)
    have hleftFixed := hmoved.left.increaseTreeCount (-right.treeCount)
    have hzero : (0 : UInt32) - 1 - UInt32.ofNat right.toList.length + (right.treeCount + 1) =
        0 := by
      rw [hcounted]
      grind
    have hzero' : UInt32.ofNat right.toList.length + -right.treeCount = 0 := by
      rw [hcounted]
      grind
    rw [hzero] at hfixed
    rw [hzero'] at hleftFixed
    refine ⟨Sound.good hleftFixed ?_, Sound.good hfixed ?_, ?_, ?_⟩
    · rw [fill_succ, increaseTreeCount_numItems]
      omega
    · rw [fill_succ, increaseTreeCount_numItems, hinsNum]
      omega
    · rw [increaseTreeCount_toList, increaseTreeCount_toList, hinsList, ← hfrom',
        hbehind (by omega)]
      simp only [List.append_assoc, List.cons_append]
    · rw [increaseTreeCount_nodes, increaseTreeCount_nodes, nodes_eq,
        nodes_eq (innerInsert _ _ _ _), hinsNodes, nodes_eq node]
      omega

/-! ## propagating a split -/

omit [Inhabited α] in
/-- Two good subtrees below one key make a root. -/
theorem newRoot_sound {h : Nat} {node right : BPTreeNode α} (hnode : Good h node)
    (hright : Good h right) (median : α) :
    TreeOf (h + 1) (node.nodes + right.nodes + 1) (node.toList ++ median :: right.toList)
      ((⟨false, [median], [node, right], 0⟩ : BPTreeNode α).setTreeCount
        (node.treeCount + right.treeCount + 1)) := by
  have hlist : ((⟨false, [median], [node, right], 0⟩ : BPTreeNode α).setTreeCount
      (node.treeCount + right.treeCount + 1)).toList = node.toList ++ median :: right.toList := by
    rw [toList_eq]
    simp [setTreeCount]
  have hnodeCount : node.treeCount = UInt32.ofNat node.toList.length := hnode.1.counted
  have hrightCount : right.treeCount = UInt32.ofNat right.toList.length := hright.1.counted
  exact
    { sound :=
        { isLeaf := rfl
          fits := rfl
          le_max := by
            show 1 ≤ kMaxInnerKeys
            decide
          count := by
            rw [hlist]
            show node.treeCount + right.treeCount + 1 = _
            rw [hnodeCount, hrightCount, List.length_append, List.length_cons]
            simp only [UInt32.ofNat_add]
            grind
          child := by
            intro c hc
            simp only [setTreeCount, List.mem_cons, List.not_mem_nil, or_false] at hc
            cases hc with
            | inl hc => exact hc ▸ hnode
            | inr hc => exact hc ▸ hright }
      pos := Nat.one_pos
      toList := hlist
      nodes := by
        rw [nodes_eq]
        simp [setTreeCount, Nat.add_assoc] }

omit [Inhabited α] in
/-- The parent has room for `median` and `right`: the propagation ends. -/
theorem innerInsert_writeBack {h : Nat} {r : PathRecord α} {rest : BPTreePath α}
    {parent right : BPTreeNode α} (median : α) (hframes : FramesOK h s (r :: rest))
    (hparent : NodeOK (Good h) false (UInt32.ofNat right.toList.length) parent)
    (hnum : parent.numItems = r.node.numItems) (hroom : parent.numItems < kMaxInnerKeys)
    (hright : Good h right) (hpos : r.pos ≤ parent.numItems)
    (hs : parent.toList.length + right.toList.length = r.before.length + s + r.after.length) :
    TreeOf (h + 1 + rest.length) (parent.nodes + right.nodes + nodesAround rest)
      (before rest ++
        (parent.itemsTo r.pos ++ median :: right.toList ++ parent.itemsFrom r.pos) ++ after rest)
      (writeBack ((parent.innerInsert r.pos median right).increaseTreeCount 1)
        (increaseSubtreeCounts rest 1)) := by
  obtain ⟨hr, hfill, hrest⟩ := hframes
  have hmax : parent.maxItems = kMaxInnerKeys := by rw [maxItems, hparent.isLeaf]; rfl
  obtain ⟨hins, hinsList, hinsNum, hinsNodes⟩ :=
    innerInsert_spec hparent hpos (by omega) median hright
  have hfixed := hins.increaseTreeCount 1
  have hzero : UInt32.ofNat right.toList.length - 1 - UInt32.ofNat right.toList.length + 1 =
      0 := by grind
  rw [hzero] at hfixed
  have hsound : Sound (h + 1) ((parent.innerInsert r.pos median right).increaseTreeCount 1) :=
    hfixed
  have hfit : Fitting (h + 1) rest
      ((parent.innerInsert r.pos median right).increaseTreeCount 1) := by
    refine ⟨hsound, fun hne => ?_⟩
    have hmin := hfill hne
    rw [minFill, hr.isLeaf] at hmin
    rw [hsound.minFill, increaseTreeCount_numItems, hinsNum, hnum]
    exact Nat.le_succ_of_le hmin
  have hitems := hparent.itemsTo_append hpos
  have htree := writeBack_spec hrest hfit (δ := 1) (by
      rw [increaseTreeCount_toList, hinsList, ← UInt32.ofNat_one, ← UInt32.ofNat_add]
      refine congrArg _ ?_
      rw [← hitems] at hs
      simp only [List.length_append, List.length_cons] at hs ⊢
      omega) (fun _ => by rw [increaseTreeCount_numItems, hinsNum]; omega)
  refine ⟨htree.sound, htree.pos, htree.toList.trans ?_, htree.nodes.trans ?_⟩
  · rw [increaseTreeCount_toList, hinsList]
  · rw [increaseTreeCount_nodes, nodes_eq, hinsNodes, nodes_eq parent]
    omega

/-- Propagating a split up the path gives a tree that reads the path around both halves.
-/
theorem propagateSplit_spec {t : BPTree α} {h : Nat} {node right : BPTreeNode α} (median : α)
    (hframes : FramesOK h s path) (hnode : Good h node) (hright : Good h right)
    (hs : s = node.toList.length + right.toList.length)
    (hheight : t.height = UInt32.ofNat (h + path.length + 1))
    (hnodes : t.numNodes = UInt32.ofNat (node.nodes + right.nodes + nodesAround path)) :
    Shaped (propagateSplit t node median right path)
      (before path ++ (node.toList ++ median :: right.toList) ++ after path) ∧
    (propagateSplit t node median right path).count = t.count := by
  induction path generalizing t h s node median right with
  | nil =>
      unfold propagateSplit
      refine ⟨Shaped.of_tree rfl (H := h + 1) (N := node.nodes + right.nodes + 1) ?_ ?_ ?_, rfl⟩
      · simpa [before, after] using newRoot_sound hnode hright median
      · simp only [createNode, hheight, List.length_nil, Nat.add_zero, UInt32.ofNat_add]
        grind
      · simp only [createNode, hnodes, nodesAround, Nat.add_zero, UInt32.ofNat_add]
        grind
  | cons r rest ih =>
      have hr := hframes.1
      have hset := hr.setChild_nodeOK (fun _ hx => hx) hnode
      have hdefect : UInt32.ofNat s - UInt32.ofNat node.toList.length =
          UInt32.ofNat right.toList.length := by
        rw [hs, UInt32.ofNat_add]
        grind
      rw [hdefect] at hset
      have hpos : r.pos ≤ (r.node.setChild r.pos node).numItems := hr.pos_le
      have hto := hr.setChild_itemsTo node
      have hfrom := hr.setChild_itemsFrom node
      have hsetNodes := hr.setChild_nodes node
      have hlist : (r.node.setChild r.pos node).itemsTo r.pos ++ median :: right.toList ++
          (r.node.setChild r.pos node).itemsFrom r.pos =
          r.before ++ (node.toList ++ median :: right.toList) ++ r.after := by
        rw [hto, hfrom]
        simp only [List.append_assoc]
      unfold propagateSplit
      dsimp only
      by_cases hroom : (r.node.setChild r.pos node).numItems < kMaxInnerKeys
      · rw [if_pos hroom]
        have htree := innerInsert_writeBack median hframes hset rfl hroom hright hpos (by
          rw [hr.setChild_toList]
          simp only [List.length_append]
          omega)
        rw [hlist] at htree
        refine ⟨Shaped.of_tree rfl (H := h + 1 + rest.length)
          (N := (r.node.setChild r.pos node).nodes + right.nodes + nodesAround rest) ?_ ?_ ?_, rfl⟩
        · simpa [before, after] using htree
        · rw [hheight, List.length_cons]
          exact congrArg _ (by omega)
        · rw [hnodes, hsetNodes, nodesAround]
          exact congrArg _ (by omega)
      · rw [if_neg hroom]
        have hfull : (r.node.setChild r.pos node).numItems = kMaxInnerKeys := by
          have hmax : (r.node.setChild r.pos node).numItems ≤ kMaxInnerKeys := hr.le_max
          omega
        have hsum : r.before.length + s + r.after.length =
            (r.node.setChild r.pos node).toList.length + right.toList.length := by
          rw [hr.setChild_toList]
          simp only [List.length_append]
          omega
        split
        · -- the grandparent made room
          rename_i root hroot
          cases rest with
          | nil => simp at hroot
          | cons g upper =>
              obtain ⟨p'', hp'', hroot⟩ := Option.map_eq_some_iff.mp hroot
              have htree := rebalanceInsert_spec hframes.2.2 hset hfull hright hpos hsum hp''
              rw [hroot, hlist] at htree
              refine ⟨Shaped.of_tree rfl (H := h + 1 + (g :: upper).length)
                (N := (r.node.setChild r.pos node).nodes + right.nodes +
                  nodesAround (g :: upper)) ?_ ?_ ?_, rfl⟩
              · rw [before, after]
                simpa only [List.append_assoc] using htree
              · rw [hheight, List.length_cons]
                exact congrArg _ (by omega)
              · rw [hnodes, hsetNodes, nodesAround]
                exact congrArg _ (by omega)
        · -- the parent is split as well
          obtain ⟨hgoodL, hgoodR, hsplit, hsplitNodes⟩ :=
            splitInsert_spec median hset hfull hright hpos
          rw [hlist] at hsplit
          have hlen := congrArg List.length hsplit
          simp only [List.length_append, List.length_cons] at hlen
          obtain ⟨hshaped, hcount⟩ := @ih _ t.createNode (h + 1) _ _ _ hframes.2.2 hgoodL hgoodR
            (by omega)
            (by
              show t.height = _
              rw [hheight, List.length_cons]
              exact congrArg _ (by omega))
            (by
              show t.numNodes + 1 = _
              rw [hnodes, nodesAround, ← UInt32.ofNat_one, ← UInt32.ofNat_add]
              exact congrArg _ (by omega))
          rw [hsplit] at hshaped
          refine ⟨?_, hcount⟩
          rw [before, after]
          simpa only [List.append_assoc] using hshaped

/-! ## Insert -/

/-- A split leaf with the new key in one of its halves. -/
theorem splitLeaf_spec {leaf : BPTreeNode α} (item : α) (hleaf : Sound 0 leaf)
    (hfull : leaf.numItems = kMaxLeafKeys) (hip : ip ≤ leaf.numItems) :
    (ip ≤ leaf.split.1.numItems →
      Good 0 (leaf.split.1.leafInsert ip item) ∧ Good 0 leaf.split.2.2 ∧
      (leaf.split.1.leafInsert ip item).toList ++ leaf.split.2.1 :: leaf.split.2.2.toList =
        leaf.itemsTo ip ++ [item] ++ leaf.itemsFrom ip ∧
      (leaf.split.1.leafInsert ip item).nodes + leaf.split.2.2.nodes = leaf.nodes + 1) ∧
    (¬ ip ≤ leaf.split.1.numItems →
      Good 0 leaf.split.1 ∧
      Good 0 (leaf.split.2.2.leafInsert (ip - leaf.split.1.numItems - 1) item) ∧
      leaf.split.1.toList ++ leaf.split.2.1 ::
          (leaf.split.2.2.leafInsert (ip - leaf.split.1.numItems - 1) item).toList =
        leaf.itemsTo ip ++ [item] ++ leaf.itemsFrom ip ∧
      leaf.split.1.nodes +
          (leaf.split.2.2.leafInsert (ip - leaf.split.1.numItems - 1) item).nodes =
        leaf.nodes + 1) := by
  rw [kMaxLeafKeys_eq] at hfull
  have hnode : NodeOK (ChildOf 0) true 0 leaf := (sound_iff 0 leaf).mp hleaf
  obtain ⟨hmoved, hlist, hchildren, hnumL, hnumR, hto, hfrom⟩ :=
    split_spec (fun c hc => hc.elim) hnode (by omega)
  obtain ⟨hbefore, hbehind⟩ := split_itemsFrom (fun c hc => hc.elim) hnode (by omega) hip
  have hnodes : nodesOf leaf.split.1.children + nodesOf leaf.split.2.2.children =
      nodesOf leaf.children := by
    rw [← nodesOf_append, hchildren]
  have hmaxL : leaf.split.1.maxItems = 15 := by rw [maxItems, hmoved.left.isLeaf]; rfl
  have hmaxR : leaf.split.2.2.maxItems = 15 := by rw [maxItems, hmoved.right.isLeaf]; rfl
  have hfill : fill 0 = 7 := rfl
  constructor
  · intro hle
    obtain ⟨hins, hinsList, hinsNum, hinsChildren⟩ :=
      leafInsert_spec hmoved.left hle (by omega) item
    refine ⟨Sound.good hins (by omega), Sound.good hmoved.right (by omega), ?_, ?_⟩
    · rw [hinsList, hto ip hle, List.append_assoc, List.append_assoc, List.cons_append, hbefore hle,
        List.singleton_append]
    · rw [nodes_eq, hinsChildren, nodes_eq leaf.split.2.2, nodes_eq leaf]
      omega
  · intro hgt
    have hfrom' := hfrom ip (by omega) hip
    have hq : ip - leaf.split.1.numItems - 1 ≤ leaf.split.2.2.numItems := by omega
    obtain ⟨hins, hinsList, hinsNum, hinsChildren⟩ :=
      leafInsert_spec hmoved.right hq (by omega) item
    refine ⟨Sound.good hmoved.left (by omega), Sound.good hins (by omega), ?_, ?_⟩
    · rw [hinsList, ← hfrom', hbehind (by omega)]
      simp only [List.append_assoc, List.cons_append, List.nil_append]
    · rw [nodes_eq, nodes_eq (leafInsert _ _ _), hinsChildren, nodes_eq leaf]
      omega

/-- Inserting into a full leaf gives a tree with the item at its place. -/
theorem insertToFullLeaf_spec {t : BPTree α} {leaf : BPTreeNode α} (item : α)
    (hframes : FramesOK 0 leaf.toList.length path) (hleaf : Fitting 0 path leaf)
    (hfull : leaf.numItems = kMaxLeafKeys) (hip : ip ≤ leaf.numItems)
    (hheight : t.height = UInt32.ofNat (path.length + 1))
    (hnodes : t.numNodes = UInt32.ofNat (leaf.nodes + nodesAround path)) :
    Shaped (insertToFullLeaf t item leaf ip path)
      (before path ++ (leaf.itemsTo ip ++ [item] ++ leaf.itemsFrom ip) ++ after path) ∧
    (insertToFullLeaf t item leaf ip path).count = t.count := by
  unfold insertToFullLeaf
  split
  · rename_i root hroot
    have htree := rebalanceLeafAndInsert_spec hframes hleaf hfull hip hroot
    exact ⟨Shaped.of_tree rfl htree hheight hnodes, rfl⟩
  · obtain ⟨hleft, hright⟩ := splitLeaf_spec item hleaf.1 hfull hip
    have hitems := ((sound_iff 0 leaf).mp hleaf.1).itemsTo_append hip
    have hlen := congrArg List.length hitems
    simp only [List.length_append] at hlen
    have hheight' : t.createNode.height = UInt32.ofNat (0 + path.length + 1) := by
      rw [Nat.zero_add]
      exact hheight
    have hnodes' : t.createNode.numNodes = UInt32.ofNat (leaf.nodes + 1 + nodesAround path) := by
      show t.numNodes + 1 = _
      rw [hnodes, ← UInt32.ofNat_one, ← UInt32.ofNat_add]
      exact congrArg _ (by omega)
    dsimp only
    by_cases hle : ip ≤ leaf.split.1.numItems
    · rw [if_pos hle]
      obtain ⟨hgoodL, hgoodR, hlist, hsplitNodes⟩ := hleft hle
      have hsum := congrArg List.length hlist
      simp only [List.length_append, List.length_cons, List.length_nil] at hsum
      obtain ⟨hshaped, hcount⟩ := propagateSplit_spec leaf.split.2.1 hframes hgoodL
        hgoodR (by omega) hheight' (by rw [hsplitNodes]; exact hnodes')
      rw [hlist] at hshaped
      exact ⟨hshaped, hcount⟩
    · rw [if_neg hle]
      obtain ⟨hgoodL, hgoodR, hlist, hsplitNodes⟩ := hright hle
      have hsum := congrArg List.length hlist
      simp only [List.length_append, List.length_cons, List.length_nil] at hsum
      obtain ⟨hshaped, hcount⟩ := propagateSplit_spec leaf.split.2.1 hframes hgoodL
        hgoodR (by omega) hheight' (by rw [hsplitNodes]; exact hnodes')
      rw [hlist] at hshaped
      exact ⟨hshaped, hcount⟩

section Order

variable [LT α] [DecidableLT α] {t : BPTree α} {L : List α} {item : α}

/-- The outcomes of inserting `item` into a tree that reads `L`. -/
inductive Inserted (item : α) (L : List α) (t : BPTree α) : Bool × BPTree α → Prop
  | skipped {L₁ L₂ : List α} {k : α} (list : L = L₁ ++ k :: L₂)
      (equiv : ¬ item < k ∧ ¬ k < item) : Inserted item L t (false, t)
  | added {L₁ L₂ : List α} {t' : BPTree α} (list : L = L₁ ++ L₂) (below : ∀ x ∈ L₁, x < item)
      (above : ∀ y ∈ L₂, item < y) (holds : Holds t' (L₁ ++ item :: L₂)) :
      Inserted item L t (true, t')

/-- The first key becomes a root of its own. -/
theorem insert_none (hroot : t.root = none) (hT : Holds t []) :
    Inserted item [] t (t.insert item) := by
  have hzero : t.numNodes = 0 := by
    obtain ⟨-, -, -, hnodes⟩ | ⟨root, H, N, hroot', -⟩ := hT.shape
    · exact hnodes
    · rw [hroot] at hroot'
      contradiction
  unfold insert
  rw [hroot]
  have hnil : ([] : List α) = [] ++ [] := rfl
  refine .added hnil (by simp) (by simp) ⟨Or.inr ?_, rfl⟩
  refine Shaped.of_tree rfl (H := 0) (N := 1) ⟨nodeOK_leaf ?_, ?_, ?_, ?_⟩ rfl ?_
  · show 1 ≤ kMaxLeafKeys
    decide
  · exact Nat.one_pos
  · rw [toList_eq]
    rfl
  · rw [nodes_eq]
    rfl
  · show t.numNodes + 1 = 1
    rw [hzero]
    rfl

/-- `Insert` adds the item where it belongs, or leaves the tree alone when it is there. -/
theorem insert_spec (hT : Holds t L) (hcuts : Cuts item L) :
    Inserted item L t (t.insert item) := by
  obtain ⟨hroot, rfl, -⟩ | ⟨root, H, N, hroot, htree, hheight, hnodes⟩ := hT.shape
  · exact insert_none hroot hT
  · have hloc := locate_root hcuts htree
    unfold insert
    rw [hroot]
    dsimp only
    generalize locate item root [] = res at hloc
    cases hloc with
    | found place lt equiv =>
        obtain ⟨tail, hL, -⟩ := place.around lt
        exact .skipped hL equiv
    | @missed leaf pos rest place falls sides =>
        have hle : pos ≤ leaf.numItems := falls.le
        have hitems := place.nodeOK.itemsTo_append hle
        have hH : rest.length = H := by
          have hheight' := place.height
          omega
        obtain ⟨hL, hbelow, habove⟩ := place.gap falls sides
        have hcount : t.count + 1 = UInt32.ofNat
            ((before rest ++ leaf.itemsTo pos) ++
              item :: (leaf.itemsFrom pos ++ after rest)).length := by
          rw [hT.count, hL, ← UInt32.ofNat_one, ← UInt32.ofNat_add]
          refine congrArg _ ?_
          simp only [List.length_append, List.length_cons]
          omega
        refine .added hL hbelow habove ⟨Or.inr ?_, ?_⟩
        · by_cases hfull : leaf.numItems = kMaxLeafKeys
          · obtain ⟨⟨root', H', N', hroot', htree', hheight', hnodes'⟩, -⟩ :=
              insertToFullLeaf_spec item place.frames place.fitting hfull hle (t := t)
                (by rw [hH]; exact hheight) (by rw [place.nodes]; exact hnodes)
            rw [if_pos hfull]
            refine Shaped.of_tree hroot' ?_ hheight' hnodes'
            simpa only [List.append_assoc, List.cons_append, List.nil_append] using htree'
          · rw [if_neg hfull]
            have hmax : leaf.maxItems = kMaxLeafKeys := by rw [maxItems, place.isLeaf]; rfl
            have hroom : leaf.numItems < leaf.maxItems := by
              have hle_max := place.nodeOK.le_max
              omega
            obtain ⟨hins, hinsList, hinsNum, hinsChildren⟩ :=
              leafInsert_spec place.nodeOK hle hroom item
            have hfit : Fitting 0 rest (leaf.leafInsert pos item) := by
              refine ⟨hins, fun hne => ?_⟩
              have hfill := place.fitting.2 hne
              rw [place.fitting.1.minFill] at hfill
              rw [Sound.minFill (h := 0) hins]
              omega
            have htree' := writeBack_spec place.frames hfit (δ := 1) (by
                rw [hinsList, ← UInt32.ofNat_one, ← UInt32.ofNat_add, ← hitems]
                refine congrArg _ ?_
                simp only [List.length_append, List.length_cons]
                omega) (fun _ => by omega)
            rw [hinsList, nodes_eq, hinsChildren, ← nodes_eq, place.nodes, Nat.zero_add, hH]
              at htree'
            refine Shaped.of_tree rfl ?_ hheight hnodes
            simpa only [List.append_assoc, List.cons_append] using htree'
        · dsimp only
          by_cases hfull : leaf.numItems = kMaxLeafKeys
          · obtain ⟨-, hsame⟩ :=
              insertToFullLeaf_spec item place.frames place.fitting hfull hle (t := t)
                (by rw [hH]; exact hheight) (by rw [place.nodes]; exact hnodes)
            rw [if_pos hfull, hsame]
            exact hcount
          · rw [if_neg hfull]
            exact hcount

/-- A query that compares equal to every key is found at once, and not inserted. -/
theorem insert_unordered (hT : Holds t L) (hne : L ≠ [])
    (hq : ∀ k : α, ¬ item < k ∧ ¬ k < item) :
    t.insert item = (false, t) := by
  obtain ⟨-, rfl, -⟩ | ⟨root, H, N, hroot, -⟩ := hT.shape
  · contradiction
  · have hfound : (locate item root []).1 = true := by
      obtain ⟨leaf, ks, cs, cnt⟩ := root
      have hzero (k : α) : compareTo item k = 0 := compareTo_eq_zero.mpr (hq k)
      rw [locate, bSearch, hzero]
      rfl
    unfold insert
    rw [hroot]
    dsimp only
    generalize locate item root [] = res at hfound
    obtain ⟨found, path⟩ := res
    obtain rfl : found = true := hfound
    rfl

end Order

end BPTree

end AstraKV
