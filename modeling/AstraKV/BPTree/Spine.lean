import AstraKV.BPTree.Sibling

/-!
# AstraKV.BPTree.Spine

Paths as zippers.  A record of a path is a node with a hole at its child
`pos`; `FramesOK h s path` says that a subtree of height `h` which used to
have `s` keys fits into the hole of the deepest record, and so on up to
the root.  Nothing is said about the child that is still in the hole: an
operation puts the changed child there (`writeBack`).

`writeBack_spec` is the one rule for finishing an operation: a good
subtree whose size differs by `δ` from what the ancestors have cached,
written back below ancestors whose counts were increased by `δ`, gives a
sound tree.

What lies before the hole, after it and beside it are the three readings of a
path: `before` and `after` are lists of keys in the order of the whole tree,
`nodesAround` counts the blocks. A `Place` is a node together with frames that
fit around it; it remembers the height and the list of the tree it is in,
which is all the later modules ever ask.
-/

universe u

namespace AstraKV

open Weave BPTreeNode

variable {α : Type u}

namespace PathRecord

/-- The keys of the record's node before the hole. -/
def before (r : PathRecord α) : List α :=
  headWeave ((r.node.children.take r.pos).map toList) (r.node.keys.take r.pos)

/-- The keys of the record's node after the hole. -/
def after (r : PathRecord α) : List α :=
  tailWeave (r.node.keys.drop r.pos) ((r.node.children.drop (r.pos + 1)).map toList)

/-- The children other than the one in the hole. -/
def others (r : PathRecord α) : List (BPTreeNode α) :=
  r.node.children.take r.pos ++ r.node.children.drop (r.pos + 1)

/-- The children beside the hole are the frame's own. -/
theorem mem_others {r : PathRecord α} {i : Nat} {d : BPTreeNode α} (hi : i ≠ r.pos)
    (hd : r.node.children[i]? = some d) : d ∈ r.others := by
  obtain ⟨hlt, hget⟩ := List.getElem?_eq_some_iff.mp hd
  unfold others
  rw [List.mem_append]
  by_cases hbefore : i < r.pos
  · left
    rw [List.mem_take_iff_getElem]
    exact ⟨i, by omega, hget⟩
  · right
    rw [List.mem_drop_iff_getElem]
    refine ⟨i - (r.pos + 1), by omega, ?_⟩
    rw [← hget]
    congr 1
    omega

end PathRecord

/-- A node with a hole for a subtree of `s` keys. -/
structure FrameOK (P : BPTreeNode α → Prop) (s : Nat) (r : PathRecord α) : Prop where
  isLeaf : r.node.isLeaf = false
  length_children : r.node.children.length = r.node.keys.length + 1
  pos_le : r.pos ≤ r.node.keys.length
  le_max : r.node.keys.length ≤ kMaxInnerKeys
  pos_keys : 0 < r.node.keys.length
  others : ∀ c ∈ r.others, P c
  count : r.node.innerTreeCount = UInt32.ofNat (r.before.length + s + r.after.length)

section Frame

variable {P : BPTreeNode α → Prop} {s : Nat} {r : PathRecord α}

/-- The children of a frame with its hole filled. -/
theorem FrameOK.children_eq (hr : FrameOK P s r) (c : BPTreeNode α) :
    (r.node.setChild r.pos c).children =
      r.node.children.take r.pos ++ c :: r.node.children.drop (r.pos + 1) := by
  have hlen := hr.length_children
  have hpos := hr.pos_le
  rw [setChild, List.set_eq_take_append_cons_drop, if_pos (by omega)]

/-- The reading of a frame with its hole filled. -/
theorem FrameOK.setChild_toList (hr : FrameOK P s r) (c : BPTreeNode α) :
    (r.node.setChild r.pos c).toList = r.before ++ c.toList ++ r.after := by
  have hlen := hr.length_children
  have hpos := hr.pos_le
  have hkeys : (r.node.setChild r.pos c).keys = r.node.keys.take r.pos ++ r.node.keys.drop r.pos :=
    (List.take_append_drop _ _).symm
  rw [toList_eq, hr.children_eq, hkeys, List.map_append, List.map_cons,
    weave_focus _ (by simp only [List.length_map, List.length_take]; omega)]
  rfl

/-- Up to the hole's separator it ends with the child. -/
theorem FrameOK.setChild_itemsTo (hr : FrameOK P s r) (c : BPTreeNode α) :
    (r.node.setChild r.pos c).itemsTo r.pos = r.before ++ c.toList := by
  have hlen := hr.length_children
  have hpos := hr.pos_le
  have hX : (r.node.children.take r.pos).length = r.pos := by
    rw [List.length_take]
    omega
  have htake : (r.node.setChild r.pos c).children.take (r.pos + 1) =
      r.node.children.take r.pos ++ c :: [] := by
    rw [hr.children_eq, List.take_append, hX, List.take_of_length_le (by omega)]
    simp
  have hkeys : (r.node.setChild r.pos c).keys.take r.pos = r.node.keys.take r.pos ++ [] :=
    (List.append_nil _).symm
  rw [itemsTo, weaveTo, ← List.map_take, htake, hkeys, List.map_append, List.map_cons,
    List.map_nil, weave_focus _ (by simp only [List.length_map, List.length_take]; omega)]
  simp [PathRecord.before]

/-- From there on the child does not matter. -/
theorem FrameOK.setChild_itemsFrom (hr : FrameOK P s r) (c : BPTreeNode α) :
    (r.node.setChild r.pos c).itemsFrom r.pos = r.after := by
  have hlen := hr.length_children
  have hpos := hr.pos_le
  have hX : (r.node.children.take r.pos).length = r.pos := by
    rw [List.length_take]
    omega
  have hdrop : (r.node.setChild r.pos c).children.drop (r.pos + 1) =
      r.node.children.drop (r.pos + 1) := by
    rw [hr.children_eq, List.drop_append, hX, List.drop_of_length_le (by omega)]
    simp
  rw [itemsFrom, weaveFrom, ← List.map_drop, hdrop]
  rfl

/-- The blocks are the child's, the others' and the frame's own. -/
theorem FrameOK.setChild_nodes (hr : FrameOK P s r) (c : BPTreeNode α) :
    (r.node.setChild r.pos c).nodes = c.nodes + (nodesOf r.others + 1) := by
  rw [nodes_eq, hr.children_eq, nodesOf_append, nodesOf_cons, PathRecord.others, nodesOf_append]
  omega

/-- Filling the hole with a subtree of another size makes the count wrong by the difference. -/
theorem FrameOK.setChild_nodeOK {Q : BPTreeNode α → Prop} (hr : FrameOK P s r)
    {c : BPTreeNode α} (hQ : ∀ d, P d → Q d) (hc : Q c) :
    NodeOK Q false (UInt32.ofNat s - UInt32.ofNat c.toList.length)
      (r.node.setChild r.pos c) where
  isLeaf := hr.isLeaf
  fits := by
    have hlen := hr.length_children
    simp only [Fits, Bool.false_eq_true, if_false, setChild, List.length_set]
    exact hlen
  le_max := by
    have hmax := hr.le_max
    simp only [maxItems, setChild, hr.isLeaf, Bool.false_eq_true, if_false]
    exact hmax
  count := by
    have hcount := hr.count
    have hleaf := hr.isLeaf
    have hinner : (r.node.setChild r.pos c).treeCount = r.node.innerTreeCount := by
      simp only [treeCount, setChild, hleaf, Bool.false_eq_true, if_false]
    rw [hinner, hcount, hr.setChild_toList]
    simp only [List.length_append, UInt32.ofNat_add]
    grind
  child := by
    rw [hr.children_eq]
    intro d hd
    rcases List.mem_append.mp hd with hd | hd
    · exact hQ d (hr.others d (List.mem_append_left _ hd))
    · rcases List.mem_cons.mp hd with hd | hd
      · exact hd ▸ hc
      · exact hQ d (hr.others d (List.mem_append_right _ hd))

/-- A node is a frame around each of its children, for a subtree which is larger than the
child by the node's defect. -/
theorem BPTreeNode.NodeOK.frame {n c : BPTreeNode α} {i t : Nat} {e : UInt32}
    (hn : NodeOK P false e n) (hpos : 0 < n.numItems) (hc : n.children[i]? = some c)
    (ht : UInt32.ofNat t = UInt32.ofNat c.toList.length + e) :
    FrameOK P t ⟨n, i⟩ ∧
      n.toList = PathRecord.before ⟨n, i⟩ ++ c.toList ++ PathRecord.after ⟨n, i⟩ ∧
      n.nodes = c.nodes + (nodesOf (PathRecord.others ⟨n, i⟩) + 1) := by
  have hlen := hn.length_children
  obtain ⟨hi, hci⟩ := List.getElem?_eq_some_iff.mp hc
  have hset : n.setChild i c = n := setChild_self hc
  have hmax := hn.le_max
  have hleaf := hn.isLeaf
  have hsplit : n.children = n.children.take i ++ c :: n.children.drop (i + 1) := by
    rw [← hci, ← List.drop_eq_getElem_cons hi, List.take_append_drop]
  have hlist : n.toList = PathRecord.before ⟨n, i⟩ ++ c.toList ++ PathRecord.after ⟨n, i⟩ := by
    have hkeys : n.keys = n.keys.take i ++ n.keys.drop i := (List.take_append_drop _ _).symm
    rw [toList_eq]
    conv_lhs => rw [hsplit, hkeys]
    rw [List.map_append, List.map_cons,
      weave_focus _ (by simp only [List.length_map, List.length_take]; omega)]
    rfl
  have hframe : FrameOK P t ⟨n, i⟩ :=
    { isLeaf := hleaf
      length_children := hlen
      pos_le := by show i ≤ n.keys.length; omega
      le_max := by
        rw [maxItems, hleaf] at hmax
        exact hmax
      pos_keys := hpos
      others := fun d hd => by
        rcases List.mem_append.mp hd with hd | hd
        · exact hn.child d (List.mem_of_mem_take hd)
        · exact hn.child d (List.mem_of_mem_drop hd)
      count := by
        have hcount := hn.count
        rw [treeCount, hleaf, hlist] at hcount
        refine hcount.trans ?_
        simp only [List.length_append, UInt32.ofNat_add, ht]
        grind }
  refine ⟨hframe, hlist, ?_⟩
  have hnodes := hframe.setChild_nodes c
  rw [hset] at hnodes
  exact hnodes

end Frame

/-! ## whole paths -/

namespace BPTreePath

/-- Keys before the hole of the deepest record. -/
def before : BPTreePath α → List α
  | [] => []
  | r :: rest => before rest ++ r.before

/-- Keys after the hole of the deepest record. -/
def after : BPTreePath α → List α
  | [] => []
  | r :: rest => r.after ++ after rest

/-- Nodes of the tree outside the hole. -/
def nodesAround : BPTreePath α → Nat
  | [] => 0
  | r :: rest => nodesOf r.others + 1 + nodesAround rest

/-- Ancestors of a subtree of height `h` which had `s` keys. -/
def FramesOK : Nat → Nat → BPTreePath α → Prop
  | _, _, [] => True
  | h, s, r :: rest =>
      FrameOK (Good h) s r ∧ (rest ≠ [] → r.node.minFill ≤ r.node.numItems) ∧
        FramesOK (h + 1) (r.before.length + s + r.after.length) rest

/-- What lies before a path lies before its upper part, then before the lower. -/
@[simp] theorem before_append (below path : BPTreePath α) :
    before (below ++ path) = before path ++ before below := by
  induction below with
  | nil => simp [before]
  | cons r below ih => rw [List.cons_append, before, ih, before, List.append_assoc]

/-- What lies after a path lies after its lower part, then after the upper. -/
@[simp] theorem after_append (below path : BPTreePath α) :
    after (below ++ path) = after below ++ after path := by
  induction below with
  | nil => rfl
  | cons r below ih => rw [List.cons_append, after, ih, after, List.append_assoc]

/-- The blocks around a path, part by part. -/
theorem nodesAround_append (below path : BPTreePath α) :
    nodesAround (below ++ path) = nodesAround below + nodesAround path := by
  induction below with
  | nil => simp [nodesAround]
  | cons r below ih =>
      rw [List.cons_append, nodesAround, ih, nodesAround]
      omega

/-- A record in the middle of a path may be exchanged for one of the same sizes. -/
theorem FramesOK.exchange {h s : Nat} {below rest : BPTreePath α} {r r' : PathRecord α}
    (hframes : FramesOK h s (below ++ r :: rest))
    (hframe : ∀ P t, FrameOK P t r → FrameOK P t r')
    (hnum : r'.node.numItems = r.node.numItems) (hmin : r'.node.minFill = r.node.minFill)
    (hbefore : r'.before.length = r.before.length) (hafter : r'.after.length = r.after.length) :
    FramesOK h s (below ++ r' :: rest) := by
  induction below generalizing h s with
  | nil =>
      obtain ⟨hr, hfill, hrest⟩ := hframes
      rw [← hmin, ← hnum] at hfill
      rw [← hbefore, ← hafter] at hrest
      exact ⟨hframe _ _ hr, hfill, hrest⟩
  | cons f below ih =>
      obtain ⟨hf, hfill, hrest⟩ := hframes
      exact ⟨hf, fun _ => hfill (by simp), ih hrest⟩

/-- What the node below `path` has to satisfy: at the root there is no lower bound. -/
def Fitting (h : Nat) (path : BPTreePath α) (n : BPTreeNode α) : Prop :=
  Sound h n ∧ (path ≠ [] → n.minFill ≤ n.numItems)

/-- A node below a frame has to be good. -/
theorem Fitting.good {h : Nat} {r : PathRecord α} {rest : BPTreePath α} {n : BPTreeNode α}
    (hn : Fitting h (r :: rest) n) : Good h n := ⟨hn.1, hn.2 (by simp)⟩

/-- A root of height `H` with `N` nodes that reads `L`. -/
structure TreeOf (H N : Nat) (L : List α) (root : BPTreeNode α) : Prop where
  sound : Sound H root
  pos : 0 < root.numItems
  toList : root.toList = L
  nodes : root.nodes = N

/-- Writing a subtree back below its ancestors. -/
theorem writeBack_spec {h s : Nat} {path : BPTreePath α} {n : BPTreeNode α} {δ : UInt32}
    (hframes : FramesOK h s path) (hn : Fitting h path n)
    (hδ : UInt32.ofNat n.toList.length = UInt32.ofNat s + δ)
    (hpos : path = [] → 0 < n.numItems) :
    TreeOf (h + path.length) (n.nodes + nodesAround path) (before path ++ n.toList ++ after path)
      (writeBack n (increaseSubtreeCounts path δ)) := by
  induction path generalizing h s n with
  | nil =>
      exact ⟨hn.1, hpos rfl, by simp [increaseSubtreeCounts, writeBack, before, after], rfl⟩
  | cons r rest ih =>
      obtain ⟨hr, hfill, hrest⟩ := hframes
      have hset := (hr.setChild_nodeOK (fun _ hd => hd) hn.good).increaseTreeCount δ
      have hzero : UInt32.ofNat s - UInt32.ofNat n.toList.length + δ = 0 := by
        rw [hδ]
        grind
      rw [hzero] at hset
      have hlist : ((r.node.setChild r.pos n).increaseTreeCount δ).toList =
          r.before ++ n.toList ++ r.after := by
        rw [increaseTreeCount_toList, hr.setChild_toList]
      have hδ' : UInt32.ofNat ((r.node.setChild r.pos n).increaseTreeCount δ).toList.length =
          UInt32.ofNat (r.before.length + s + r.after.length) + δ := by
        rw [hlist]
        simp only [List.length_append, UInt32.ofNat_add, hδ]
        grind
      have htree := ih hrest ⟨hset, hfill⟩ hδ' (fun _ => hr.pos_keys)
      have hheight : h + (r :: rest).length = h + 1 + rest.length := by
        rw [List.length_cons]
        omega
      exact
        { sound := by rw [hheight]; exact htree.sound
          pos := htree.pos
          toList := by
            refine htree.toList.trans ?_
            rw [hlist]
            simp only [before, after, List.append_assoc]
          nodes := by
            refine htree.nodes.trans ?_
            rw [increaseTreeCount_nodes, hr.setChild_nodes, nodesAround]
            omega }

/-- Descending from a node into one of its children. -/
theorem FramesOK.push {h s : Nat} {path : BPTreePath α} {n c : BPTreeNode α} {i : Nat}
    (hframes : FramesOK (h + 1) n.toList.length path) (hn : Fitting (h + 1) path n)
    (hpos : 0 < n.numItems) (hc : n.children[i]? = some c) (hs : s = c.toList.length) :
    FramesOK h s (⟨n, i⟩ :: path) ∧ Fitting h (⟨n, i⟩ :: path) c ∧
      before (⟨n, i⟩ :: path) ++ c.toList ++ after (⟨n, i⟩ :: path) =
        before path ++ n.toList ++ after path ∧
      c.nodes + nodesAround (⟨n, i⟩ :: path) = n.nodes + nodesAround path := by
  have hsound : NodeOK (Good h) false 0 n := hn.1
  obtain ⟨hframe, hlist, hnodes⟩ := hsound.frame hpos hc (UInt32.add_zero _).symm
  have hgood : Good h c := hsound.child c (List.mem_of_getElem? hc)
  subst hs
  refine ⟨⟨hframe, hn.2, ?_⟩, ⟨hgood.1, fun _ => hgood.2⟩, ?_, ?_⟩
  · rw [← List.length_append, ← List.length_append, ← hlist]
    exact hframes
  · rw [hlist, before, after]
    simp only [List.append_assoc]
  · rw [hnodes, nodesAround]
    omega

/-! ## places in a tree -/

/-- Every record's child at its position is the next node down, at last `n`. -/
def Linked : BPTreeNode α → BPTreePath α → Prop
  | _, [] => True
  | n, r :: rest => r.node.children[r.pos]? = some n ∧ Linked r.node rest

/-- A subtree `n` of height `h` at the end of a path into a tree of height `H`, with
`N` nodes, that reads `L`. -/
structure Place (H N : Nat) (L : List α) (h : Nat) (n : BPTreeNode α) (path : BPTreePath α) :
    Prop where
  frames : FramesOK h n.toList.length path
  fitting : Fitting h path n
  pos : 0 < n.numItems
  height : h + path.length = H
  toList : before path ++ n.toList ++ after path = L
  nodes : n.nodes + nodesAround path = N
  linked : Linked n path

section Place

variable {H N h : Nat} {L : List α} {n c : BPTreeNode α} {path : BPTreePath α}

/-- The root is a place, with nothing around it. -/
theorem TreeOf.place (hn : TreeOf H N L n) : Place H N L H n [] where
  frames := trivial
  fitting := ⟨hn.sound, fun h => (h rfl).elim⟩
  pos := hn.pos
  height := rfl
  toList := by simp [before, after, hn.toList]
  nodes := hn.nodes
  linked := trivial

/-- The node at a place satisfies the invariant. -/
theorem Place.nodeOK (hp : Place H N L h n path) : NodeOK (ChildOf h) (h == 0) 0 n :=
  (sound_iff h n).mp hp.fitting.1

/-- Only the nodes of height 0 are leaves. -/
theorem Place.isLeaf (hp : Place H N L h n path) : n.isLeaf = (h == 0) := hp.nodeOK.isLeaf

/-- At height zero a place is a leaf. -/
theorem Place.isLeaf_zero (hp : Place H N L 0 n path) : n.isLeaf = true := hp.isLeaf

/-- Above it is an inner node. -/
theorem Place.isLeaf_succ (hp : Place H N L (h + 1) n path) : n.isLeaf = false := hp.isLeaf

/-- The list of the whole tree, read around key `i` of the node. -/
theorem Place.around (hp : Place H N L h n path) {i : Nat} (hi : i < n.keys.length) :
    ∃ tail, L = (before path ++ n.itemsTo i) ++ n.keys[i] :: (tail ++ after path) ∧
      n.itemsFrom i = n.keys[i] :: tail := by
  have hitems := hp.nodeOK.itemsTo_append (i := i) (by unfold numItems; omega)
  obtain ⟨tail, htail⟩ := n.itemsFrom_eq_cons hi
  refine ⟨tail, ?_, htail⟩
  rw [← hp.toList, ← hitems, htail]
  simp only [List.append_assoc, List.cons_append]

/-- A node's own keys, in order, among the keys of its subtree. -/
theorem keys_sublist (n : BPTreeNode α) : n.keys.Sublist n.toList := by
  rw [toList_eq]
  exact sublist_weave _ _

/-- The keys of a node occur in order in the list of the tree. -/
theorem Place.keys_sublist (hp : Place H N L h n path) : n.keys.Sublist L := by
  have hsub := BPTreePath.keys_sublist n
  rw [← hp.toList]
  exact (hsub.trans (List.sublist_append_right _ _)).trans (List.sublist_append_left _ _)

/-- Descending into child `i`. -/
theorem Place.push (hp : Place H N L (h + 1) n path) {i : Nat} (hc : n.children[i]? = some c) :
    Place H N L h c (⟨n, i⟩ :: path) := by
  obtain ⟨hframes, hfit, hlist, hnodes⟩ := hp.frames.push hp.fitting hp.pos hc rfl
  exact
    { frames := hframes
      fitting := hfit
      pos := hfit.good.numItems_pos
      height := by rw [List.length_cons, ← hp.height]; omega
      toList := hlist.trans hp.toList
      nodes := hnodes.trans hp.nodes
      linked := ⟨hc, hp.linked⟩ }

/-- Going back up: the parent of a place. -/
theorem Place.pop {r : PathRecord α} (hp : Place H N L h n (r :: path)) :
    Place H N L (h + 1) r.node path := by
  obtain ⟨hr, hfill, hframes⟩ := hp.frames
  obtain ⟨hc, hlinked⟩ := hp.linked
  have hset : r.node.setChild r.pos n = r.node := setChild_self hc
  have hnode := hr.setChild_nodeOK (fun _ hd => hd) hp.fitting.good
  have hlist := hr.setChild_toList n
  have hnodes := hr.setChild_nodes n
  rw [hset, UInt32.sub_self] at hnode
  rw [hset] at hlist hnodes
  exact
    { frames := by
        rw [hlist, List.length_append, List.length_append]
        exact hframes
      fitting := ⟨hnode, hfill⟩
      pos := hr.pos_keys
      height := by rw [← hp.height, List.length_cons]; omega
      toList := by
        rw [hlist, ← hp.toList, before, after]
        simp only [List.append_assoc]
      nodes := by
        rw [hnodes, ← hp.nodes, nodesAround]
        omega
      linked := hlinked }

/-- An inner node has a child at every position up to its number of keys. -/
theorem Place.exists_child (hp : Place H N L (h + 1) n path) {i : Nat} (hi : i ≤ n.numItems) :
    ∃ c, n.children[i]? = some c := by
  have hlen := hp.nodeOK.length_children
  have hlt : i < n.children.length := by
    unfold numItems at hi
    omega
  exact ⟨n.children[i], List.getElem?_eq_getElem hlt⟩

end Place

end BPTreePath

end AstraKV
