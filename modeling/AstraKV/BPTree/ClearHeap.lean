import AstraKV.BPTree.Clear
import AstraKV.BPTree.Shape

/-!
# AstraKV.BPTree.ClearHeap

`Clear` on node blocks.

The walk of `AstraKV.BPTree.Clear` goes over a tree that is a value, so it
cannot see a node that is gone.  Here the nodes are blocks at addresses and
hold the addresses of their children; reading a block that is not there, or
destroying it, has no result.

A layout places every node of a tree at an address of its own. For such a
layout the walk reads only blocks that are still there, frees each of them
exactly once and leaves every other block of the heap alone. Post-order is
what makes this true: a parent is read for the last time after its last child
is gone and before it is destroyed itself.

* `Stores` says that the heap has the blocks of a placed tree,
* `Cleared` is the invariant of the walk at one subtree,
* `clear_layout` is the result for a whole tree.
-/

universe u v

namespace AstraKV

/-- A node block; the children are pointers. -/
structure BPTreeBlock (ι : Type v) (α : Type u) where
  isLeaf : Bool
  keys : List α
  children : List ι
  innerTreeCount : UInt32

def BPTreeBlock.numItems {ι : Type v} {α : Type u} (b : BPTreeBlock ι α) : Nat := b.keys.length

/-- The tree in memory.  `freed` keeps the addresses given back, in order. -/
structure HeapTree (ι : Type v) (α : Type u) where
  block : ι → Option (BPTreeBlock ι α)
  root : Option ι
  count : UInt32
  height : UInt32
  numNodes : UInt32
  freed : List ι

/-! ## Clear -/

namespace HeapTree

variable {ι : Type v} {α : Type u}

/-- `Push` on a path with room for `cap` records, or for any number of them. -/
def push (cap : Option Nat) (r : ι × Nat) (path : List (ι × Nat)) : Option (List (ι × Nat)) :=
  if cap.all (path.length < ·) then some (r :: path) else none

/-- The lambda `deep_left` with its `node`, in at most `fuel` turns: the leaf it stops at and the
path to it. -/
def deepLeft (cap : Option Nat) (t : HeapTree ι α) :
    Nat → ι → Nat → List (ι × Nat) → Option (ι × List (ι × Nat))
  | 0, _, _, _ => none
  | fuel + 1, node, pos, path =>
      (push cap (node, pos) path).bind fun path =>
        (t.block node).bind fun block =>
          block.children[pos]?.bind fun node =>
            (t.block node).bind fun block =>
              if block.isLeaf then some (node, path) else deepLeft cap t fuel node 0 path

variable [DecidableEq ι]

def destroyNode (t : HeapTree ι α) (node : ι) : Option (HeapTree ι α) :=
  (t.block node).map fun _ =>
    { t with
      block := Function.update t.block node none
      numNodes := t.numNodes - 1
      freed := t.freed ++ [node] }

/-- The loop of `Clear`. -/
def clearLoop (cap : Option Nat) (dig : Nat) :
    Nat → HeapTree ι α → ι → List (ι × Nat) → Option (HeapTree ι α)
  | 0, _, _, _ => none
  | fuel + 1, t, node, path =>
      (t.destroyNode node).bind fun t =>
        match path with
        | [] => some t
        | (node, pos) :: path =>
            (t.block node).bind fun block =>
              if pos < block.numItems then
                (t.deepLeft cap dig node (pos + 1) path).bind fun (node, path) =>
                  clearLoop cap dig fuel t node path
              else clearLoop cap dig fuel t node path

/-- `Clear()`, with at most `fuel` turns of each of its loops. -/
def clear (cap : Option Nat) (fuel : Nat) (t : HeapTree ι α) : Option (HeapTree ι α) :=
  match t.root with
  | none => some t
  | some root =>
      (t.block root).bind fun block =>
        (if block.isLeaf then some (root, []) else t.deepLeft cap fuel root 0 []).bind
          fun (node, path) =>
            (clearLoop cap fuel fuel t node path).map fun t =>
              { t with root := none, count := 0, height := 0 }

end HeapTree

/-! ## a tree laid out in memory -/

/-- A node, and the address of the block of each node of its subtree. -/
structure PlacedNode (ι : Type v) (α : Type u) where
  addr : ι
  isLeaf : Bool
  keys : List α
  children : List (PlacedNode ι α)
  innerTreeCount : UInt32

namespace PlacedNode

variable {ι : Type v} {α : Type u}

def block (p : PlacedNode ι α) : BPTreeBlock ι α :=
  ⟨p.isLeaf, p.keys, p.children.map addr, p.innerTreeCount⟩

mutual
/-- The node without the addresses. -/
def node : PlacedNode ι α → BPTreeNode α
  | ⟨_, leaf, ks, cs, cnt⟩ => ⟨leaf, ks, nodesOf cs, cnt⟩

def nodesOf : List (PlacedNode ι α) → List (BPTreeNode α)
  | [] => []
  | c :: cs => node c :: nodesOf cs
end

mutual
/-- All nodes of a subtree, every node after its children. -/
def postOrder : PlacedNode ι α → List (PlacedNode ι α)
  | ⟨a, leaf, ks, cs, cnt⟩ => postOrders cs ++ [⟨a, leaf, ks, cs, cnt⟩]

def postOrders : List (PlacedNode ι α) → List (PlacedNode ι α)
  | [] => []
  | c :: cs => postOrder c ++ postOrders cs
end

theorem nodesOf_eq_map (cs : List (PlacedNode ι α)) : nodesOf cs = cs.map node := by
  induction cs with
  | nil => rfl
  | cons c cs ih => rw [nodesOf, ih, List.map_cons]

/-- What a placed node stands for, children included. -/
theorem node_eq (p : PlacedNode ι α) :
    p.node = ⟨p.isLeaf, p.keys, p.children.map node, p.innerTreeCount⟩ := by
  obtain ⟨a, leaf, ks, cs, cnt⟩ := p
  rw [node, nodesOf_eq_map]

/-- Placing a node does not change whether it is a leaf. -/
@[simp] theorem node_isLeaf (p : PlacedNode ι α) : p.node.isLeaf = p.isLeaf := by rw [node_eq]

/-- Placing a node does not change its keys. -/
@[simp] theorem node_keys (p : PlacedNode ι α) : p.node.keys = p.keys := by rw [node_eq]

/-- The children of the node are what the placed children stand for. -/
@[simp] theorem node_children (p : PlacedNode ι α) : p.node.children = p.children.map node := by
  rw [node_eq]

/-- A placed node comes after everything below it. -/
theorem postOrder_eq (p : PlacedNode ι α) : p.postOrder = postOrders p.children ++ [p] := by
  obtain ⟨a, leaf, ks, cs, cnt⟩ := p
  rw [postOrder]

/-- The post-order of some subtrees has the nodes of each of them. -/
theorem mem_postOrders {cs : List (PlacedNode ι α)} {m : PlacedNode ι α} :
    m ∈ postOrders cs ↔ ∃ c ∈ cs, m ∈ c.postOrder := by
  induction cs with
  | nil => simp [postOrders]
  | cons c cs ih => simp [postOrders, ih]

mutual
/-- Forgetting the addresses gives the post-order of the tree. -/
theorem map_postOrder : ∀ p : PlacedNode ι α, p.postOrder.map node = p.node.postOrder
  | ⟨a, leaf, ks, cs, cnt⟩ => by
      rw [postOrder, List.map_append, map_postOrders cs, BPTreeNode.postOrder_eq, node_children,
        List.map_singleton]

theorem map_postOrders :
    ∀ cs : List (PlacedNode ι α), (postOrders cs).map node = BPTreeNode.postOrders (cs.map node)
  | [] => rfl
  | c :: cs => by
      rw [postOrders, List.map_append, map_postOrder c, map_postOrders cs, List.map_cons,
        BPTreeNode.postOrders]
end

/-- A placed tree has as many nodes as the tree it stands for. -/
theorem length_postOrder (p : PlacedNode ι α) : p.postOrder.length = p.node.nodes := by
  rw [← BPTreeNode.length_postOrder, ← map_postOrder, List.length_map]

/-- The addresses of a subtree, children first. -/
def addrs (p : PlacedNode ι α) : List ι := p.postOrder.map addr

def addrsOf (cs : List (PlacedNode ι α)) : List ι := (postOrders cs).map addr

/-- The addresses of a subtree in post-order, its root's last. -/
theorem addrs_eq (p : PlacedNode ι α) : p.addrs = addrsOf p.children ++ [p.addr] := by
  rw [addrs, postOrder_eq, List.map_append, List.map_singleton, addrsOf]

theorem addrsOf_cons (c : PlacedNode ι α) (cs : List (PlacedNode ι α)) :
    addrsOf (c :: cs) = c.addrs ++ addrsOf cs := by
  rw [addrsOf, postOrders, List.map_append, addrs, addrsOf]

/-- A node's own address is among those of its subtree. -/
theorem addr_mem_addrs (p : PlacedNode ι α) : p.addr ∈ p.addrs := by
  rw [addrs_eq]
  simp

/-- A child's addresses stand in order among those of its siblings. -/
theorem addrs_sublistOf {cs : List (PlacedNode ι α)} {c : PlacedNode ι α} (hc : c ∈ cs) :
    c.addrs.Sublist (addrsOf cs) := by
  induction cs with
  | nil => simp at hc
  | cons d cs ih =>
      rw [addrsOf_cons]
      cases hc with
      | head => exact List.sublist_append_left _ _
      | tail _ hc => exact (ih hc).trans (List.sublist_append_right _ _)

mutual
/-- Every node of a subtree has its addresses among those of the subtree. -/
theorem addrs_sublist {m : PlacedNode ι α} :
    ∀ p : PlacedNode ι α, m ∈ p.postOrder → m.addrs.Sublist p.addrs
  | ⟨a, leaf, ks, cs, cnt⟩, hm => by
      rw [postOrder, List.mem_append, List.mem_singleton] at hm
      rw [addrs_eq ⟨a, leaf, ks, cs, cnt⟩]
      cases hm with
      | inl hm => exact (addrs_sublist_children cs hm).trans (List.sublist_append_left _ _)
      | inr hm => rw [hm, addrs_eq]

theorem addrs_sublist_children {m : PlacedNode ι α} :
    ∀ cs : List (PlacedNode ι α), m ∈ postOrders cs → m.addrs.Sublist (addrsOf cs)
  | [], hm => by simp [postOrders] at hm
  | c :: cs, hm => by
      rw [postOrders, List.mem_append] at hm
      rw [addrsOf_cons]
      cases hm with
      | inl hm => exact (addrs_sublist c hm).trans (List.sublist_append_left _ _)
      | inr hm => exact (addrs_sublist_children cs hm).trans (List.sublist_append_right _ _)
end

/-- A child's address comes before its parent's. -/
theorem child_before {p m c : PlacedNode ι α} (hm : m ∈ p.postOrder) (hc : c ∈ m.children) :
    [c.addr, m.addr].Sublist p.addrs := by
  refine List.Sublist.trans ?_ (addrs_sublist p hm)
  have hchild : [c.addr].Sublist (addrsOf m.children) :=
    (List.singleton_sublist.mpr (addr_mem_addrs c)).trans (addrs_sublistOf hc)
  rw [addrs_eq m]
  exact hchild.append (List.Sublist.refl [m.addr])

mutual
/-- The nodes of a subtree at the addresses `k`, `k + 1`, …, children first. -/
def number (k : Nat) : BPTreeNode α → PlacedNode Nat α
  | ⟨leaf, ks, cs, cnt⟩ => ⟨k + BPTreeNode.nodesOf cs, leaf, ks, numberOf k cs, cnt⟩

def numberOf (k : Nat) : List (BPTreeNode α) → List (PlacedNode Nat α)
  | [] => []
  | c :: cs => number k c :: numberOf (k + c.nodes) cs
end

mutual
/-- Numbering the nodes of a tree gives a layout of that very tree. -/
theorem node_number (k : Nat) : ∀ n : BPTreeNode α, (number k n).node = n
  | ⟨leaf, ks, cs, cnt⟩ => by rw [number, node, nodesOf_numberOf k cs]

/-- Numbering some trees gives layouts of those very trees. -/
theorem nodesOf_numberOf (k : Nat) : ∀ cs : List (BPTreeNode α), nodesOf (numberOf k cs) = cs
  | [] => rfl
  | c :: cs => by rw [numberOf, nodesOf, node_number k c, nodesOf_numberOf _ cs]
end

mutual
/-- The numbers given out are consecutive, so no two nodes share one. -/
theorem addrs_number (k : Nat) :
    ∀ n : BPTreeNode α, (number k n).addrs = List.range' k n.nodes
  | ⟨leaf, ks, cs, cnt⟩ => by
      rw [number, addrs_eq, addrsOf_numberOf k cs, BPTreeNode.nodes_eq, List.range'_concat]
      simp

/-- Some trees are numbered one after the other. -/
theorem addrsOf_numberOf (k : Nat) : ∀ cs : List (BPTreeNode α),
    addrsOf (numberOf k cs) = List.range' k (BPTreeNode.nodesOf cs)
  | [] => rfl
  | c :: cs => by
      rw [numberOf, addrsOf_cons, addrs_number k c, addrsOf_numberOf _ cs,
        BPTreeNode.nodesOf_cons, List.range'_append_1]
end

end PlacedNode

/-- How a tree lies in memory: no block is part of it twice. -/
structure Layout {ι : Type v} {α : Type u} (block : ι → Option (BPTreeBlock ι α))
    (root : BPTreeNode α) where
  placed : PlacedNode ι α
  node_eq : placed.node = root
  nodup : placed.addrs.Nodup
  stored : ∀ m ∈ placed.postOrder, block m.addr = some m.block

/-- Every tree can lie in memory. -/
def Layout.numbered {α : Type u} (n : BPTreeNode α) :
    Layout (fun a : Nat => (PlacedNode.number 0 n).postOrder[a]?.map PlacedNode.block) n where
  placed := .number 0 n
  node_eq := PlacedNode.node_number 0 n
  nodup := by
    rw [PlacedNode.addrs_number]
    exact List.nodup_range'
  stored := fun m hm => by
    obtain ⟨i, hi, rfl⟩ := List.mem_iff_getElem.mp hm
    have haddr : ((PlacedNode.number 0 n).addrs)[i]? = some i := by
      rw [PlacedNode.addrs_number, List.getElem?_range' (by
        rw [← PlacedNode.node_number 0 n, ← PlacedNode.length_postOrder]
        exact hi)]
      simp
    rw [PlacedNode.addrs, List.getElem?_map, List.getElem?_eq_getElem hi] at haddr
    rw [Option.some.inj haddr, List.getElem?_eq_getElem hi, Option.map_some]

/-! ## the walk -/

namespace HeapTree

open PlacedNode
open BPTreeNode (Sound NodeOK Good)

variable {ι : Type v} {α : Type u} {cap : Option Nat} {t : HeapTree ι α} {p c : PlacedNode ι α}
  {as bs : List ι} {path : List (ι × Nat)} {a : ι}

/-- The blocks of a subtree are where it says. -/
def Stores (t : HeapTree ι α) (p : PlacedNode ι α) : Prop :=
  ∀ m ∈ p.postOrder, t.block m.addr = some m.block

/-- A stored node's block is found at its address. -/
theorem Stores.block (h : t.Stores p) : t.block p.addr = some p.block :=
  h p (by rw [postOrder_eq]; simp)

/-- What stores a node stores its children. -/
theorem Stores.child (h : t.Stores p) (hc : c ∈ p.children) : t.Stores c := fun m hm =>
  h m (by
    rw [postOrder_eq]
    exact List.mem_append_left _ (mem_postOrders.mpr ⟨c, hc, hm⟩))

/-- Down to the leftmost leaf of a subtree. -/
def enter (cap : Option Nat) (t : HeapTree ι α) (fuel : Nat) (p : PlacedNode ι α)
    (path : List (ι × Nat)) : Option (ι × List (ι × Nat)) :=
  if p.isLeaf then some (p.addr, path) else t.deepLeft cap fuel p.addr 0 path

/-- Digging through a child that is there enters its subtree. -/
theorem deepLeft_child {fuel pos : Nat} (hp : t.block p.addr = some p.block)
    (hc : p.children[pos]? = some c) (hblock : t.block c.addr = some c.block)
    (hcap : ∀ n ∈ cap, path.length < n) :
    t.deepLeft cap (fuel + 1) p.addr pos path = enter cap t fuel c ((p.addr, pos) :: path) := by
  have hpush : push cap (p.addr, pos) path = some ((p.addr, pos) :: path) :=
    if_pos (by cases cap <;> simp_all)
  have haddr : p.block.children[pos]? = some c.addr := by
    rw [PlacedNode.block, List.getElem?_map, hc]
    rfl
  rw [deepLeft, hpush, Option.bind_some, hp, Option.bind_some, haddr, Option.bind_some, hblock,
    Option.bind_some]
  rfl

variable [DecidableEq ι]

/-- The tree without the blocks at `as`. -/
def destroyAll (t : HeapTree ι α) (as : List ι) : HeapTree ι α :=
  { t with
    block := fun a => if a ∈ as then none else t.block a
    numNodes := t.numNodes - UInt32.ofNat as.length
    freed := t.freed ++ as }

/-- A block outside the list survives. -/
theorem destroyAll_block (h : a ∉ as) : (t.destroyAll as).block a = t.block a := if_neg h

/-- A block that is there can be destroyed. -/
theorem destroyNode_eq {b : BPTreeBlock ι α} (h : t.block a = some b) :
    t.destroyNode a = some (t.destroyAll [a]) := by
  rw [destroyNode, h, Option.map_some, destroyAll]
  congr 2
  funext x
  simp [Function.update_apply]

/-- Destroying in two parts is destroying the whole list. -/
theorem destroyAll_append (t : HeapTree ι α) (as bs : List ι) :
    (t.destroyAll as).destroyAll bs = t.destroyAll (as ++ bs) := by
  unfold destroyAll
  congr 1
  · funext a
    by_cases ha : a ∈ as <;> by_cases hb : a ∈ bs <;> simp [ha, hb]
  · rw [List.length_append, UInt32.ofNat_add]
    grind
  · rw [List.append_assoc]

/-- A subtree none of whose blocks is destroyed stays stored. -/
theorem Stores.destroyAll (h : t.Stores p) (has : ∀ a ∈ p.addrs, a ∉ as) :
    (t.destroyAll as).Stores p := fun m hm => by
  rw [destroyAll_block (has _ (List.mem_map_of_mem hm))]
  exact h m hm

/-- What the loop does once a subtree below `path` is gone. -/
def resume (cap : Option Nat) (dig fuel : Nat) (t : HeapTree ι α) :
    List (ι × Nat) → Option (HeapTree ι α)
  | [] => some t
  | (node, pos) :: path =>
      (t.block node).bind fun block =>
        if pos < block.numItems then
          (t.deepLeft cap dig node (pos + 1) path).bind fun (node, path) =>
            clearLoop cap dig fuel t node path
        else clearLoop cap dig fuel t node path

/-- The loop destroys the node at hand and resumes above it. -/
theorem clearLoop_succ {dig fuel : Nat} (h : t.block p.addr = some p.block) :
    clearLoop cap dig (fuel + 1) t p.addr path =
      resume cap dig fuel (t.destroyAll [p.addr]) path := by
  rw [clearLoop, destroyNode_eq h, Option.bind_some]
  rfl

/-- From the way down into `p` on: its nodes are destroyed, children first, and the loop goes on. -/
def Cleared (cap : Option Nat) (h : Nat) (p : PlacedNode ι α) : Prop :=
  ∀ (k dig fuel : Nat) (t : HeapTree ι α) (path : List (ι × Nat)), h ≤ k → h ≤ dig →
    (∀ n ∈ cap, path.length + h ≤ n) → t.Stores p → p.addrs.Nodup →
      ((enter cap t k p path).bind fun (node, path) =>
        clearLoop cap dig (fuel + p.addrs.length) t node path) =
      resume cap dig fuel (t.destroyAll p.addrs) path

/-- Behind child `i` of `p` the loop is back at `p`: on to the next child, or `p` itself. -/
theorem clear_child {h i k dig fuel : Nat} (hc : Cleared cap h c) (hk : h ≤ k) (hdig : h ≤ dig)
    (hcap : ∀ n ∈ cap, path.length + (h + 1) ≤ n) (hp : t.block p.addr = some p.block)
    (hstores : t.Stores c) (hnodup : c.addrs.Nodup) (hpc : p.addr ∉ c.addrs) :
    ((enter cap t k c ((p.addr, i) :: path)).bind fun (node, path) =>
      clearLoop cap dig (fuel + c.addrs.length) t node path) =
    if i < p.keys.length then
      ((t.destroyAll c.addrs).deepLeft cap dig p.addr (i + 1) path).bind fun (node, path) =>
        clearLoop cap dig fuel (t.destroyAll c.addrs) node path
    else clearLoop cap dig fuel (t.destroyAll c.addrs) p.addr path := by
  have hroom : ∀ n ∈ cap, ((p.addr, i) :: path).length + h ≤ n := fun n hn => by
    have hle := hcap n hn
    rw [List.length_cons]
    omega
  rw [hc k dig fuel t _ hk hdig hroom hstores hnodup, resume, destroyAll_block hpc, hp,
    Option.bind_some]
  rfl

/-- The children of `p` from child `i` on, and then `p` itself. -/
theorem clear_children {h i k dig : Nat} (fuel : Nat) {cs : List (PlacedNode ι α)}
    (hlen : p.children.length = p.keys.length + 1)
    (hdown : ∀ c ∈ p.children, Cleared cap h c) (hcs : p.children.drop i = c :: cs)
    (hk : h ≤ k) (hdig : h + 1 ≤ dig)
    (hcap : ∀ n ∈ cap, path.length + (h + 1) ≤ n) (hp : t.block p.addr = some p.block)
    (hstores : ∀ d ∈ c :: cs, t.Stores d) (hnodup : (addrsOf (c :: cs) ++ [p.addr]).Nodup) :
    ((enter cap t k c ((p.addr, i) :: path)).bind fun (node, path) =>
      clearLoop cap dig (fuel + 1 + (addrsOf (c :: cs)).length) t node path) =
    resume cap dig fuel (t.destroyAll (addrsOf (c :: cs) ++ [p.addr])) path := by
  induction cs generalizing c i t k with
  | nil =>
      have hc : c ∈ p.children := List.mem_of_mem_drop (hcs ▸ List.mem_cons_self)
      have hi : ¬ i < p.keys.length := by
        have hsize := congrArg List.length hcs
        rw [List.length_drop, List.length_singleton] at hsize
        omega
      have hone : addrsOf [c] = c.addrs := by
        rw [addrsOf_cons, addrsOf, postOrders, List.map_nil, List.append_nil]
      rw [hone, List.nodup_append] at hnodup
      obtain ⟨hnodup, -, hdisjoint⟩ := hnodup
      have hpc : p.addr ∉ c.addrs := fun hmem => hdisjoint _ hmem p.addr (by simp) rfl
      have hp' : (t.destroyAll c.addrs).block p.addr = some p.block := by
        rw [destroyAll_block hpc, hp]
      rw [hone, clear_child (hdown c hc) hk (by omega) hcap hp (hstores c (by simp)) hnodup hpc,
        if_neg hi, clearLoop_succ hp', destroyAll_append]
  | cons d ds ih =>
      have hc : c ∈ p.children := List.mem_of_mem_drop (hcs ▸ List.mem_cons_self)
      have hi : i < p.keys.length := by
        have hsize := congrArg List.length hcs
        rw [List.length_drop, List.length_cons, List.length_cons] at hsize
        omega
      have hnext : p.children.drop (i + 1) = d :: ds := by
        rw [← List.drop_drop, hcs]
        rfl
      have hd : p.children[i + 1]? = some d := by
        rw [← List.head?_drop, hnext]
        rfl
      obtain ⟨dig, rfl⟩ : ∃ dig', dig = dig' + 1 := ⟨dig - 1, by omega⟩
      rw [addrsOf_cons, List.append_assoc, List.nodup_append] at hnodup
      obtain ⟨hnodup, hrest, hdisjoint⟩ := hnodup
      have hpc : p.addr ∉ c.addrs := fun hmem => hdisjoint _ hmem p.addr (by simp) rfl
      have hp' : (t.destroyAll c.addrs).block p.addr = some p.block := by
        rw [destroyAll_block hpc, hp]
      have hstores' : ∀ e ∈ d :: ds, (t.destroyAll c.addrs).Stores e := fun e he => by
        refine (hstores e (List.mem_cons_of_mem c he)).destroyAll fun a ha hac => ?_
        refine hdisjoint a hac a (List.mem_append_left _ ?_) rfl
        obtain ⟨m, hm, rfl⟩ := List.mem_map.mp ha
        exact List.mem_map_of_mem (mem_postOrders.mpr ⟨e, he, hm⟩)
      have hdown' := ih (t := t.destroyAll c.addrs) hnext (k := dig) (by omega) hp' hstores' hrest
      rw [addrsOf_cons c, List.length_append, Nat.add_comm c.addrs.length, ← Nat.add_assoc,
        clear_child (hdown c hc) hk (by omega) hcap hp (hstores c (by simp)) hnodup hpc, if_pos hi,
        deepLeft_child hp' hd (hstores' d (by simp)).block fun n hn => by
          have hle := hcap n hn
          omega,
        hdown', destroyAll_append, List.append_assoc]

/-- Every sound subtree is cleared: induction on its height, child after child. -/
theorem cleared {h : Nat} (hp : Sound h p.node) : Cleared cap h p := by
  induction h generalizing p with
  | zero =>
      intro _ _ fuel t path _ _ _ hstores hnodup
      have hleaf : p.isLeaf = true := by
        rw [← node_isLeaf]
        exact hp.isLeaf
      have hchildren : p.children = [] := by
        have hnil := hp.children_nil
        rwa [node_children, List.map_eq_nil_iff] at hnil
      have hone : p.addrs = [p.addr] := by
        rw [addrs_eq, hchildren]
        rfl
      rw [enter, if_pos hleaf, Option.bind_some, hone]
      exact clearLoop_succ hstores.block
  | succ h ih =>
      intro k dig fuel t path hk hdig hcap hstores hnodup
      have hnode : NodeOK (Good h) false 0 p.node := hp
      have hleaf : p.isLeaf = false := by
        rw [← node_isLeaf]
        exact hnode.isLeaf
      have hlen : p.children.length = p.keys.length + 1 := by
        have hfits := hnode.length_children
        rwa [node_children, List.length_map, node_keys] at hfits
      obtain ⟨c, cs, hcs⟩ := List.exists_cons_of_length_pos (l := p.children) (by omega)
      obtain ⟨k, rfl⟩ : ∃ k', k = k' + 1 := ⟨k - 1, by omega⟩
      have hdown : ∀ c ∈ p.children, Cleared cap h c := fun c hc =>
        ih (hnode.child c.node (by rw [node_children]; exact List.mem_map_of_mem hc)).1
      have hsub : ∀ d ∈ c :: cs, t.Stores d := fun d hd => hstores.child (hcs ▸ hd)
      have hall := clear_children (i := 0) (k := k) fuel hlen hdown hcs (by omega) hdig hcap
        hstores.block hsub (by rwa [addrs_eq, hcs] at hnodup)
      rw [enter, if_neg (by simp [hleaf]),
        deepLeft_child hstores.block (by rw [hcs]; rfl) (hsub c (by simp)).block fun n hn => by
          have hle := hcap n hn
          omega,
        addrs_eq, hcs, List.length_append, List.length_singleton, ← hall]
      have hfuel : fuel + ((addrsOf (c :: cs)).length + 1) =
          fuel + 1 + (addrsOf (c :: cs)).length := by omega
      rw [hfuel]

/-- `Clear` gives back the blocks of a sound tree and no others, if the path has room for its inner
levels. -/
theorem clear_placed {h fuel : Nat} (hp : Sound h p.node) (hcap : ∀ n ∈ cap, h ≤ n)
    (hroot : t.root = some p.addr) (hstores : t.Stores p) (hnodup : p.addrs.Nodup)
    (hlevels : h ≤ p.addrs.length) (hfuel : p.addrs.length ≤ fuel) :
    t.clear cap fuel =
      some { t.destroyAll p.addrs with root := none, count := 0, height := 0 } := by
  obtain ⟨rest, rfl⟩ := Nat.exists_eq_add_of_le' hfuel
  have hdown : Cleared cap h p := cleared hp
  have hall := hdown (rest + p.addrs.length) (rest + p.addrs.length) rest t [] (by omega)
    (by omega) (by simpa using hcap) hstores hnodup
  rw [resume] at hall
  have hfirst : (if p.block.isLeaf then some (p.addr, [])
      else t.deepLeft cap (rest + p.addrs.length) p.addr 0 []) =
        enter cap t (rest + p.addrs.length) p [] := rfl
  rw [clear, hroot]
  dsimp only
  rw [hstores.block, Option.bind_some, hfirst]
  generalize enter cap t (rest + p.addrs.length) p [] = entered at hall ⊢
  cases entered with
  | none => simp at hall
  | some start =>
      rw [Option.bind_some] at hall ⊢
      dsimp only at hall ⊢
      rw [hall]
      rfl

end HeapTree

namespace BPTree

open PlacedNode

variable {ι : Type v} {α : Type u} [LinearOrder α] [Inhabited α] [DecidableEq ι]

/-- The tree `t` with its nodes in memory. -/
def onHeap (t : BPTree α) {block : ι → Option (BPTreeBlock ι α)} {root : BPTreeNode α}
    (l : Layout block root) : HeapTree ι α :=
  ⟨block, some l.placed.addr, t.count, t.height, t.numNodes, []⟩

variable {block : ι → Option (BPTreeBlock ι α)} {root : BPTreeNode α}

omit [LinearOrder α] [Inhabited α] in
/-- A tree that holds a list has a root of some height above that list. -/
theorem Holds.treeOf {t : BPTree α} {L : List α} (hT : Holds t L) (hroot : t.root = some root) :
    ∃ H N, BPTreePath.TreeOf H N L root ∧ t.numNodes = UInt32.ofNat N := by
  obtain ⟨hnone, -⟩ | ⟨root', H, N, hroot', htree, -, hnodes⟩ := hT.shape
  · simp [hnone] at hroot
  · rw [hroot'] at hroot
    obtain rfl := Option.some.inj hroot
    exact ⟨H, N, htree, hnodes⟩

omit [LinearOrder α] [Inhabited α] in
/-- `Clear` on the heap destroys the blocks of the tree and no other. -/
theorem clear_layout {H N : Nat} {L : List α} (t : BPTree α) (htree : BPTreePath.TreeOf H N L root)
    (l : Layout block root) {cap : Option Nat} (hcap : ∀ n ∈ cap, H ≤ n) {fuel : Nat}
    (hfuel : root.nodes ≤ fuel) :
    (t.onHeap l).clear cap fuel =
      some { (t.onHeap l).destroyAll l.placed.addrs with
        root := none
        count := 0
        height := 0 } := by
  have hsize : l.placed.addrs.length = root.nodes := by
    rw [addrs, List.length_map, length_postOrder, l.node_eq]
  have hlevels := (htree.sound.nodes_le htree.pos).1
  exact HeapTree.clear_placed (by rw [l.node_eq]; exact htree.sound) hcap rfl l.stored l.nodup
    (by omega) (by omega)

omit [LinearOrder α] [Inhabited α] in
/-- `Clear` forgets the root. -/
theorem clear_root (t : BPTree α) : t.clear.root = none := by
  unfold clear
  split
  · assumption
  · rfl

/-- After `Clear` a tree is as it was when it was new. -/
theorem clear_reach (ops : List (BPTreeOp α)) : (reach ops).clear = empty := by
  obtain ⟨hshape, hcount⟩ := clear_spec (reach_represents ops).holds
  obtain ⟨hroot, -, hheight, hnodes⟩ | ⟨root, H, N, hroot, -⟩ := hshape
  · have hfields : (reach ops).clear = ⟨(reach ops).clear.root, (reach ops).clear.count,
        (reach ops).clear.height, (reach ops).clear.numNodes⟩ := rfl
    rw [hfields, hroot, hcount, hheight, hnodes]
    rfl
  · simp [clear_root] at hroot

/-- `Clear` on a tree of a run comes to its end without a fault; it gives each node back once,
behind its children and in the order of the walk over the tree, and what is left is as good as
new. -/
theorem clear_frees (ops : List (BPTreeOp α)) (hroot : (reach ops).root = some root)
    (l : Layout block root) :
    ∃ s : HeapTree ι α,
      (∀ fuel, root.nodes ≤ fuel → ((reach ops).onHeap l).clear none fuel = some s) ∧
      (s.freed = l.placed.postOrder.map addr ∧ s.freed.Nodup) ∧
      l.placed.postOrder.map node = destroyed root.nodes (BPTreePath.digLeft root []) ∧
      (∀ m ∈ l.placed.postOrder, ∀ c ∈ m.children, [c.addr, m.addr].Sublist s.freed) ∧
      (∀ a, s.block a = if a ∈ s.freed then none else block a) ∧
      (s.root = none ∧ s.count = 0 ∧ s.height = 0 ∧ s.numNodes = 0) ∧
      (reach ops).clear = ⟨none, s.count, s.height, s.numNodes⟩ ∧
      ∀ later, Machine.run step (⟨none, s.count, s.height, s.numNodes⟩ : BPTree α) later =
        Machine.run step empty later := by
  obtain ⟨H, N, htree, hnodes⟩ := (reach_represents ops).holds.treeOf hroot
  have hzero : (reach ops).numNodes - UInt32.ofNat l.placed.addrs.length = 0 := by
    rw [hnodes, ← htree.nodes, addrs, List.length_map, length_postOrder, l.node_eq]
    exact sub_self _
  refine ⟨_, fun fuel hfuel => clear_layout (reach ops) htree l (by simp) hfuel,
    ⟨rfl, l.nodup⟩, ?_, fun m hm c hc => child_before hm hc, fun a => rfl,
    ⟨rfl, rfl, rfl, hzero⟩, ?_, fun later => ?_⟩
  · rw [map_postOrder, l.node_eq, destroyed_root htree.sound]
  · rw [clear_reach]
    exact congrArg (BPTree.mk none 0 0) hzero.symm
  · exact congrArg (fun n => Machine.run step (BPTree.mk none 0 0 n) later) hzero

/-- A tree of three levels, its blocks at 0, 1, …. -/
theorem clear_frees_three_levels :
    let root := (reach (fillTo 200)).root.getD default
    ∃ s : HeapTree Nat Nat,
      ((reach (fillTo 200)).onHeap (Layout.numbered root)).clear none 16 = some s ∧
        s.freed.Nodup ∧ s.numNodes = 0 := by
  intro root
  have hsome : (reach (fillTo 200)).root.isSome := by decide +kernel
  have hroot : (reach (fillTo 200)).root = some root := by
    obtain ⟨n, hn⟩ := Option.isSome_iff_exists.mp hsome
    simp [root, hn]
  obtain ⟨s, hclear, ⟨-, hnodup⟩, -, -, -, ⟨-, -, -, hnodes⟩, -⟩ :=
    clear_frees (fillTo 200) hroot (Layout.numbered root)
  exact ⟨s, hclear 16 (by decide +kernel), hnodup, hnodes⟩

end BPTree

end AstraKV
