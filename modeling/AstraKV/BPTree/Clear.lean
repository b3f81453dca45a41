import AstraKV.BPTree.Search

/-!
# AstraKV.BPTree.Clear

`Clear`: the walk that destroys every node after its children.

The walk keeps a path like every other operation, digs to the leftmost leaf
and frees a node once it has come back from the last of its children. What is
proved first is the order: started at a node, the walk frees the nodes of that
subtree in post-order and goes on with the rest of the path. The counters
follow, since one node is taken off the count at each step.
-/

universe u

namespace AstraKV

open Weave Cut BPTreeNode BPTreePath

variable {α : Type u}

/-! ## the order of destruction -/

namespace BPTreeNode

mutual
/-- All nodes of a subtree, every node after its children. -/
def postOrder : BPTreeNode α → List (BPTreeNode α)
  | ⟨leaf, ks, cs, cnt⟩ => postOrders cs ++ [⟨leaf, ks, cs, cnt⟩]

def postOrders : List (BPTreeNode α) → List (BPTreeNode α)
  | [] => []
  | c :: cs => postOrder c ++ postOrders cs
end

/-- A node comes after everything below it. -/
theorem postOrder_eq (n : BPTreeNode α) : n.postOrder = postOrders n.children ++ [n] := by
  obtain ⟨leaf, ks, cs, cnt⟩ := n
  rw [postOrder]

mutual
/-- The post-order lists every node of a subtree once. -/
theorem length_postOrder : ∀ n : BPTreeNode α, n.postOrder.length = n.nodes
  | ⟨leaf, ks, cs, cnt⟩ => by
      rw [postOrder, nodes_eq, List.length_append, length_postOrders cs]
      rfl

theorem length_postOrders : ∀ cs : List (BPTreeNode α), (postOrders cs).length = nodesOf cs
  | [] => rfl
  | c :: cs => by
      rw [postOrders, nodesOf_cons, List.length_append, length_postOrder c, length_postOrders cs]
end

end BPTreeNode

namespace BPTree

/-- The loop of `Clear`: the nodes it destroys, in order.  The node on top of the path is the
next one; `deep_left` is `digLeft`. -/
def destroyed : Nat → BPTreePath α → List (BPTreeNode α)
  | 0, _ => []
  | _ + 1, [] => []
  | _ + 1, [⟨node, _⟩] => [node]
  | n + 1, ⟨node, _⟩ :: ⟨parent, pos⟩ :: rest =>
      node ::
        if pos < parent.numItems then
          destroyed n (digLeft (parent.child (pos + 1)) (⟨parent, pos + 1⟩ :: rest))
        else destroyed n (⟨parent, pos⟩ :: rest)

/-- `Clear()`; the loop ends after as many turns as there are nodes. -/
def clear (t : BPTree α) : BPTree α :=
  match t.root with
  | none => t
  | some root =>
      let t := (destroyed root.nodes (digLeft root [])).foldl (fun t _ => t.destroyNode) t
      { t with root := none, count := 0, height := 0 }

/-- What is left to destroy once a subtree below `path` is gone. -/
def resume (n : Nat) : BPTreePath α → List (BPTreeNode α)
  | [] => []
  | ⟨parent, pos⟩ :: rest =>
      if pos < parent.numItems then
        destroyed n (digLeft (parent.child (pos + 1)) (⟨parent, pos + 1⟩ :: rest))
      else destroyed n (⟨parent, pos⟩ :: rest)

/-- One step frees the node at hand and goes on with its parent. -/
theorem destroyed_succ (n : Nat) (node : BPTreeNode α) (pos : Nat) (rest : BPTreePath α) :
    destroyed (n + 1) (⟨node, pos⟩ :: rest) = node :: resume n rest := by
  cases rest with
  | nil => rfl
  | cons r rest => rfl

/-- The children of `n` from child `i` on, and then `n` itself. -/
theorem destroyed_children {n : BPTreeNode α} (path : BPTreePath α) (fuel : Nat)
    (hlen : n.children.length = n.numItems + 1)
    (hdown : ∀ c ∈ n.children, ∀ fuel path,
      destroyed (fuel + c.nodes) (digLeft c path) = c.postOrder ++ resume fuel path)
    (i : Nat) {cs : List (BPTreeNode α)} {c : BPTreeNode α} (hcs : n.children.drop i = c :: cs) :
    destroyed (fuel + 1 + nodesOf (c :: cs)) (digLeft c (⟨n, i⟩ :: path)) =
      postOrders (c :: cs) ++ n :: resume fuel path := by
  induction cs generalizing c i with
  | nil =>
      have hc : c ∈ n.children := List.mem_of_mem_drop (hcs ▸ List.mem_cons_self)
      have hi : ¬ i < n.numItems := by
        have hsize := congrArg List.length hcs
        rw [List.length_drop, List.length_singleton] at hsize
        omega
      rw [nodesOf_cons, nodesOf_nil, Nat.add_zero c.nodes, hdown c hc, resume, if_neg hi,
        destroyed_succ, postOrders, postOrders, List.append_nil]
  | cons d ds ih =>
      have hc : c ∈ n.children := List.mem_of_mem_drop (hcs ▸ List.mem_cons_self)
      have hi : i < n.numItems := by
        have hsize := congrArg List.length hcs
        rw [List.length_drop, List.length_cons, List.length_cons] at hsize
        omega
      have hnext : n.children.drop (i + 1) = d :: ds := by
        rw [← List.drop_drop, hcs]
        rfl
      have hd : n.children[i + 1]? = some d := by
        rw [← List.head?_drop, hnext]
        rfl
      rw [nodesOf_cons, show fuel + 1 + (c.nodes + nodesOf (d :: ds)) =
          fuel + 1 + nodesOf (d :: ds) + c.nodes by omega,
        hdown c hc, resume, if_pos hi, child_eq hd, ih (i + 1) hnext, postOrders.eq_2 c,
        List.append_assoc]

/-- A subtree is destroyed in post-order, whatever path hangs above it. -/
theorem destroyed_subtree {h : Nat} {n : BPTreeNode α} (hn : Sound h n) (fuel : Nat)
    (path : BPTreePath α) :
    destroyed (fuel + n.nodes) (digLeft n path) = n.postOrder ++ resume fuel path := by
  induction h generalizing n fuel path with
  | zero =>
      have hchildren := hn.children_nil
      have hdig : digLeft n path = ⟨n, 0⟩ :: path := by
        obtain ⟨leaf, ks, cs, cnt⟩ := n
        obtain rfl : cs = [] := hchildren
        rfl
      rw [hdig, nodes_eq, postOrder_eq, hchildren]
      exact destroyed_succ fuel n 0 path
  | succ h ih =>
      have hnode : NodeOK (Good h) false 0 n := hn
      have hlen : n.children.length = n.numItems + 1 := hnode.length_children
      cases hcs : n.children with
      | nil =>
          rw [hcs] at hlen
          contradiction
      | cons c cs =>
          have hdig : digLeft n path = digLeft c (⟨n, 0⟩ :: path) := by
            obtain ⟨leaf, ks, cs', cnt⟩ := n
            obtain rfl : cs' = c :: cs := hcs
            obtain rfl : leaf = false := hnode.isLeaf
            rfl
          have hall := destroyed_children path fuel hlen (fun c hc => ih (hnode.child c hc).1) 0 hcs
          rw [hdig, nodes_eq, postOrder_eq, hcs, show fuel + (nodesOf (c :: cs) + 1) =
            fuel + 1 + nodesOf (c :: cs) by omega, hall, List.append_assoc, List.singleton_append]

/-- `Clear` destroys every node once, children first. -/
theorem destroyed_root {h : Nat} {root : BPTreeNode α} (hroot : Sound h root) :
    destroyed root.nodes (digLeft root []) = root.postOrder := by
  have hall := destroyed_subtree hroot 0 []
  rwa [Nat.zero_add, resume, List.append_nil] at hall

/-- Each node freed takes one off the count, modulo 2^32. -/
theorem foldl_destroyNode (ns : List (BPTreeNode α)) (t : BPTree α) :
    (ns.foldl (fun t _ => t.destroyNode) t).numNodes = t.numNodes - UInt32.ofNat ns.length := by
  induction ns generalizing t with
  | nil => simp
  | cons n ns ih =>
      rw [List.foldl_cons, ih, destroyNode, List.length_cons, UInt32.ofNat_add]
      dsimp only
      grind

/-- `Clear` leaves a tree that holds nothing. -/
theorem clear_spec {t : BPTree α} {L : List α} (hT : Holds t L) : Holds t.clear [] := by
  unfold clear
  obtain ⟨hroot, rfl, -⟩ | ⟨root, H, N, hroot, htree, -, hnodes⟩ := hT.shape
  · rw [hroot]
    exact hT
  · rw [hroot]
    refine ⟨Or.inl ⟨rfl, rfl, rfl, ?_⟩, rfl⟩
    show (List.foldl _ t _).numNodes = 0
    rw [foldl_destroyNode, destroyed_root htree.sound, length_postOrder, htree.nodes, hnodes]
    exact sub_self _

end BPTree

end AstraKV
