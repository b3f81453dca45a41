import AstraKV.BPTree.Node

/-!
# AstraKV.BPTree.Path

The explicit path stack (`detail::BPTreePath`): pairs of a node and a
position in it.  The list has the deepest record first, so `Last()` is the
head, `Push` is cons and `Pop` is tail.

In every record but the last the position is a child index.  In the last
record it is a key index; in an inner node reached from below it is the
index of the separator just after child `pos`.

The source keeps the records in an array of fixed size and never copies the
tree, so after a change below it only the pointers in the records are stale in
the model: where the code changes a node through its pointer, the model writes
the changed child back into every record above it. That a path has room for
its records is a matter of its own (`AstraKV.BPTree.Depth`).
-/

universe u

namespace AstraKV

/-- `BPTreePath::Record`. -/
structure PathRecord (α : Type u) where
  node : BPTreeNode α
  pos : Nat

/-- `BPTreePath`, deepest record first. -/
abbrev BPTreePath (α : Type u) := List (PathRecord α)

namespace BPTreePath

open BPTreeNode

variable {α : Type u}

/-! ## digging -/

/-- Push the leftmost nodes below and including `n`, each with position 0. -/
def digLeft : BPTreeNode α → BPTreePath α → BPTreePath α
  | ⟨leaf, ks, [], cnt⟩, path => ⟨⟨leaf, ks, [], cnt⟩, 0⟩ :: path
  | ⟨leaf, ks, c :: cs, cnt⟩, path =>
      if leaf then ⟨⟨leaf, ks, c :: cs, cnt⟩, 0⟩ :: path
      else digLeft c (⟨⟨leaf, ks, c :: cs, cnt⟩, 0⟩ :: path)

mutual
/-- Push the rightmost nodes below and including `n`, each with position
`NumItems()`; in the leaf the position is moved back to the last key. -/
def digRightFrom : BPTreeNode α → BPTreePath α → BPTreePath α
  | ⟨leaf, ks, cs, cnt⟩, path =>
      if leaf then ⟨⟨leaf, ks, cs, cnt⟩, ks.length - 1⟩ :: path
      else digRightIn cs ks.length (⟨⟨leaf, ks, cs, cnt⟩, ks.length⟩ :: path)

/-- Continue in child `i` of the list. -/
def digRightIn : List (BPTreeNode α) → Nat → BPTreePath α → BPTreePath α
  | [], _, path => path
  | c :: _, 0, path => digRightFrom c path
  | _ :: cs, i + 1, path => digRightIn cs i path
end

/-- `DigRight()`: extend the path to the rightmost leaf below child `pos`. -/
def digRight (path : BPTreePath α) : BPTreePath α :=
  match path with
  | [] => []
  | r :: rest => digRightFrom (r.node.child r.pos) (r :: rest)

/-! ## stepping -/

/-- `Next()`: from a leaf to the next key in it, else up to the first
ancestor with a separator left; from a separator down to the leftmost leaf
of the next child.  False with the empty path at the end of the tree. -/
def next : BPTreePath α → Bool × BPTreePath α
  | [] => (false, [])
  | ⟨node, pos⟩ :: rest =>
      if node.isLeaf then
        if pos + 1 < node.numItems then (true, ⟨node, pos + 1⟩ :: rest)
        else
          let path := rest.dropWhile fun r => r.pos == r.node.numItems
          (!path.isEmpty, path)
      else (true, digLeft (node.child (pos + 1)) (⟨node, pos + 1⟩ :: rest))

/-- `Prev()`: from a leaf back to the first record that can move left; from a
separator down to the rightmost leaf of the child before it. -/
def prev : BPTreePath α → Bool × BPTreePath α
  | [] => (false, [])
  | ⟨node, pos⟩ :: rest =>
      if node.isLeaf then
        match (⟨node, pos⟩ :: rest : BPTreePath α).dropWhile fun r => r.pos == 0 with
        | [] => (false, [])
        | r :: rest => (true, ⟨r.node, r.pos - 1⟩ :: rest)
      else (true, digRight (⟨node, pos⟩ :: rest))

/-! ## rank -/

/-- What one record adds to the rank.  In an inner node the children before
`pos` count, and in the last record child `pos` too. -/
def rankPart (last : Bool) (r : PathRecord α) : UInt32 :=
  (if r.node.isLeaf then 0
    else sumTreeCounts (r.node.children.take (r.pos + if last then 1 else 0))) +
  UInt32.ofNat r.pos

/-- `Rank()` of the path's terminal item. -/
def rank : BPTreePath α → UInt32
  | [] => 0
  | r :: rest => rankPart true r + (rest.map (rankPart false)).sum

/-- `HasValidTerminal()`. -/
def hasValidTerminal : BPTreePath α → Bool
  | [] => false
  | r :: _ => r.pos < r.node.numItems

/-- The key the path ends at; nothing when the position is not a key's. -/
def terminal? : BPTreePath α → Option α
  | [] => none
  | r :: _ => r.node.keys[r.pos]?

/-! ## writing back

Nodes are shared by pointer in the source, so a change to a node is at
once a change to what its ancestors point to.  Here the ancestors hold
snapshots, and `writeBack` puts the changed child into each of them. -/

/-- The root after the node below the path `ancestors` became `n`. -/
def writeBack (n : BPTreeNode α) : BPTreePath α → BPTreeNode α
  | [] => n
  | r :: rest => writeBack (r.node.setChild r.pos n) rest

/-- `IncreaseSubtreeCounts` over all records of `path`. -/
def increaseSubtreeCounts (path : BPTreePath α) (delta : UInt32) : BPTreePath α :=
  path.map fun r => { r with node := r.node.increaseTreeCount delta }

end BPTreePath

end AstraKV
